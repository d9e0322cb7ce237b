import FirstHit.Automaton.Basic
import FirstHit.Links

/-!
# Transition tables

The sparse edges and the failure links of a trie determine one target for every state and byte. The
table holds all of them, so that a scan looks up one entry for each byte.

Rows are filled in the order of the breadth-first visit. Where a state has no edge, its entry is
copied from the row of its failure link. The link leads to a shallower state, which the visit
reached before, so that row is complete; and the root, whose link is itself, has an edge on every
byte and never reads its own row.
-/

namespace FirstHit

namespace LinkedTrie

/-- The table with the entry of `s` and `b` filled in. -/
def fillCell (node : Node) (s : StateId) (table : Array StateId) (b : UInt8) :
    Checked (Array StateId) := do
  let target ←
    match node.edge? b with
    | some target => .ok target
    | none => Checked.entry table (Automaton.cell node.fail b)
  let _ ← Checked.entry table (Automaton.cell s b)
  .ok (table.setIfInBounds (Automaton.cell s b) target)

/-- The table with the row of `s` filled in. -/
def fillRow (t : Trie) (table : Array StateId) (s : StateId) : Checked (Array StateId) := do
  let node ← t.node s
  Byte.all.foldlM (fillCell node s) table

/-- The transition table of a linked trie. -/
def table (l : LinkedTrie) : Checked (Array StateId) :=
  l.order.foldlM (fillRow l.trie) (Array.replicate (l.trie.size * Byte.count) StateId.root)

/-- The states of the automaton, without the edges that only the construction needs. -/
def states (l : LinkedTrie) : Array State :=
  l.trie.nodes.map fun n ↦ { fail := n.fail, depth := n.depth, ids := n.ids }

end LinkedTrie

end FirstHit
