import FirstHit.Trie

/-!
# Failure links

The failure link of a state leads to the longest proper suffix of its path that is again the path
of a state. Links are computed breadth first. The link of a child is found by a *chase*: follow the
links of its parent until a state has an edge on the byte of the child. Links of shallower states
are all that a chase follows, and these are final when it starts.

Before the first chase the root gets an edge on every byte, leading to itself where the trie has
none, so a chase that arrives at the root ends there. Each link followed leads to a shallower
state, so a chase from a state follows at most as many links as the state is deep. A chase that
would follow more stops with a fault, which the links of a trie rule out and arbitrary links do not.

Where states inherit, a state appends the patterns of its link's target to its own at the moment
its link is set. The target is shallower and its list complete, so one step inherits along the whole
chain, longest suffix first.

The order in which the children of one state are visited is a parameter: the links do not depend on
it, and to say so it has to be varied. `Trie.link` visits children in increasing order of their
bytes.
-/

namespace FirstHit

/-- A rearrangement of the edges of each state. -/
abbrev Arrangement := StateId → List Edge → List Edge

/-- A trie whose links are set, with its states in the order of the visit. -/
structure LinkedTrie where
  /-- The trie with links, and with inherited patterns where these are wanted. -/
  trie : Trie
  /-- The states in breadth-first order, the root first. -/
  order : List StateId
deriving DecidableEq

namespace Trie

/-- Gives the root an edge on every byte, to itself where it has none. -/
def closeRoot (t : Trie) : Checked Trie :=
  t.update .root fun root ↦
    { root with edges := Byte.all.map fun b ↦ (b, (root.edge? b).getD .root) }

/-- Follows failure links from `s` until a state has an edge on `b`, and takes that edge. At most
`bound` links are followed, and at least one is. -/
def chase (t : Trie) (b : UInt8) : (bound : Nat) → (s : StateId) → Checked StateId
  | 0, _ => .error .endlessLinks
  | bound + 1, s => do
    let node ← t.node s
    let fallback ← t.node node.fail
    match fallback.edge? b with
    | some target => .ok target
    | none => chase t b bound node.fail

/-- Sets the failure link of `s` to `target`, and appends the patterns of `target` if `s` inherits
them. -/
def setFail (inherit : Bool) (t : Trie) (s target : StateId) : Checked Trie := do
  let pointed ← t.update s fun n ↦ { n with fail := target }
  if inherit ∧ target ≠ s then
    let suffix ← pointed.node target
    pointed.update s fun n ↦ { n with ids := n.ids ++ suffix.ids }
  else
    .ok pointed

/-- Sets the failure link of the child of `s` that the edge `e` leads to. -/
def linkChild (inherit : Bool) (s : StateId) (t : Trie) (e : Edge) : Checked Trie := do
  let parent ← t.node s
  let target ← t.chase e.1 parent.depth.toNat s
  t.setFail inherit e.2 target

/-- Visits the states of the queue and all that are below them, and links their children. Every
visit uses one unit of `bound`. -/
def visit (inherit : Bool) (arrange : Arrangement) :
    (bound : Nat) → Trie → List StateId → Checked LinkedTrie
  | _, t, [] => .ok { trie := t, order := [] }
  | 0, _, _ :: _ => .error .endlessLinks
  | bound + 1, t, s :: queue => do
    let node ← t.node s
    let edges := arrange s node.edges
    let linked ← edges.foldlM (linkChild inherit s) t
    let below ← visit inherit arrange bound linked (queue ++ edges.map (·.2))
    .ok { below with order := s :: below.order }

/-- Links all states, visiting the children of a state in the order that `arrange` gives them. The
children of the root are visited in increasing order of their bytes in any case. -/
def linkArranged (inherit : Bool) (arrange : Arrangement) (t : Trie) : Checked LinkedTrie := do
  let root ← t.node .root
  let children := root.edges.map (·.2)
  let closed ← t.closeRoot
  let linked ← children.foldlM (setFail inherit · · .root) closed
  let below ← visit inherit arrange t.size linked children
  .ok { below with order := .root :: below.order }

/-- Links all states, visiting the children of a state in increasing order of their bytes. -/
def link (inherit : Bool) (t : Trie) : Checked LinkedTrie :=
  t.linkArranged inherit fun _ edges ↦ edges

end Trie

end FirstHit
