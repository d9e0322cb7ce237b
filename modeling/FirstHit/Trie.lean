import FirstHit.Limit
import FirstHit.StateId

/-!
# The trie of the patterns

The states of an automaton are the nodes of the trie of its patterns. They live in one arena and
are numbered in order of creation: the root first, then, pattern by pattern, one node for each
prefix that no earlier pattern has.

A node carries from the start what later passes fill in: the failure link, which points to the root
until it is computed, and the list of patterns that the node accepts, which at first holds those
that its own path spells. Edges are kept in increasing order of their bytes, so that visiting them
needs no sorting.

Insertion is the only place where a build can exceed a limit. The length of a pattern is checked
before any of its nodes is made, and the number of nodes before each new one, so the first limit
that a list of patterns exceeds is the one that is reported. The depth of a new node is a sum in 32
bits, which is formed before the number of nodes is checked (`Node.childDepth`).
-/

namespace FirstHit

/-- The byte on an edge and the state that the edge leads to. -/
abbrev Edge := UInt8 × StateId

namespace Edge

/-- The edges `edges` with an edge on `b` to `s`, in increasing order of their bytes. -/
def insert (b : UInt8) (s : StateId) : List Edge → List Edge
  | [] => [(b, s)]
  | e :: edges =>
    if b < e.1 then (b, s) :: e :: edges
    else if b = e.1 then (b, s) :: edges
    else e :: insert b s edges

theorem lookup_cons_edge (c d : UInt8) (t : StateId) (edges : List Edge) :
    List.lookup c ((d, t) :: edges) = if c = d then some t else edges.lookup c := by
  rw [List.lookup_cons]
  by_cases hc : c = d
  · simp [hc]
  · rw [beq_false_of_ne hc, if_neg hc]

/-- A new edge answers for its own byte and leaves the others alone. -/
theorem lookup_insert (b : UInt8) (s : StateId) (c : UInt8) (edges : List Edge) :
    (insert b s edges).lookup c = if c = b then some s else edges.lookup c := by
  induction edges with
  | nil => rw [insert, lookup_cons_edge]
  | cons e edges ih =>
    obtain ⟨d, t⟩ := e
    rw [insert]
    by_cases hlt : b < d
    · rw [if_pos hlt, lookup_cons_edge]
    · rw [if_neg hlt]
      by_cases hbd : b = d
      · rw [if_pos hbd, lookup_cons_edge, lookup_cons_edge, hbd]
        by_cases hc : c = d
        · rw [if_pos hc, if_pos hc]
        · rw [if_neg hc, if_neg hc, if_neg hc]
      · rw [if_neg hbd, lookup_cons_edge, lookup_cons_edge, ih]
        by_cases hc : c = d
        · rw [if_pos hc, if_pos hc, if_neg fun h ↦ hbd (h.symm.trans hc)]
        · rw [if_neg hc, if_neg hc]

end Edge

/-- A state while the automaton is being built. -/
structure Node where
  /-- The edges, in increasing order of their bytes. -/
  edges : List Edge := []
  /-- The failure link. -/
  fail : StateId := .root
  /-- The length of the path from the root. -/
  depth : UInt32
  /-- The patterns that the node accepts, in the order in which a scan prefers them. -/
  ids : List Nat := []
deriving DecidableEq

namespace Node

/-- The state that the edge on `b` leads to, if there is such an edge. -/
def edge? (n : Node) (b : UInt8) : Option StateId := n.edges.lookup b

/-- Adds an edge. -/
def addEdge (n : Node) (b : UInt8) (s : StateId) : Node :=
  { n with edges := Edge.insert b s n.edges }

/-- Adds a pattern that the path of the node spells, behind those it accepts already. -/
def accept (n : Node) (id : Nat) : Node :=
  { n with ids := n.ids ++ [id] }

/-- The depth of a node below, unless 32 bits cannot hold it. -/
def childDepth (n : Node) : Checked UInt32 :=
  if n.depth.toNat + 1 < UInt32.size then .ok (n.depth + 1) else .error .tooDeep

theorem edge?_addEdge (n : Node) (b : UInt8) (s : StateId) (c : UInt8) :
    (n.addEdge b s).edge? c = if c = b then some s else n.edge? c :=
  Edge.lookup_insert b s c n.edges

/-- A depth that is there is exact. -/
theorem childDepth_eq_ok_iff {n : Node} {depth : UInt32} :
    n.childDepth = .ok depth ↔ depth.toNat = n.depth.toNat + 1 := by
  rw [childDepth]
  split
  case isTrue h =>
    have hsum : (n.depth + 1).toNat = n.depth.toNat + 1 := Nat.mod_eq_of_lt h
    rw [Except.ok.injEq, ← UInt32.toNat_inj, hsum]
    exact eq_comm
  case isFalse h =>
    refine ⟨nofun, fun heq ↦ absurd ?_ h⟩
    exact heq ▸ depth.toNat_lt_size

end Node

/-- The arena of nodes. -/
structure Trie where
  /-- The nodes in order of creation. -/
  nodes : Array Node
deriving DecidableEq

namespace Trie

/-- The number of nodes. -/
def size (t : Trie) : Nat := t.nodes.size

/-- The node that `s` identifies. -/
def node (t : Trie) (s : StateId) : Checked Node := Checked.entry t.nodes s.index

/-- Changes the node that `s` identifies. -/
def update (t : Trie) (s : StateId) (f : Node → Node) : Checked Trie := do
  let _ ← t.node s
  .ok ⟨t.nodes.modify s.index f⟩

theorem node_of_lt {t : Trie} {s : StateId} (h : s.index < t.size) :
    t.node s = .ok t.nodes[s.index] :=
  Checked.entry_of_lt h

theorem update_of_lt {t : Trie} {s : StateId} (h : s.index < t.size) (f : Node → Node) :
    t.update s f = .ok ⟨t.nodes.modify s.index f⟩ := by
  rw [update, node_of_lt h]
  rfl

/-- A change never adds or removes a node. -/
theorem size_of_update {t u : Trie} {s : StateId} {f : Node → Node} (h : t.update s f = .ok u) :
    u.size = t.size := by
  rw [update] at h
  cases hn : t.node s with
  | error cause => rw [hn] at h; cases h
  | ok n =>
    rw [hn] at h
    cases h
    exact Array.size_modify

/-! ## Growing -/

/-- The arena before it has a root. -/
def empty : Trie := ⟨#[]⟩

/-- Adds a node without edges at the given depth. -/
def addNode (c : Config) (t : Trie) (depth : UInt32) : Building (Trie × StateId) := do
  c.admitState t.size
  match StateId.ofIndex? t.size with
  | some s => .ok (⟨t.nodes.push { depth }⟩, s)
  | none => .error { error := .stateLimitExceeded 4294967295 }

/-- Follows `bytes` down from `s` and makes the nodes that are missing on the way. -/
def extend (c : Config) : Trie → StateId → Bytes → Building (Trie × StateId)
  | t, s, [] => .ok (t, s)
  | t, s, b :: bytes => do
    let node ← Building.ofChecked (t.node s)
    match node.edge? b with
    | some next => extend c t next bytes
    | none =>
      let depth ← Building.ofChecked node.childDepth
      let (grown, next) ← t.addNode c depth
      let joined ← Building.ofChecked (grown.update s (·.addEdge b next))
      extend c joined next bytes

/-- Inserts the pattern with the given id. -/
def insert (c : Config) (t : Trie) (id : Nat) (pattern : Bytes) : Building Trie := do
  c.admitPattern id pattern
  let (extended, s) ← t.extend c .root pattern
  Building.ofChecked (extended.update s (·.accept id))

/-- Inserts patterns in turn, the first of them with the id `id`. -/
def insertFrom (c : Config) : Trie → Nat → List Bytes → Building Trie
  | t, _, [] => .ok t
  | t, id, pattern :: patterns => do
    let inserted ← t.insert c id pattern
    insertFrom c inserted (id + 1) patterns

/-- The trie of a list of patterns. The id of a pattern is its position in the list. -/
def ofPatterns (c : Config) (patterns : List Bytes) : Building Trie := do
  let (rooted, _) ← empty.addNode c 0
  rooted.insertFrom c 0 patterns

end Trie

end FirstHit
