import FirstHit.Proofs.Insertion

/-!
# Paths of states

The path of a state is what the edges of the trie spell on the way down to it. It is read off the
trie, by descending from the root along a string (`Trie.descend?`), and not off the names that the
closed form gives to its states. In the trie of a list of patterns the two agree: a descent arrives
exactly if the string is live, and then at the state that stands for it
(`Trie.descend?_ofLiveStrings`). So every state has one path (`Trie.Spells`).
-/

namespace FirstHit

namespace Trie

/-- The state that the edge of `s` on `b` leads to, if there is such an edge. -/
def child? (t : Trie) (s : StateId) (b : UInt8) : Option StateId :=
  t.nodes[s.index]?.bind fun n ↦ n.edge? b

/-- The state that a descent from the root along `w` arrives at, if it does not leave the trie. -/
def descend? (t : Trie) (w : Bytes) : Option StateId := w.foldlM t.child? .root

/-- The path of `s` is `w`, and nothing else leads to `s`. -/
def Spells (t : Trie) (w : Bytes) (s : StateId) : Prop := ∀ v, t.descend? v = some s ↔ v = w

variable {paths patterns : List Bytes} {ids : Bytes → List Nat} {v w : Bytes} {s : StateId}

theorem descend?_append_singleton (t : Trie) (w : Bytes) (b : UInt8) :
    t.descend? (w ++ [b]) = (t.descend? w).bind fun s ↦ t.child? s b := by
  rw [descend?, descend?, List.foldlM_append]
  refine congrArg _ (funext fun s ↦ ?_)
  rw [List.foldlM_cons]
  exact bind_pure _

theorem child?_plain (hn : Numbering paths) (hw : w ∈ paths) (b : UInt8) :
    (plain paths ids).child? (.ofPath paths w) b
      = if w ++ [b] ∈ paths then some (.ofPath paths (w ++ [b])) else none := by
  rw [child?, plain, getElem?_ofPaths hn hw, Option.bind_some, edge?_plainNode]

/-- A descent along a string of the list arrives at its state. Along any other it leaves the
trie. -/
theorem descend?_plain (hn : Numbering paths) (w : Bytes) :
    (plain paths ids).descend? w = if w ∈ paths then some (.ofPath paths w) else none := by
  induction w using List.reverseRecOn with
  | nil => rw [if_pos hn.nil_mem, hn.ofPath_nil]; rfl
  | append_singleton w b ih =>
    rw [descend?_append_singleton, ih]
    by_cases hw : w ∈ paths
    · rw [if_pos hw, Option.bind_some, child?_plain hn hw]
    · rw [if_neg hw, if_neg (hw ∘ hn.parent), Option.bind_none]

theorem spells_plain (hn : Numbering paths) (hw : w ∈ paths) :
    (plain paths ids).Spells w (.ofPath paths w) := by
  intro v
  constructor
  · intro hv
    rw [descend?_plain hn] at hv
    by_cases hmem : v ∈ paths
    · rw [if_pos hmem, Option.some_inj] at hv
      exact (hn.ofPath_inj hmem hw).mp hv
    · rw [if_neg hmem] at hv
      cases hv
  · rintro rfl
    rw [descend?_plain hn, if_pos hw]

/-! ## The trie of a list of patterns -/

theorem child?_ofLiveStrings (hn : Numbering (livePaths patterns)) (hw : isLive patterns w = true)
    (b : UInt8) :
    (ofLiveStrings patterns).child? (.ofPath (livePaths patterns) w) b
      = if w ++ [b] ∈ livePaths patterns then some (.ofPath (livePaths patterns) (w ++ [b]))
        else none :=
  child?_plain hn (mem_livePaths.mpr hw) b

theorem descend?_ofLiveStrings (hn : Numbering (livePaths patterns)) (w : Bytes) :
    (ofLiveStrings patterns).descend? w
      = if w ∈ livePaths patterns then some (.ofPath (livePaths patterns) w) else none :=
  descend?_plain hn w

theorem descend?_of_isLive (hn : Numbering (livePaths patterns)) (hw : isLive patterns w = true) :
    (ofLiveStrings patterns).descend? w = some (.ofPath (livePaths patterns) w) := by
  rw [descend?_ofLiveStrings hn, if_pos (mem_livePaths.mpr hw)]

theorem spells_ofPath (hn : Numbering (livePaths patterns)) (hw : isLive patterns w = true) :
    (ofLiveStrings patterns).Spells w (.ofPath (livePaths patterns) w) :=
  spells_plain hn (mem_livePaths.mpr hw)

end Trie

end FirstHit
