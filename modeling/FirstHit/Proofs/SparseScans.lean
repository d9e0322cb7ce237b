import FirstHit.Proofs.FirstHits
import FirstHit.Proofs.Paths

/-!
# Scans without a table

Edges and failure links are enough to scan a text: while the state has no edge on the byte read,
fall back along its link, and then take the edge. The root stays where it is on a byte that it has
no edge for, so the fall ends there. This is the sparse automaton, which keeps the edges of the trie
as insertion left them and has no table.

The table holds the outcome of every such fall. Its entries are copied from other rows while these
are being filled, and no fall is computed on the way; but both lead to the longest live suffix of
the path grown by the byte (`Automaton.sparseNext_ofPath`), and so a scan by look-ups answers as one
that falls back.
-/

namespace FirstHit

namespace Automaton

variable {search : Search} {c : Config} {patterns : List Bytes} {a : Automaton} {w : Bytes}

/-! ## The sparse automaton -/

/-- Follows failure links from `s` until a state has an edge on `b` in the trie, and takes that
edge. If no state has one, the fall ends at the root. At most `bound` links are followed. -/
def sparseNextWithin (t : Trie) (a : Automaton) (b : UInt8) :
    (bound : Nat) → StateId → Checked StateId
  | bound, s =>
    match t.child? s b with
    | some target => .ok target
    | none =>
      if s = .root then .ok .root
      else
        match bound with
        | 0 => .error .endlessLinks
        | bound + 1 => do
          let fallback ← a.failure s
          sparseNextWithin t a b bound fallback

/-- The state that `s` goes to on `b` by edges of the trie and failure links. -/
def sparseNext (t : Trie) (a : Automaton) (s : StateId) (b : UInt8) : Checked StateId :=
  a.sparseNextWithin t b a.stateCount s

/-- The first hit of a scan by edges and links that is in state `s` at the offset `offset`. -/
def sparseScan (t : Trie) (a : Automaton) : StateId → Nat → Bytes → Checked (Option Hit)
  | _, _, [] => .ok none
  | s, offset, b :: text => do
    let reached ← a.sparseNext t s b
    match ← a.hit? reached (offset + 1) with
    | some hit => .ok (some hit)
    | none => sparseScan t a reached (offset + 1) text

/-- The first hit in a text, by edges and links. -/
def sparseFind (t : Trie) (a : Automaton) (text : Bytes) : Checked (Option Hit) :=
  a.sparseScan t .root 0 text

/-! ## Falling back -/

theorem sparseNextWithin_of_edge {t : Trie} {s target : StateId} {b : UInt8} {bound : Nat}
    (h : t.child? s b = some target) : a.sparseNextWithin t b bound s = .ok target := by
  cases bound <;> rw [sparseNextWithin, h]

theorem sparseNextWithin_root (hn : Numbering (livePaths patterns)) (c : Config) (bound : Nat)
    (b : UInt8) :
    (ofLiveStrings c patterns).sparseNextWithin (Trie.ofLiveStrings patterns) b bound .root
      = .ok (.ofPath (livePaths patterns) (liveSuffix patterns [b])) := by
  have hchild := Trie.child?_ofLiveStrings hn (isLive_nil patterns) b
  rw [hn.ofPath_nil, List.nil_append] at hchild
  by_cases hb : isLive patterns [b] = true
  · rw [if_pos (mem_livePaths.mpr hb)] at hchild
    rw [sparseNextWithin_of_edge hchild, liveSuffix_eq_self hb]
  · rw [if_neg (hb ∘ mem_livePaths.mp)] at hchild
    rw [liveSuffix_cons_of_not_isLive hb, liveSuffix_nil, hn.ofPath_nil]
    cases bound <;> simp [sparseNextWithin, hchild]

/-- A fall follows no more links than the path has bytes, and leads to the longest live suffix. -/
theorem sparseNextWithin_ofPath (hn : Numbering (livePaths patterns)) (c : Config) {bound : Nat}
    (hw : isLive patterns w = true) (hbound : w.length ≤ bound) (b : UInt8) :
    (ofLiveStrings c patterns).sparseNextWithin (Trie.ofLiveStrings patterns) b bound
        (.ofPath (livePaths patterns) w)
      = .ok (.ofPath (livePaths patterns) (liveSuffix patterns (w ++ [b]))) := by
  induction bound generalizing w with
  | zero =>
    obtain rfl := List.length_eq_zero_iff.mp (Nat.le_zero.mp hbound)
    rw [hn.ofPath_nil, List.nil_append]
    exact sparseNextWithin_root hn c 0 b
  | succ bound ih =>
    by_cases hne : w = []
    · rw [hne, hn.ofPath_nil, List.nil_append]
      exact sparseNextWithin_root hn c (bound + 1) b
    · have hchild := Trie.child?_ofLiveStrings hn hw b
      by_cases hgrow : isLive patterns (w ++ [b]) = true
      · rw [if_pos (mem_livePaths.mpr hgrow)] at hchild
        rw [sparseNextWithin_of_edge hchild, liveSuffix_eq_self hgrow]
      · -- the link leads to a shorter string, and the answer is the same there
        rw [if_neg (hgrow ∘ mem_livePaths.mp)] at hchild
        have hlt := length_liveSuffix_tail_lt patterns hne
        rw [sparseNextWithin, hchild]
        dsimp only
        rw [if_neg (hn.ofPath_ne_root (mem_livePaths.mpr hw) hne), failure_ofLiveStrings hn c hw,
          ok_bind, ih (isLive_liveSuffix patterns _) (by omega),
          liveSuffix_append_of_not_isLive hne hgrow]

theorem sparseNext_ofPath (hn : Numbering (livePaths patterns)) (c : Config)
    (hw : isLive patterns w = true) (b : UInt8) :
    (ofLiveStrings c patterns).sparseNext (Trie.ofLiveStrings patterns)
        (.ofPath (livePaths patterns) w) b
      = .ok (.ofPath (livePaths patterns) (liveSuffix patterns (w ++ [b]))) := by
  rw [sparseNext, stateCount_ofLiveStrings]
  exact sparseNextWithin_ofPath hn c hw (length_lt_length_livePaths hw).le b

/-! ## Look-ups instead of falls -/

/-- A scan by look-ups that never jumps goes through the same states as one that falls back. -/
theorem scan_eq_sparseScan (hn : Numbering (livePaths patterns)) (c : Config)
    (hw : isLive patterns w = true) (offset : Nat) (text : Bytes) :
    (ofLiveStrings (c.withPrefilter false) patterns).scan Prefilter.next?
        (.ofPath (livePaths patterns) w) offset text
      = (ofLiveStrings c patterns).sparseScan (Trie.ofLiveStrings patterns)
        (.ofPath (livePaths patterns) w) offset text := by
  induction text generalizing w offset with
  | nil => rw [scan_nil, sparseScan]
  | cons b text ih =>
    have hhit : ∀ s stop, (ofLiveStrings (c.withPrefilter false) patterns).hit? s stop
        = (ofLiveStrings c patterns).hit? s stop := fun _ _ ↦ rfl
    rw [scan_cons rfl, read, sparseScan, next_ofLiveStrings hn _ hw, sparseNext_ofPath hn c hw,
      ok_bind, ok_bind, hhit]
    cases (ofLiveStrings c patterns).hit?
        (.ofPath (livePaths patterns) (liveSuffix patterns (w ++ [b]))) (offset + 1) with
    | error cause => rfl
    | ok found =>
      cases found with
      | none => exact ih (isLive_liveSuffix patterns _) (offset + 1)
      | some hit => rfl

theorem find_eq_sparseFind (hn : Numbering (livePaths patterns)) (c : Config) (text : Bytes) :
    (ofLiveStrings c patterns).find text
      = (ofLiveStrings c patterns).sparseFind (Trie.ofLiveStrings patterns) text := by
  rw [find_withPrefilter hn, find, findWith, sparseFind, ← hn.ofPath_nil]
  exact scan_eq_sparseScan hn c (isLive_nil patterns) 0 text

/-! ## Totality -/

theorem isTotal_ofLiveStrings (hn : Numbering (livePaths patterns)) (c : Config) :
    (ofLiveStrings c patterns).isTotal = true := by
  have hindex : ∀ x, (StateId.ofPath (livePaths patterns) (liveSuffix patterns x)).index
      < (livePaths patterns).length := fun x ↦
    hn.index_ofPath_lt (mem_livePaths.mpr (isLive_liveSuffix patterns x))
  rw [isTotal, stateCount_ofLiveStrings, ofLiveStrings]
  simp only [Bool.and_eq_true, beq_iff_eq, Array.all_eq_true, decide_eq_true_eq]
  refine ⟨⟨Array.size_ofFn, fun i hi ↦ ?_⟩, fun i hi ↦ ?_⟩
  · simp only [liveTable, Array.getElem_ofFn]
    exact hindex _
  · simp only [List.getElem_toArray, List.getElem_map, liveState]
    exact hindex _

/-- **The table is total and refines the sparse automaton.** Every look-up gives the state that a
fall along the failure links ends in, so a scan by look-ups finds in every text what a scan finds
that falls back. -/
theorem next_build (hsearch : search.Leftmost) (h : (build c patterns).result = .ok a) :
    a.isTotal = true ∧ ∃ t, Trie.ofPatterns c patterns = .ok t ∧
      (∀ s b, s.index < a.stateCount →
        ∃ r, a.next s b = .ok r ∧ a.sparseNext t s b = .ok r) ∧
      ∀ text, ∃ found, a.findWith search text = .ok found ∧ a.sparseFind t text = .ok found := by
  obtain rfl := hsearch.eq_next?
  have hfind := exists_find_build h
  obtain ⟨ht, hn, rfl⟩ := build_eq_ok_iff.mp h
  refine ⟨isTotal_ofLiveStrings hn c, _, ht, fun s b hs ↦ ?_, fun text ↦ ?_⟩
  · obtain ⟨w, hw, rfl⟩ := exists_ofPath_of_lt hn hs
    exact ⟨_, next_ofLiveStrings hn c hw b, sparseNext_ofPath hn c hw b⟩
  · obtain ⟨found, hfound⟩ := hfind text
    exact ⟨found, hfound, by rw [← find_eq_sparseFind hn, hfound]⟩

/-- Behind `abc` a fall on `f` passes `bc` and ends at the edge of `c`. -/
def falling : List Bytes := [[97, 98, 99, 100], [98, 99, 101], [99, 102]]

theorem next_build_falling :
    ∃ a t, (build .default falling).result = .ok a ∧ Trie.ofPatterns .default falling = .ok t ∧
      a.isTotal = true ∧ a.sparseNext t ⟨3⟩ 102 = .ok ⟨9⟩ ∧ a.next ⟨3⟩ 102 = .ok ⟨9⟩ := by
  have hbuild : (build .default falling).result = .ok (ofLiveStrings .default falling) :=
    build_of_ofPatterns rfl
  obtain ⟨htotal, t, ht, hnext, -⟩ := next_build Prefilter.leftmost_next? hbuild
  obtain ⟨r, hr, hsparse⟩ := hnext ⟨3⟩ 102 (by decide)
  obtain rfl := Except.ok.inj ((build_eq_ok_iff.mp hbuild).1.symm.trans ht)
  have hfall : (ofLiveStrings .default falling).sparseNext (Trie.ofLiveStrings falling) ⟨3⟩ 102
      = .ok ⟨9⟩ := by decide +kernel
  obtain rfl := Except.ok.inj (hsparse.symm.trans hfall)
  exact ⟨_, _, hbuild, ht, htotal, hfall, hr⟩

end Automaton

end FirstHit
