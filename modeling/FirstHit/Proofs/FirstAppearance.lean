import FirstHit.Proofs.Walks

/-!
# States by first appearance

Insertion makes a state where it meets a prefix that no earlier pattern has, and gives it the next
number. So the number of a state can be told without an arena: write down the prefixes of the first
pattern from the shortest to the longest, then those of the second, and so on, behind the empty
string, and drop repetitions. The string at the position `i` is the path of the state `i`, which is
where a walk along it ends (`Automaton.states_build`).

In this list a string never stands before the string that is shorter by one byte (`ParentsFirst`).
Each step of a descent keeps this, because it only ever appends a string behind the one that it has
reached. A state therefore has a greater number than its parent, and since paths are distinct there
is only one parent.
-/

namespace FirstHit

variable {c : Config} {paths patterns : List Bytes} {w : Bytes} {b : UInt8} {s r : StateId}
  {i : Nat}

/-! ## Parents come first -/

/-- Every string of the list has the string that is shorter by one byte in front of it. -/
def ParentsFirst (paths : List Bytes) : Prop :=
  ∀ w b, w ++ [b] ∈ paths → paths.idxOf w < paths.idxOf (w ++ [b])

namespace ParentsFirst

theorem singleton_nil : ParentsFirst [[]] := by
  intro w b h
  simp at h

theorem mem_parent (hp : ParentsFirst paths) (h : w ++ [b] ∈ paths) : w ∈ paths := by
  apply List.idxOf_lt_length_iff.mp
  exact (hp w b h).trans (List.idxOf_lt_length_iff.mpr h)

theorem appendNew (hp : ParentsFirst paths) (hw : w ∈ paths) (b : UInt8) :
    ParentsFirst (appendNew paths (w ++ [b])) := by
  by_cases hv : w ++ [b] ∈ paths
  · rwa [appendNew_of_mem hv]
  · rw [appendNew_of_notMem hv]
    intro x d hx
    rw [List.mem_append, List.mem_singleton] at hx
    rcases hx with hx | hx
    · rw [List.idxOf_append_of_mem (hp.mem_parent hx), List.idxOf_append_of_mem hx]
      exact hp x d hx
    · -- the new string comes last, and its parent is one of the old ones
      obtain rfl : x = w := List.append_inj_left' hx rfl
      rw [hx, List.idxOf_append_of_mem hw, List.idxOf_append_of_notMem hv]
      exact Nat.lt_add_right _ (List.idxOf_lt_length_iff.mpr hw)

theorem continued (hp : ParentsFirst paths) (hw : w ∈ paths) (bytes : Bytes) :
    ParentsFirst (Trie.continued paths w bytes) := by
  induction bytes generalizing paths w with
  | nil => exact hp
  | cons b bytes ih =>
    rw [Trie.continued]
    exact ih (hp.appendNew hw b) (mem_appendNew.mpr (Or.inr rfl))

end ParentsFirst

theorem parentsFirst_livePaths (patterns : List Bytes) : ParentsFirst (livePaths patterns) := by
  induction patterns using List.reverseRecOn with
  | nil => exact ParentsFirst.singleton_nil
  | append_singleton patterns p ih =>
    have hnil : [] ∈ livePaths patterns := mem_livePaths.mpr (isLive_nil patterns)
    have hdescent := ih.continued hnil p
    rw [Trie.continued_eq_foldl hnil] at hdescent
    simpa [livePaths_append_singleton] using hdescent

/-! ## Parents in the trie -/

theorem Numbering.index_ofPath_of_getElem? (hn : Numbering paths) (h : paths[i]? = some w) :
    (StateId.ofPath paths w).index = i := by
  obtain ⟨hi, rfl⟩ := List.getElem?_eq_some_iff.mp h
  rw [hn.index_ofPath (List.getElem_mem hi), hn.nodup.idxOf_getElem]

namespace Trie

theorem child?_eq_some_iff (hn : Numbering (livePaths patterns)) :
    (ofLiveStrings patterns).child? s b = some r ↔
      ∃ w, isLive patterns (w ++ [b]) = true ∧ s = .ofPath (livePaths patterns) w ∧
        r = .ofPath (livePaths patterns) (w ++ [b]) := by
  constructor
  · intro h
    obtain ⟨n, hnode, -⟩ := Option.bind_eq_some_iff.mp h
    obtain ⟨w, hw, rfl, -⟩ := exists_of_getElem?_ofPaths hn hnode
    rw [child?_ofLiveStrings hn (mem_livePaths.mp hw)] at h
    by_cases hgrow : w ++ [b] ∈ livePaths patterns
    · rw [if_pos hgrow] at h
      exact ⟨w, mem_livePaths.mp hgrow, rfl, (Option.some_inj.mp h).symm⟩
    · rw [if_neg hgrow] at h
      cases h
  · rintro ⟨w, hgrow, rfl, rfl⟩
    rw [child?_ofLiveStrings hn (isLive_of_append hgrow), if_pos (mem_livePaths.mpr hgrow)]

theorem index_lt_of_child? (hn : Numbering (livePaths patterns))
    (h : (ofLiveStrings patterns).child? s b = some r) : s.index < r.index := by
  obtain ⟨w, hgrow, rfl, rfl⟩ := (child?_eq_some_iff hn).mp h
  have hmem := mem_livePaths.mpr hgrow
  rw [hn.index_ofPath hmem, hn.index_ofPath (hn.parent hmem)]
  exact parentsFirst_livePaths patterns w b hmem

theorem existsUnique_parent (hn : Numbering (livePaths patterns)) (hr : r ≠ .root)
    (hlt : r.index < (livePaths patterns).length) :
    ∃! e : StateId × UInt8, (ofLiveStrings patterns).child? e.1 e.2 = some r := by
  obtain ⟨w, hw, rfl⟩ := hn.exists_ofPath hlt
  obtain rfl | ⟨v, b, rfl⟩ := List.eq_nil_or_concat' w
  · exact absurd hn.ofPath_nil hr
  · refine ⟨(.ofPath (livePaths patterns) v, b), ?_, ?_⟩
    · exact (child?_eq_some_iff hn).mpr ⟨v, mem_livePaths.mp hw, rfl, rfl⟩
    · rintro ⟨s, d⟩ h
      obtain ⟨u, hu, rfl, heq⟩ := (child?_eq_some_iff hn).mp h
      have hpath := (hn.ofPath_inj hw (mem_livePaths.mpr hu)).mp heq
      obtain ⟨rfl, hlast⟩ := List.append_inj' hpath rfl
      obtain rfl : b = d := List.singleton_inj.mp hlast
      rfl

end Trie

/-! ## The states of a built automaton -/

namespace Automaton

variable {a : Automaton}

/-- **States are the distinct prefixes of the patterns, numbered by first appearance.** The string
at the position `i` of the list of prefixes without repetitions is the path of the state `i`; its
length is the depth of the state, and a walk along it from the root ends there. There are no other
states, and every state but the root has one parent, whose number is smaller. -/
theorem states_build (h : (build c patterns).result = .ok a) :
    ∃ t, Trie.ofPatterns c patterns = .ok t ∧
      a.stateCount = (livePaths patterns).length ∧ (livePaths patterns).Nodup ∧
      (∀ i w, (livePaths patterns)[i]? = some w → ∃ s state, s.index = i ∧ t.Spells w s ∧
        a.state s = .ok state ∧ state.depth.toNat = w.length ∧ a.walk .root w = .ok s) ∧
      ∀ r, r ≠ .root → r.index < a.stateCount →
        (∃! e : StateId × UInt8, t.child? e.1 e.2 = some r) ∧
        ∀ s b, t.child? s b = some r → s.index < r.index := by
  obtain ⟨ht, hn, rfl⟩ := build_eq_ok_iff.mp h
  refine ⟨_, ht, stateCount_ofLiveStrings c patterns, nodup_livePaths patterns,
    fun i w hiw ↦ ?_, fun r hr hlt ↦ ⟨?_, fun s b ↦ Trie.index_lt_of_child? hn⟩⟩
  · have hw := mem_livePaths.mp (List.mem_of_getElem? hiw)
    have hwalk := walk_ofPath hn c (isLive_nil patterns) w
    rw [hn.ofPath_nil, List.nil_append, liveSuffix_eq_self hw] at hwalk
    exact ⟨_, _, hn.index_ofPath_of_getElem? hiw, Trie.spells_ofPath hn hw,
      state_ofLiveStrings hn c hw, toNat_depth_liveState hn _ hw, hwalk⟩
  · rw [stateCount_ofLiveStrings] at hlt
    exact Trie.existsUnique_parent hn hr hlt

example : livePaths [[97, 98], [97, 99, 98], [98], [97, 98]]
    = [[], [97], [97, 98], [97, 99], [97, 99, 98], [98]] := by decide

/-- Patterns with common prefixes, one of them twice, and the empty pattern. -/
def branching : List Bytes := [[97, 98], [97, 99, 98], [98], [97, 98], []]

theorem states_build_branching :
    ∃ a, (build .default branching).result = .ok a ∧ a.stateCount = 6 ∧
      ∃ s state, s.index = 4 ∧ a.state s = .ok state ∧ state.depth.toNat = 3 ∧
        a.walk .root [97, 99, 98] = .ok s := by
  have hbuild : (build .default branching).result = .ok (ofLiveStrings .default branching) :=
    build_of_ofPatterns rfl
  obtain ⟨t, -, hcount, -, hstates, -⟩ := states_build hbuild
  obtain ⟨s, state, hs, -, hstate, hdepth, hwalk⟩ := hstates 4 [97, 99, 98] (by decide)
  exact ⟨_, hbuild, hcount, s, state, hs, hstate, hdepth, hwalk⟩

end Automaton

end FirstHit
