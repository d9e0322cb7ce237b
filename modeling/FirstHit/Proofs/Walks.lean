import FirstHit.Proofs.Compilation
import FirstHit.Proofs.Paths

/-!
# Walks and failure chains

A walk over a text ends at the longest live suffix of the text. One step is an entry of the table,
which is the longest live suffix of a string that grows by a byte, and a run of steps adds up
because such a suffix is all that the next one depends on.

Failure links are walked too, from a state down to the root. They pass the live suffixes of the path
of the state, from the longest to the shortest, and no string can be skipped, since each link leads
to the longest one that is left.
-/

namespace FirstHit

namespace Automaton

variable {c : Config} {patterns : List Bytes} {a : Automaton} {v w : Bytes} {s : StateId}

/-! ## Walks -/

theorem toNat_depth_liveState (hn : Numbering (livePaths patterns)) (inherit : Bool)
    (hw : isLive patterns w = true) : (liveState inherit patterns w).depth.toNat = w.length :=
  toNat_depth_linkedNode inherit hn hw

/-- A walk keeps the longest live suffix of what was read. -/
theorem walk_ofPath (hn : Numbering (livePaths patterns)) (c : Config)
    (hw : isLive patterns w = true) (x : Bytes) :
    (ofLiveStrings c patterns).walk (.ofPath (livePaths patterns) w) x
      = .ok (.ofPath (livePaths patterns) (liveSuffix patterns (w ++ x))) := by
  induction x generalizing w with
  | nil =>
    rw [List.append_nil, liveSuffix_eq_self hw]
    rfl
  | cons b x ih =>
    have hstep := isLive_liveSuffix patterns (w ++ [b])
    rw [walk, List.foldlM_cons, next_ofLiveStrings hn c hw b, ok_bind, ← walk, ih hstep,
      ← liveSuffix_append, ← List.append_cons]

/-- **Walks sit on the longest live suffix.** Whatever a walk has read, it is in the one state whose
path is the longest live suffix of it. -/
theorem walk_build (h : (build c patterns).result = .ok a) (x : Bytes) :
    ∃ t s state, Trie.ofPatterns c patterns = .ok t ∧ a.walk .root x = .ok s ∧
      t.Spells (liveSuffix patterns x) s ∧ a.state s = .ok state ∧
      state.depth.toNat = (liveSuffix patterns x).length := by
  obtain ⟨ht, hn, rfl⟩ := build_eq_ok_iff.mp h
  have hlive := isLive_liveSuffix patterns x
  have hwalk := walk_ofPath hn c (isLive_nil patterns) x
  rw [hn.ofPath_nil, List.nil_append] at hwalk
  exact ⟨_, _, _, ht, hwalk, Trie.spells_ofPath hn hlive, state_ofLiveStrings hn c hlive,
    toNat_depth_liveState hn _ hlive⟩

theorem walk_build_shared_suffix :
    ∃ a, (build .default [[97, 98, 99], [98, 99, 97], [99]]).result = .ok a ∧
      ∃ t s state, Trie.ofPatterns .default [[97, 98, 99], [98, 99, 97], [99]] = .ok t ∧
        a.walk .root [97, 98, 99, 97, 98] = .ok s ∧ t.Spells [97, 98] s ∧
        a.state s = .ok state ∧ state.depth.toNat = 2 :=
  ⟨_, build_of_ofPatterns rfl, walk_build (build_of_ofPatterns rfl) [97, 98, 99, 97, 98]⟩

/-! ## Failure chains -/

/-- A chain of failure links passes all live suffixes, the longest first. -/
theorem chainWithin_ofPath (hn : Numbering (livePaths patterns)) (c : Config) {bound : Nat}
    (hw : isLive patterns w = true) (hbound : w.length ≤ bound) :
    (ofLiveStrings c patterns).chainWithin bound (.ofPath (livePaths patterns) w)
      = .ok ((w.tails.filter (isLive patterns)).map (.ofPath (livePaths patterns))) := by
  induction bound generalizing w with
  | zero =>
    obtain rfl := List.length_eq_zero_iff.mp (Nat.le_zero.mp hbound)
    rw [chainWithin, hn.ofPath_nil, if_pos rfl, ← hn.ofPath_nil]
    rfl
  | succ bound ih =>
    by_cases hne : w = []
    · subst hne
      rw [chainWithin, hn.ofPath_nil, if_pos rfl, ← hn.ofPath_nil]
      rfl
    · -- one link leaves out `w` and keeps all shorter live suffixes
      have hlt := length_liveSuffix_tail_lt patterns hne
      rw [chainWithin, if_neg (hn.ofPath_ne_root (mem_livePaths.mpr hw) hne),
        failure_ofLiveStrings hn c hw, ok_bind, ih (isLive_liveSuffix patterns _) (by omega),
        ok_bind, filter_tails_of_isLive hne hw, List.map_cons]

/-- The state `s` has the greater depth. -/
def Deeper (a : Automaton) (s r : StateId) : Prop :=
  ∃ deep shallow, a.state s = .ok deep ∧ a.state r = .ok shallow ∧ shallow.depth < deep.depth

theorem deeper_ofPath (hn : Numbering (livePaths patterns)) (c : Config)
    (hw : isLive patterns w = true) (hv : isLive patterns v = true) (hlt : v.length < w.length) :
    (ofLiveStrings c patterns).Deeper (.ofPath (livePaths patterns) w)
      (.ofPath (livePaths patterns) v) := by
  refine ⟨_, _, state_ofLiveStrings hn c hw, state_ofLiveStrings hn c hv, ?_⟩
  rw [UInt32.lt_iff_toNat_lt, toNat_depth_liveState hn _ hv, toNat_depth_liveState hn _ hw]
  exact hlt

/-- **Failure links are longest proper suffixes.** A link leads to the longest live suffix that is
shorter than the path, so it leads down, and a chain of links passes the states of all live suffixes
of the path, in no more steps than the path has bytes. -/
theorem failure_build (h : (build c patterns).result = .ok a) :
    ∃ t, Trie.ofPatterns c patterns = .ok t ∧ a.failure .root = .ok .root ∧
      ∀ s, s.index < a.stateCount → ∃ w state, t.Spells w s ∧
        a.state s = .ok state ∧ state.depth.toNat = w.length ∧
        (s ≠ .root → ∃ r, a.failure s = .ok r ∧ t.Spells (liveSuffix patterns w.tail) r ∧
          a.Deeper s r) ∧
        ∃ chain, a.chainWithin state.depth.toNat s = .ok chain ∧ a.failureChain s = .ok chain ∧
          chain.map some = (w.tails.filter (isLive patterns)).map t.descend? ∧
          chain.Pairwise a.Deeper := by
  obtain ⟨ht, hn, rfl⟩ := build_eq_ok_iff.mp h
  have hroot := failure_ofLiveStrings hn c (isLive_nil patterns)
  rw [List.tail_nil, liveSuffix_nil, hn.ofPath_nil] at hroot
  refine ⟨_, ht, hroot, fun s hs ↦ ?_⟩
  rw [stateCount_ofLiveStrings] at hs
  obtain ⟨w, hmem, rfl⟩ := hn.exists_ofPath hs
  have hw := mem_livePaths.mp hmem
  have hdepth := toNat_depth_liveState hn c.inheritSuffixMatches hw
  refine ⟨w, _, Trie.spells_ofPath hn hw, state_ofLiveStrings hn c hw, hdepth, fun hne ↦ ?_, ?_⟩
  · have hlive := isLive_liveSuffix patterns w.tail
    have hwne : w ≠ [] := fun hnil ↦ hne (hnil ▸ hn.ofPath_nil)
    exact ⟨_, failure_ofLiveStrings hn c hw, Trie.spells_ofPath hn hlive,
      deeper_ofPath hn c hw hlive (length_liveSuffix_tail_lt patterns hwne)⟩
  · refine ⟨_, chainWithin_ofPath hn c hw hdepth.ge, ?_, ?_, ?_⟩
    · rw [failureChain, stateCount_ofLiveStrings]
      exact chainWithin_ofPath hn c hw (length_lt_length_livePaths hw).le
    · rw [List.map_map]
      refine List.map_congr_left fun v hv ↦ ?_
      exact (Trie.descend?_of_isLive hn (List.mem_filter.mp hv).2).symm
    · rw [List.pairwise_map]
      refine ((pairwise_length_tails w).filter _).imp_of_mem fun hu hv hlt ↦ ?_
      exact deeper_ofPath hn c (List.mem_filter.mp hu).2 (List.mem_filter.mp hv).2 hlt

theorem failure_build_shared_suffix :
    ∃ a, (build .default [[97, 98, 99], [98, 99, 97], [99]]).result = .ok a ∧
      ∃ r, a.failure ⟨3⟩ = .ok r ∧ a.Deeper ⟨3⟩ r := by
  have hbuild : (build .default [[97, 98, 99], [98, 99, 97], [99]]).result
      = .ok (ofLiveStrings .default _) := build_of_ofPatterns rfl
  refine ⟨_, hbuild, ?_⟩
  obtain ⟨t, -, -, hlinks⟩ := failure_build hbuild
  obtain ⟨w, state, -, -, -, hlink, -⟩ := hlinks ⟨3⟩ (by decide)
  obtain ⟨r, hr, -, hdeeper⟩ := hlink (by decide)
  exact ⟨r, hr, hdeeper⟩

end Automaton

end FirstHit
