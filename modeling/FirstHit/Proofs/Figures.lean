import FirstHit.Proofs.Walks
import Mathlib.Data.Finset.Card
import Mathlib.Order.Bounds.Basic

/-!
# Figures in closed form

The figures that sum an automaton up are counted over its states, in the order of their numbers.
None of them depends on the numbers. The states are as many as the live strings, a state accepts
something if its string is a pattern or, with inheritance, ends in one (`accepts`), and the deepest
state is that of a longest pattern (`Automaton.acceptingStateCount_ofLiveStrings`,
`Automaton.maxDepth_ofLiveStrings`).

The enumeration of the live strings holds nothing twice, so what is counted along it is the size of
a set: of the prefixes of patterns, or of those that accept (`card_filter_prefixes`). This gives the
figures as a reader of the patterns would count them (`Automaton.stats_build`).
-/

namespace FirstHit

variable {c : Config} {patterns words : List Bytes} {w : Bytes} {n : Nat}

/-! ## Accepting states -/

/-- Whether a state with the path `w` accepts any pattern. -/
def accepts (inherit : Bool) (patterns : List Bytes) (w : Bytes) : Bool :=
  if inherit then patterns.any (·.isSuffixOf w) else patterns.contains w

@[simp] theorem accepts_false : accepts false patterns w = true ↔ w ∈ patterns := by
  simp [accepts]

@[simp] theorem accepts_true : accepts true patterns w = true ↔ ∃ p ∈ patterns, p <:+ w := by
  simp [accepts]

theorem accepts_iff_exists_mem {inherit : Bool} :
    accepts inherit patterns w = true ↔ ∃ id, id ∈ acceptedIds inherit patterns w := by
  cases inherit with
  | false =>
    rw [accepts_false, List.mem_iff_getElem?]
    simp only [acceptedIds_false, mem_idxsOf]
  | true =>
    simp only [accepts_true, mem_acceptedIds_true]
    constructor
    · rintro ⟨p, hp, hsuffix⟩
      obtain ⟨id, hid⟩ := List.mem_iff_getElem?.mp hp
      exact ⟨id, p, hid, hsuffix⟩
    · rintro ⟨id, p, hid, hsuffix⟩
      exact ⟨p, List.mem_of_getElem? hid, hsuffix⟩

theorem isAccepting_liveState (inherit : Bool) (patterns : List Bytes) (w : Bytes) :
    (liveState inherit patterns w).isAccepting = accepts inherit patterns w := by
  rw [Bool.eq_iff_iff, accepts_iff_exists_mem, State.isAccepting, liveState, Bool.not_eq_true',
    List.isEmpty_eq_false_iff_exists_mem]

/-! ## The deepest state -/

/-- The length of the longest of some strings. It is zero if there are none. -/
def maxLength (words : List Bytes) : Nat :=
  words.foldl (fun longest w ↦ max longest w.length) 0

theorem foldl_max_le_iff {m : Nat} :
    words.foldl (fun longest w ↦ max longest w.length) m ≤ n
      ↔ m ≤ n ∧ ∀ w ∈ words, w.length ≤ n := by
  induction words generalizing m with
  | nil => simp
  | cons v words ih => rw [List.foldl_cons, ih, Nat.max_le, List.forall_mem_cons, and_assoc]

theorem maxLength_le_iff : maxLength words ≤ n ↔ ∀ w ∈ words, w.length ≤ n := by
  rw [maxLength, foldl_max_le_iff, and_iff_right (Nat.zero_le n)]

theorem maxLength_livePaths (patterns : List Bytes) :
    maxLength (livePaths patterns) = maxLength patterns := by
  apply eq_of_forall_ge_iff
  intro n
  simp only [maxLength_le_iff, mem_livePaths]
  constructor
  · exact fun h p hp ↦ h p (isLive_of_mem hp)
  · intro h w hw
    rcases isLive_iff.mp hw with rfl | ⟨p, hp, hwp⟩
    · exact Nat.zero_le n
    · exact hwp.length_le.trans (h p hp)

theorem isGreatest_maxLength (h : words ≠ []) :
    IsGreatest {n | ∃ w ∈ words, w.length = n} (maxLength words) := by
  have hle : ∀ w ∈ words, w.length ≤ maxLength words := maxLength_le_iff.mp (Nat.le_refl _)
  refine ⟨?_, ?_⟩
  · by_contra hnone
    -- otherwise all strings are shorter than the longest, and that is not empty
    have hlt : ∀ w ∈ words, w.length < maxLength words := fun w hw ↦
      (hle w hw).lt_of_ne fun heq ↦ hnone ⟨w, hw, heq⟩
    have hpred : maxLength words ≤ maxLength words - 1 :=
      maxLength_le_iff.mpr fun w hw ↦ Nat.le_pred_of_lt (hlt w hw)
    obtain ⟨w, hw⟩ := List.exists_mem_of_ne_nil words h
    have hpos := hlt w hw
    omega
  · rintro n ⟨w, hw, rfl⟩
    exact hle w hw

/-! ## Sets of prefixes -/

/-- The prefixes of the patterns, and the empty string in any case. -/
def prefixes (patterns : List Bytes) : Finset Bytes :=
  ([] :: patterns.flatMap List.inits).toFinset

theorem mem_prefixes : w ∈ prefixes patterns ↔ isLive patterns w = true := by
  rw [prefixes, List.mem_toFinset, List.mem_cons, List.mem_flatMap, isLive_iff]
  simp only [List.mem_inits]

/-- What is counted along the enumeration of the live strings is the size of a set. -/
theorem card_filter_prefixes (patterns : List Bytes) (P : Bytes → Prop) [DecidablePred P] :
    ((prefixes patterns).filter P).card = (livePaths patterns).countP fun w ↦ P w := by
  rw [List.countP_eq_length_filter,
    ← List.toFinset_card_of_nodup ((nodup_livePaths patterns).filter _)]
  congr 1
  ext w
  simp [mem_prefixes, mem_livePaths]

theorem card_prefixes (patterns : List Bytes) :
    (prefixes patterns).card = (livePaths patterns).length := by
  rw [length_livePaths]
  exact List.card_toFinset _

theorem filter_mem_prefixes (patterns : List Bytes) :
    (prefixes patterns).filter (· ∈ patterns) = patterns.toFinset := by
  ext w
  rw [Finset.mem_filter, List.mem_toFinset, mem_prefixes]
  exact and_iff_right_of_imp isLive_of_mem

/-! ## The figures of a built automaton -/

namespace Automaton

theorem acceptingStateCount_ofLiveStrings (c : Config) (patterns : List Bytes) :
    (ofLiveStrings c patterns).stats.acceptingStateCount
      = (livePaths patterns).countP (accepts c.inheritSuffixMatches patterns) := by
  simp only [stats, ofLiveStrings, List.countP_map, Function.comp_def, isAccepting_liveState]

theorem maxDepth_ofLiveStrings (hn : Numbering (livePaths patterns)) (c : Config) :
    (ofLiveStrings c patterns).stats.maxDepth = maxLength patterns := by
  rw [← maxLength_livePaths, maxLength, stats, ofLiveStrings, List.foldl_map]
  apply List.foldl_ext
  intro deepest w hw
  rw [toNat_depth_liveState hn c.inheritSuffixMatches (mem_livePaths.mp hw)]

/-- **The figures are counts over the patterns.** There are as many patterns as were given and as
many states as different prefixes, the empty one included. The greatest depth is the length of a
longest pattern. Without inheritance there are as many accepting states as different patterns, and
with inheritance as many as different prefixes that end in a pattern. -/
theorem stats_build {a : Automaton} (h : (build c patterns).result = .ok a) :
    a.stats.patternCount = patterns.length ∧
      a.stats.stateCount = (prefixes patterns).card ∧
      (patterns = [] → a.stats.maxDepth = 0) ∧
      (patterns ≠ [] → IsGreatest {n | ∃ p ∈ patterns, p.length = n} a.stats.maxDepth) ∧
      (c.inheritSuffixMatches = false →
        a.stats.acceptingStateCount = patterns.toFinset.card) ∧
      (c.inheritSuffixMatches = true →
        a.stats.acceptingStateCount
          = ((prefixes patterns).filter fun w ↦ ∃ p ∈ patterns, p <:+ w).card) := by
  obtain ⟨-, hn, rfl⟩ := build_eq_ok_iff.mp h
  rw [maxDepth_ofLiveStrings hn, acceptingStateCount_ofLiveStrings]
  refine ⟨?_, ?_, ?_, isGreatest_maxLength, fun hc ↦ ?_, fun hc ↦ ?_⟩
  · rw [stats, patternCount, ofLiveStrings, List.size_toArray]
  · rw [stats, stateCount_ofLiveStrings, card_prefixes]
  · rintro rfl
    rfl
  · rw [hc, ← filter_mem_prefixes, card_filter_prefixes]
    exact List.countP_congr fun w _ ↦ by rw [accepts_false, decide_eq_true_iff]
  · rw [hc, card_filter_prefixes]
    exact List.countP_congr fun w _ ↦ by rw [accepts_true, decide_eq_true_iff]

/-- A pattern twice, shared prefixes, and a prefix that ends in a pattern without being one. -/
def shared : List Bytes := [[97, 98], [98], [97, 98], [97, 99, 98, 97]]

theorem stats_build_shared :
    ∃ off on, (build .default shared).result = .ok off ∧
      (build (Config.default.withInheritSuffixMatches true) shared).result = .ok on ∧
      off.stats.patternCount = 4 ∧ off.stats.stateCount = 7 ∧ on.stats.stateCount = 7 ∧
      IsGreatest {n | ∃ p ∈ shared, p.length = n} on.stats.maxDepth ∧
      off.stats.acceptingStateCount = 3 ∧ on.stats.acceptingStateCount = 4 := by
  have hoff : (build .default shared).result = .ok (ofLiveStrings _ _) := build_of_ofPatterns rfl
  have hon : (build (Config.default.withInheritSuffixMatches true) shared).result
      = .ok (ofLiveStrings _ _) := build_of_ofPatterns rfl
  obtain ⟨hpatterns, hstates, -, -, haccepting, -⟩ := stats_build hoff
  obtain ⟨-, hstates', -, hdepth, -, haccepting'⟩ := stats_build hon
  exact ⟨_, _, hoff, hon, hpatterns, hstates, hstates', hdepth (by decide), haccepting rfl,
    haccepting' rfl⟩

end Automaton

end FirstHit
