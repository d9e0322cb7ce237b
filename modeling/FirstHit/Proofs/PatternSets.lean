import FirstHit.Proofs.Figures
import FirstHit.Proofs.Masking
import Mathlib.Order.Bounds.Basic

/-!
# Patterns as a set

Patterns come as a list, and a pattern that is listed twice has two ids. The list decides the ids
and the numbers of the states. All else depends on the set of the patterns only: which strings are
live, which of them are accepted, and so where a scan finds a hit and how long the hit is.

Two lists with the same members make automata whose states stand for the same strings under
different numbers, so their scans pass the same strings. Where one reports a hit, the other reports
the same bytes at the same place, and each gives them the least id that its own list has for them
(`Hit.Alike`). Figures that are counted over the states agree because the enumerations of the live
strings are permutations of each other (`perm_livePaths`).
-/

namespace FirstHit

variable {search : Search} {c₁ c₂ : Config} {patterns others : List Bytes} {w : Bytes}

/-! ## Hits that differ in their ids -/

/-- Two hits, each for a list of patterns of its own, span the same bytes, and each of them has the
least id that its list has for these bytes. -/
structure Hit.Alike (patterns others : List Bytes) (h₁ h₂ : Hit) : Prop where
  /-- They start at one offset. -/
  start_eq : h₁.start = h₂.start
  /-- They stop at one offset. -/
  stop_eq : h₁.stop = h₂.stop
  /-- They are hits of one string, and each is the first in its list. -/
  isLeast : ∃ p, IsLeast {id | patterns[id]? = some p} h₁.pattern ∧
    IsLeast {id | others[id]? = some p} h₂.pattern

/-- Searches that agree everywhere agree in what they find first. -/
theorem rel_findSome? {α β γ : Type} {R : β → γ → Prop} {l : List α} {f : α → Option β}
    {g : α → Option γ} (h : ∀ a, Option.Rel R (f a) (g a)) :
    Option.Rel R (l.findSome? f) (l.findSome? g) := by
  induction l with
  | nil => exact .none
  | cons a l ih =>
    rw [List.findSome?_cons, List.findSome?_cons]
    have hfirst := h a
    generalize f a = b?, g a = c? at hfirst ⊢
    rcases hfirst with hbc | _
    · exact .some hbc
    · exact ih

theorem hitOfSuffix?_eq_none (hw : w ∉ patterns) (stop : Nat) :
    hitOfSuffix? patterns stop w = none :=
  Option.eq_none_iff_forall_ne_some.mpr fun _ hhit ↦ hw (mem_of_hitOfSuffix? hhit)

/-! ## What depends on the set only -/

section SameSet

variable (hset : ∀ p, p ∈ patterns ↔ p ∈ others)

include hset

theorem isLive_congr (w : Bytes) : isLive patterns w = isLive others w := by
  rw [Bool.eq_iff_iff, isLive_iff, isLive_iff]
  simp only [hset]

theorem liveSuffix_congr (x : Bytes) : liveSuffix patterns x = liveSuffix others x := by
  induction x with
  | nil => rfl
  | cons b x ih => rw [liveSuffix, liveSuffix, isLive_congr hset, ih]

theorem perm_livePaths : (livePaths patterns).Perm (livePaths others) := by
  rw [List.perm_ext_iff_of_nodup (nodup_livePaths patterns) (nodup_livePaths others)]
  intro w
  rw [mem_livePaths, mem_livePaths, isLive_congr hset]

theorem accepts_congr (inherit : Bool) (w : Bytes) :
    accepts inherit patterns w = accepts inherit others w := by
  rw [Bool.eq_iff_iff]
  cases inherit <;> simp [hset]

theorem maxLength_congr : maxLength patterns = maxLength others := by
  apply eq_of_forall_ge_iff
  intro n
  simp only [maxLength_le_iff, hset]

theorem firstBytes?_congr : firstBytes? patterns = firstBytes? others := by
  have hnil : patterns.contains [] = others.contains [] := by
    rw [Bool.eq_iff_iff, List.contains_iff_mem, List.contains_iff_mem, hset]
  simp only [firstBytes?, hnil, isLive_congr hset]

theorem alike_hitOfSuffix? (stop : Nat) (w : Bytes) :
    Option.Rel (Hit.Alike patterns others) (hitOfSuffix? patterns stop w)
      (hitOfSuffix? others stop w) := by
  by_cases hw : w ∈ patterns
  · obtain ⟨h₁, hhit₁⟩ := exists_hitOfSuffix? hw stop
    obtain ⟨h₂, hhit₂⟩ := exists_hitOfSuffix? ((hset w).mp hw) stop
    obtain ⟨hid₁, hstart₁, hstop₁⟩ := hitOfSuffix?_eq_some hhit₁
    obtain ⟨hid₂, hstart₂, hstop₂⟩ := hitOfSuffix?_eq_some hhit₂
    rw [hhit₁, hhit₂]
    exact .some ⟨hstart₁.trans hstart₂.symm, hstop₁.trans hstop₂.symm, w,
      leastId?_eq_some hid₁, leastId?_eq_some hid₂⟩
  · rw [hitOfSuffix?_eq_none hw, hitOfSuffix?_eq_none (hw ∘ (hset w).mpr)]
    exact .none

theorem alike_acceptedHit? (inherit : Bool) (stop : Nat) (w : Bytes) :
    Option.Rel (Hit.Alike patterns others) (acceptedHit? inherit patterns stop w)
      (acceptedHit? inherit others stop w) := by
  cases inherit with
  | false =>
    rw [acceptedHit?_false, acceptedHit?_false]
    exact alike_hitOfSuffix? hset stop w
  | true =>
    rw [acceptedHit?_true, acceptedHit?_true]
    exact rel_findSome? (alike_hitOfSuffix? hset stop)

end SameSet

namespace Automaton

variable {a₁ a₂ : Automaton}

/-- **The order of the patterns and their repetitions decide the ids and nothing else.** Two lists
of patterns with the same members, built with the same switches, make automata that find the same
bytes at the same place in every text, each with the least id that its own list has for them. They
have as many states, as many of them accept, their greatest depths are equal, and both have a
prefilter or none has. -/
theorem findWith_build_alike (hsearch : search.Leftmost)
    (hset : ∀ p, p ∈ patterns ↔ p ∈ others)
    (hinherit : c₁.inheritSuffixMatches = c₂.inheritSuffixMatches)
    (hprefilter : c₁.prefilter = c₂.prefilter)
    (h₁ : (build c₁ patterns).result = .ok a₁) (h₂ : (build c₂ others).result = .ok a₂) :
    (∀ text, ∃ found₁ found₂, a₁.findWith search text = .ok found₁ ∧
        a₂.findWith search text = .ok found₂ ∧
        Option.Rel (Hit.Alike patterns others) found₁ found₂) ∧
      a₁.stats.stateCount = a₂.stats.stateCount ∧
      a₁.stats.acceptingStateCount = a₂.stats.acceptingStateCount ∧
      a₁.stats.maxDepth = a₂.stats.maxDepth ∧ a₁.hasPrefilter = a₂.hasPrefilter := by
  obtain rfl := hsearch.eq_next?
  obtain ⟨-, hn₁, rfl⟩ := build_eq_ok_iff.mp h₁
  obtain ⟨-, hn₂, rfl⟩ := build_eq_ok_iff.mp h₂
  have hperm := perm_livePaths hset
  refine ⟨fun text ↦ ?_, ?_, ?_, ?_, ?_⟩
  · refine ⟨_, _, find_ofLiveStrings hn₁ c₁ text, find_ofLiveStrings hn₂ c₂ text, ?_⟩
    -- the scans pass the same strings
    apply rel_findSome?
    intro stop
    rw [hinherit, liveSuffix_congr hset]
    exact alike_acceptedHit? hset _ stop _
  · rw [stats, stats, stateCount_ofLiveStrings, stateCount_ofLiveStrings, hperm.length_eq]
  · rw [acceptingStateCount_ofLiveStrings, acceptingStateCount_ofLiveStrings, hperm.countP_eq,
      hinherit]
    exact List.countP_congr fun w _ ↦ by rw [accepts_congr hset]
  · rw [maxDepth_ofLiveStrings hn₁, maxDepth_ofLiveStrings hn₂, maxLength_congr hset]
  · rw [hasPrefilter, hasPrefilter, ofLiveStrings, ofLiveStrings, hprefilter,
      firstBytes?_congr hset]

/-- Four patterns, two of them equal. -/
def listed : List Bytes := [[97, 98], [98, 99], [97, 98], [99]]

/-- The same patterns in another order, none of them twice. -/
def relisted : List Bytes := [[99], [97, 98], [98, 99]]

theorem findWith_build_alike_relisted :
    ∃ a₁ a₂ found,
      (build (Config.default.withInheritSuffixMatches true) listed).result = .ok a₁ ∧
      (build (Config.default.withInheritSuffixMatches true) relisted).result = .ok a₂ ∧
      a₁.find [120, 98, 99] = .ok (some ⟨1, 1, 3⟩) ∧ a₂.find [120, 98, 99] = .ok found ∧
      Option.Rel (Hit.Alike listed relisted) (some ⟨1, 1, 3⟩) found ∧
      a₁.stats.stateCount = a₂.stats.stateCount ∧ a₁.hasPrefilter = a₂.hasPrefilter := by
  have h₁ : (build (Config.default.withInheritSuffixMatches true) listed).result
      = .ok (ofLiveStrings _ _) := build_of_ofPatterns rfl
  have h₂ : (build (Config.default.withInheritSuffixMatches true) relisted).result
      = .ok (ofLiveStrings _ _) := build_of_ofPatterns rfl
  have hall : listed ⊆ relisted ∧ relisted ⊆ listed := by decide
  have hset : ∀ p, p ∈ listed ↔ p ∈ relisted := fun p ↦ ⟨@hall.1 p, @hall.2 p⟩
  obtain ⟨hfind, hstates, -, -, hjump⟩ :=
    findWith_build_alike Prefilter.leftmost_next? hset rfl rfl h₁ h₂
  obtain ⟨found₁, found₂, hfound₁, hfound₂, halike⟩ := hfind [120, 98, 99]
  obtain rfl : some ⟨1, 1, 3⟩ = found₁ := Except.ok.inj
    ((find_ofLiveStrings_of_inherit (build_eq_ok_iff.mp h₁).2.1 rfl _).symm.trans hfound₁)
  exact ⟨_, _, found₂, h₁, h₂, hfound₁, hfound₂, halike, hstates, hjump⟩

end Automaton

end FirstHit
