import FirstHit.Proofs.Compilation
import Mathlib.Data.Finset.Card

/-!
# First bytes

Whether a built automaton has a prefilter, and for which bytes, is read off the finished row of the
root: the bytes are those that lead away from it. The row is made of edges that the patterns gave
the root and of loops that closed it, so these bytes are the ones that patterns start with
(`firstBytes`), and there is nothing else that the choice depends on
(`Automaton.prefilter_build`). Inheritance in particular cannot make the root accept, because the
root inherits nothing.
-/

namespace FirstHit

variable {c : Config} {patterns : List Bytes} {bytes : List UInt8} {p : Prefilter} {b : UInt8}

/-- The bytes that patterns start with. -/
def firstBytes (patterns : List Bytes) : Finset UInt8 :=
  (patterns.filterMap List.head?).toFinset

theorem mem_firstBytes : b ∈ firstBytes patterns ↔ isLive patterns [b] = true := by
  rw [firstBytes, List.mem_toFinset, List.mem_filterMap, isLive_iff,
    or_iff_right (List.cons_ne_nil b [])]
  simp only [List.singleton_prefix_iff_head?_eq_some]

theorem toFinset_filter_all (patterns : List Bytes) :
    (Byte.all.filter fun b ↦ isLive patterns [b]).toFinset = firstBytes patterns := by
  ext b
  rw [List.mem_toFinset, List.mem_filter, mem_firstBytes, and_iff_right (Byte.mem_all b)]

theorem nodup_filter_all (patterns : List Bytes) :
    (Byte.all.filter fun b ↦ isLive patterns [b]).Nodup :=
  (Byte.pairwise_all.imp UInt8.ne_of_lt).filter _

namespace Prefilter

theorem ofBytes?_eq_some_iff : ofBytes? bytes = some p ↔ p.bytes = bytes := by
  rw [ofBytes?]
  constructor
  · intro h
    split at h
    case isTrue => cases h; rfl
    case isFalse => cases h
  · rintro rfl
    rw [dif_pos p.few]

theorem isSome_ofBytes?_iff :
    (ofBytes? bytes).isSome = true ↔ 1 ≤ bytes.length ∧ bytes.length ≤ 3 := by
  rw [ofBytes?]
  split
  case isTrue few => exact iff_of_true rfl few
  case isFalse few => exact iff_of_false Bool.false_ne_true few

end Prefilter

theorem isSome_firstBytes?_iff :
    (firstBytes? patterns).isSome = true ↔
      [] ∉ patterns ∧ 1 ≤ (firstBytes patterns).card ∧ (firstBytes patterns).card ≤ 3 := by
  rw [← toFinset_filter_all, List.toFinset_card_of_nodup (nodup_filter_all patterns), firstBytes?]
  by_cases hnil : patterns.contains [] = true
  · rw [if_pos hnil]
    exact iff_of_false Bool.false_ne_true fun h ↦ h.1 (List.contains_iff_mem.mp hnil)
  · rw [if_neg hnil, Prefilter.isSome_ofBytes?_iff,
      and_iff_right (mt List.contains_iff_mem.mpr hnil)]

theorem bytes_of_firstBytes? (h : firstBytes? patterns = some p) :
    p.bytes = Byte.all.filter fun b ↦ isLive patterns [b] := by
  rw [firstBytes?] at h
  split at h
  case isTrue => cases h
  case isFalse => exact Prefilter.ofBytes?_eq_some_iff.mp h

namespace Automaton

variable {a : Automaton}

/-- **The first bytes of the patterns decide on the prefilter.** There is one if it is wanted, the
empty pattern is not among the patterns, and they start with at least one and at most three
different bytes. It looks out for these bytes, each of which it holds once. They are the bytes that
lead away from the root. -/
theorem prefilter_build (h : (build c patterns).result = .ok a) :
    (a.hasPrefilter = true ↔ c.prefilter = true ∧ [] ∉ patterns ∧
        1 ≤ (firstBytes patterns).card ∧ (firstBytes patterns).card ≤ 3) ∧
      (∀ p, a.prefilter = some p → p.bytes.Nodup ∧ p.bytes.toFinset = firstBytes patterns) ∧
      ∀ b, ∃ s, a.next .root b = .ok s ∧ (s ≠ .root ↔ b ∈ firstBytes patterns) := by
  obtain ⟨-, hn, rfl⟩ := build_eq_ok_iff.mp h
  refine ⟨?_, fun p hp ↦ ?_, fun b ↦ ?_⟩
  · rw [hasPrefilter, ofLiveStrings, ← isSome_firstBytes?_iff]
    cases c.prefilter <;> simp
  · rw [ofLiveStrings] at hp
    obtain ⟨-, hfirst⟩ := (Option.ite_none_right_eq_some).mp hp
    rw [bytes_of_firstBytes? hfirst]
    exact ⟨nodup_filter_all patterns, toFinset_filter_all patterns⟩
  · obtain ⟨s, hnext, hs⟩ := next_root_ofLiveStrings hn c b
    exact ⟨s, hnext, by rw [mem_firstBytes, Ne, hs, not_not]⟩

/-- Two first bytes in three patterns. -/
def twoFirstBytes : List Bytes := [[97, 98], [98], [97]]

/-- Four first bytes. -/
def fourFirstBytes : List Bytes := [[97], [98], [99], [100, 97]]

theorem prefilter_build_twoFirstBytes :
    ∃ few many accepting p,
      (build (Config.default.withInheritSuffixMatches true) twoFirstBytes).result = .ok few ∧
      (build .default fourFirstBytes).result = .ok many ∧
      (build .default ([] :: twoFirstBytes)).result = .ok accepting ∧
      few.prefilter = some p ∧ p.bytes.Nodup ∧ p.bytes.toFinset = {97, 98} ∧
      many.hasPrefilter = false ∧ accepting.hasPrefilter = false ∧
      ∃ s, many.next .root 100 = .ok s ∧ s ≠ .root := by
  have hfew : (build (Config.default.withInheritSuffixMatches true) twoFirstBytes).result
      = .ok (ofLiveStrings _ _) := build_of_ofPatterns rfl
  have hmany : (build .default fourFirstBytes).result = .ok (ofLiveStrings _ _) :=
    build_of_ofPatterns rfl
  have hempty : (build .default ([] :: twoFirstBytes)).result = .ok (ofLiveStrings _ _) :=
    build_of_ofPatterns rfl
  obtain ⟨hsome, hbytes, -⟩ := prefilter_build hfew
  obtain ⟨hmore, -, hroot⟩ := prefilter_build hmany
  obtain ⟨hnil, -, -⟩ := prefilter_build hempty
  obtain ⟨p, hp⟩ := Option.isSome_iff_exists.mp (hsome.mpr ⟨rfl, by decide, by decide, by decide⟩)
  obtain ⟨hnodup, hfinset⟩ := hbytes p hp
  obtain ⟨s, hnext, hs⟩ := hroot 100
  refine ⟨_, _, _, p, hfew, hmany, hempty, hp, hnodup, hfinset.trans (by decide), ?_, ?_, s, hnext,
    hs.mpr (by decide)⟩
  · exact Bool.eq_false_iff.mpr (mt hmore.mp (by decide))
  · exact Bool.eq_false_iff.mpr (mt hnil.mp (by decide))

end Automaton

end FirstHit
