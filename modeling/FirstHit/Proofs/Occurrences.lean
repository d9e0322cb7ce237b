import FirstHit.Proofs.LiveStrings
import FirstHit.Reference

/-!
# The earliest occurrence

Earliest end first is a scan, and a scan says how to look for something. Here it is compared with
what there is to find: the occurrences of patterns, ordered by where they stop, then by where they
start, then by the id of their pattern (`Hit.Before`). The scan finds the first of them in this
order, and it finds nothing only if there is none (`earliestEndFirst_eq_some_iff`,
`earliestEndFirst_eq_none_iff`).

Both layers of the scan go through a sorted list and take the first answer: the offsets where an
occurrence may stop, and below each offset the suffixes of what was read, the longest first.
-/

namespace FirstHit

variable {patterns : List Bytes} {text w x : Bytes} {stop id : Nat} {h other : Hit}

/-- The first answer along a sorted list comes from an element that all other answering elements
stand behind. -/
theorem exists_first_of_findSome? {α β : Type} {R : α → α → Prop} {l : List α} {f : α → Option β}
    {b : β} (hl : l.Pairwise R) (h : l.findSome? f = some b) :
    ∃ a ∈ l, f a = some b ∧ ∀ x ∈ l, f x ≠ none → x = a ∨ R a x := by
  obtain ⟨l₁, a, l₂, rfl, ha, hnone⟩ := List.findSome?_eq_some_iff.mp h
  refine ⟨a, List.mem_append_right _ List.mem_cons_self, ha, fun x hx hsome ↦ ?_⟩
  rcases List.mem_append.mp hx with hx | hx
  · exact absurd (hnone x hx) hsome
  · rcases List.mem_cons.mp hx with rfl | hx
    · exact Or.inl rfl
    · exact Or.inr ((List.pairwise_cons.mp (List.pairwise_append.mp hl).2.1).1 x hx)

/-! ## The order of occurrences -/

/-- The occurrence `h` is `other`, or is preferred to it: it stops earlier, or it stops there too
and starts earlier, or it has the same bytes and a smaller id. -/
def Hit.Before (h other : Hit) : Prop :=
  h.stop < other.stop ∨ h.stop = other.stop ∧
    (h.start < other.start ∨ h.start = other.start ∧ h.pattern ≤ other.pattern)

theorem Hit.Before.antisymm (h₁ : h.Before other) (h₂ : other.Before h) : h = other := by
  obtain ⟨p, start, stop⟩ := h
  obtain ⟨q, start', stop'⟩ := other
  rw [Hit.Before] at h₁ h₂
  dsimp only at h₁ h₂
  obtain ⟨rfl, rfl, rfl⟩ : p = q ∧ start = start' ∧ stop = stop' := by omega
  rfl

/-! ## Patterns that are suffixes -/

theorem leastId?_eq_some (hid : leastId? patterns w = some id) :
    patterns[id]? = some w ∧ ∀ j, patterns[j]? = some w → id ≤ j := by
  rw [leastId?, List.findIdx?_eq_some_iff_getElem] at hid
  obtain ⟨hlt, heq, hleast⟩ := hid
  refine ⟨?_, fun j hj ↦ Nat.not_lt.mp fun hji ↦ ?_⟩
  · rw [List.getElem?_eq_getElem hlt, eq_of_beq heq]
  · obtain ⟨hjlt, hjw⟩ := List.getElem?_eq_some_iff.mp hj
    exact hleast j hji (beq_iff_eq.mpr hjw)

theorem leastId?_ne_none (hid : patterns[id]? = some w) : leastId? patterns w ≠ none := by
  intro hnone
  rw [leastId?, List.findIdx?_eq_none_iff] at hnone
  have hw := hnone w (List.mem_of_getElem? hid)
  rw [beq_self_eq_true] at hw
  cases hw

theorem hitOfSuffix?_eq_some (hh : hitOfSuffix? patterns stop w = some h) :
    leastId? patterns w = some h.pattern ∧ h.start = stop - w.length ∧ h.stop = stop := by
  rw [hitOfSuffix?, Option.map_eq_some_iff] at hh
  obtain ⟨id, hid, rfl⟩ := hh
  exact ⟨hid, rfl, rfl⟩

/-! ## Occurrences that stop at one offset -/

theorem occurs_iff :
    Occurs patterns text h ↔ 1 ≤ h.stop ∧ h.stop ≤ text.length ∧
      ∃ w, w <:+ text.take h.stop ∧ patterns[h.pattern]? = some w ∧
        h.start = h.stop - w.length := by
  constructor
  · rintro ⟨hstart, hone, hstop, hspelled⟩
    refine ⟨hone, hstop, _, List.drop_suffix _ _, hspelled, ?_⟩
    rw [List.length_drop, List.length_take]
    omega
  · rintro ⟨hone, hstop, w, hw, hspelled, hstart⟩
    have hlen := hw.length_le
    rw [List.length_take] at hlen
    refine ⟨by omega, hone, hstop, ?_⟩
    have hdrop := List.suffix_iff_eq_drop.mp hw
    rw [List.length_take, Nat.min_eq_left hstop, ← hstart] at hdrop
    rw [hspelled, ← hdrop]

theorem Occurs.of_tails (hone : 1 ≤ stop) (hstop : stop ≤ text.length)
    (hfirst : (text.take stop).tails.findSome? (hitOfSuffix? patterns stop) = some h) :
    Occurs patterns text h ∧
      ∀ other, Occurs patterns text other → other.stop = stop → h.Before other := by
  obtain ⟨w, hw, hhit, hlater⟩ :=
    exists_first_of_findSome? (pairwise_length_tails (text.take stop)) hfirst
  obtain ⟨hleast, hstart, rfl⟩ := hitOfSuffix?_eq_some hhit
  obtain ⟨hspelled, hid⟩ := leastId?_eq_some hleast
  have hsuffix := (List.mem_tails w _).mp hw
  refine ⟨occurs_iff.mpr ⟨hone, hstop, w, hsuffix, hspelled, hstart⟩, fun other hother heq ↦ ?_⟩
  obtain ⟨-, -, v, hv, hvspelled, hvstart⟩ := occurs_iff.mp hother
  rw [heq] at hv hvstart
  have hvhit : hitOfSuffix? patterns h.stop v ≠ none := by
    rw [hitOfSuffix?, Ne, Option.map_eq_none_iff]
    exact leastId?_ne_none hvspelled
  have hlen := hsuffix.length_le
  rw [List.length_take] at hlen
  refine Or.inr ⟨heq.symm, ?_⟩
  -- a longer suffix starts earlier, and the least id stands for all equal patterns
  rcases hlater v ((List.mem_tails v _).mpr hv) hvhit with rfl | hlt
  · exact Or.inr ⟨hstart.trans hvstart.symm, hid _ hvspelled⟩
  · refine Or.inl ?_
    omega

theorem Occurs.tails_ne_none (hh : Occurs patterns text h) :
    (text.take h.stop).tails.findSome? (hitOfSuffix? patterns h.stop) ≠ none := by
  obtain ⟨-, -, w, hw, hspelled, -⟩ := occurs_iff.mp hh
  intro hnone
  have hhit := List.findSome?_eq_none_iff.mp hnone w ((List.mem_tails w _).mpr hw)
  rw [hitOfSuffix?, Option.map_eq_none_iff] at hhit
  exact leastId?_ne_none hspelled hhit

/-! ## All occurrences -/

theorem mem_stops : stop ∈ List.range' 1 text.length ↔ 1 ≤ stop ∧ stop ≤ text.length := by
  rw [List.mem_range'_1]
  omega

theorem earliestEndFirst_eq_none_iff :
    earliestEndFirst patterns text = none ↔ ∀ h, ¬Occurs patterns text h := by
  rw [earliestEndFirst, List.findSome?_eq_none_iff]
  constructor
  · intro hnone h hh
    exact hh.tails_ne_none (hnone h.stop (mem_stops.mpr ⟨hh.one_le_stop, hh.stop_le_length⟩))
  · intro hnone stop hstop
    obtain ⟨hone, hle⟩ := mem_stops.mp hstop
    refine Option.eq_none_iff_forall_ne_some.mpr fun h hh ↦ ?_
    exact hnone h (Occurs.of_tails hone hle hh).1

theorem occurs_of_earliestEndFirst (hh : earliestEndFirst patterns text = some h) :
    Occurs patterns text h ∧ ∀ other, Occurs patterns text other → h.Before other := by
  obtain ⟨stop, hmem, hfirst, hlater⟩ := exists_first_of_findSome? (List.pairwise_lt_range' 1) hh
  obtain ⟨hone, hle⟩ := mem_stops.mp hmem
  obtain ⟨hoccurs, hbefore⟩ := Occurs.of_tails hone hle hfirst
  refine ⟨hoccurs, fun other hother ↦ ?_⟩
  have hothermem := mem_stops.mpr ⟨hother.one_le_stop, hother.stop_le_length⟩
  rcases hlater other.stop hothermem hother.tails_ne_none with heq | hlt
  · exact hbefore other hother heq
  · obtain ⟨w, -, hw⟩ := List.exists_of_findSome?_eq_some hfirst
    refine Or.inl ?_
    rw [(hitOfSuffix?_eq_some hw).2.2]
    exact hlt

theorem Occurs.exists_earliestEndFirst (hh : Occurs patterns text h) :
    ∃ first, earliestEndFirst patterns text = some first ∧ Occurs patterns text first ∧
      ∀ other, Occurs patterns text other → first.Before other := by
  obtain ⟨first, hfirst⟩ : ∃ first, earliestEndFirst patterns text = some first := by
    apply Option.ne_none_iff_exists'.mp
    intro hnone
    exact earliestEndFirst_eq_none_iff.mp hnone h hh
  exact ⟨first, hfirst, occurs_of_earliestEndFirst hfirst⟩

/-- **Earliest end first finds the first occurrence.** -/
theorem earliestEndFirst_eq_some_iff :
    earliestEndFirst patterns text = some h ↔
      Occurs patterns text h ∧ ∀ other, Occurs patterns text other → h.Before other := by
  constructor
  · exact occurs_of_earliestEndFirst
  · rintro ⟨hoccurs, hbefore⟩
    cases hfound : earliestEndFirst patterns text with
    | none => exact absurd hoccurs (earliestEndFirst_eq_none_iff.mp hfound h)
    | some first =>
      obtain ⟨hfirst, hall⟩ := occurs_of_earliestEndFirst hfound
      rw [(hall h hoccurs).antisymm (hbefore first hfirst)]

/-- There is an occurrence exactly if a byte can be read and some pattern is spelled somewhere. -/
theorem exists_occurs_iff :
    (∃ h, Occurs patterns text h) ↔ text ≠ [] ∧ ∃ p ∈ patterns, p <:+: text := by
  constructor
  · rintro ⟨h, hh⟩
    have hpos := hh.one_le_stop.trans hh.stop_le_length
    refine ⟨List.length_pos_iff.mp hpos, _, List.mem_of_getElem? hh.spelled, ?_⟩
    exact (List.drop_suffix _ _).isInfix.trans (List.take_prefix _ _).isInfix
  · rintro ⟨hne, p, hp, before, after, rfl⟩
    obtain ⟨id, hid⟩ := List.mem_iff_getElem?.mp hp
    by_cases hstop : before ++ p = []
    · -- the empty pattern is not reported before a byte is read, but it is behind the first
      obtain ⟨-, rfl⟩ := List.append_eq_nil_iff.mp hstop
      refine ⟨⟨id, 1, 1⟩, occurs_iff.mpr ⟨Nat.le_refl 1, ?_, [], ?_⟩⟩
      · exact List.length_pos_iff.mpr hne
      · exact ⟨List.nil_suffix, hid, rfl⟩
    · refine ⟨⟨id, (before ++ p).length - p.length, (before ++ p).length⟩,
        occurs_iff.mpr ⟨?_, ?_, p, ?_, hid, rfl⟩⟩
      · exact List.length_pos_iff.mpr hstop
      · exact (List.prefix_append (before ++ p) after).length_le
      · rw [List.take_left]
        exact List.suffix_append before p

theorem isSome_earliestEndFirst_iff :
    (earliestEndFirst patterns text).isSome = true ↔ text ≠ [] ∧ ∃ p ∈ patterns, p <:+: text := by
  rw [← exists_occurs_iff, Option.isSome_iff_ne_none, Ne, earliestEndFirst_eq_none_iff,
    not_forall_not]

end FirstHit
