import FirstHit.Proofs.LiveStrings
import FirstHit.Reference

/-!
# Which patterns a string is accepted for

The patterns that a state accepts are a function of its path and of the switch for inheritance.
Without inheritance they are those equal to the path; with it, those that are suffixes of the path,
the longest first. Equal patterns stand in the order of their ids in both cases.

Inheritance is described here by the suffixes of a string and computed elsewhere by one step along a
failure link. `acceptedIds_true` is the equation that the step has to satisfy.
-/

namespace FirstHit

variable {patterns : List Bytes} {w x : Bytes} {inherit : Bool} {id : Nat}

/-- The ids of the patterns that a state with the path `w` accepts, in the order of preference. -/
def acceptedIds (inherit : Bool) (patterns : List Bytes) (w : Bytes) : List Nat :=
  if inherit then w.tails.flatMap fun v ↦ patterns.idxsOf v else patterns.idxsOf w

/-! ## Patterns equal to a string -/

theorem mem_idxsOf : id ∈ patterns.idxsOf w ↔ patterns[id]? = some w := by
  rw [List.mem_idxsOf_iff_exists_getElem_pos, List.getElem?_eq_some_iff]
  simp only [beq_iff_eq]

theorem idxsOf_eq_nil_iff : patterns.idxsOf w = [] ↔ w ∉ patterns := by
  rw [List.eq_nil_iff_forall_not_mem, List.mem_iff_getElem?, not_exists]
  simp only [mem_idxsOf]

theorem idxsOf_eq_nil (h : ¬isLive patterns w = true) : patterns.idxsOf w = [] :=
  idxsOf_eq_nil_iff.mpr fun hw ↦ h (isLive_of_mem hw)

theorem idxsOf_append_singleton (patterns : List Bytes) (p w : Bytes) :
    (patterns ++ [p]).idxsOf w
      = patterns.idxsOf w ++ if p = w then [patterns.length] else [] := by
  rw [List.idxsOf_append, List.idxsOf_cons, List.idxsOf_nil, Nat.zero_add]
  simp only [beq_iff_eq]

theorem head?_idxsOf (patterns : List Bytes) (w : Bytes) :
    (patterns.idxsOf w).head? = leastId? patterns w := by
  have key : ∀ start, (patterns.idxsOf w start).head?
      = (leastId? patterns w).map (· + start) := by
    induction patterns with
    | nil => intro start; rfl
    | cons p patterns ih =>
      intro start
      rw [List.idxsOf_cons, leastId?, List.findIdx?_cons]
      by_cases hp : (p == w) = true
      · rw [if_pos hp, if_pos hp, List.head?_cons, Option.map_some, Nat.zero_add]
      · rw [if_neg hp, if_neg hp, ih (start + 1), leastId?, Option.map_map]
        exact congrFun (congrArg _ (funext fun i ↦ by simp only [Function.comp]; omega)) _
  rw [key 0, funext Nat.add_zero, Option.map_id']

/-! ## Accepted patterns -/

@[simp] theorem acceptedIds_false (patterns : List Bytes) (w : Bytes) :
    acceptedIds false patterns w = patterns.idxsOf w := rfl

@[simp] theorem acceptedIds_nil (inherit : Bool) (patterns : List Bytes) :
    acceptedIds inherit patterns [] = patterns.idxsOf [] := by
  cases inherit
  · rfl
  · rw [acceptedIds, if_pos rfl, List.tails, List.flatMap_singleton]

/-- No suffix beyond the longest live one contributes. -/
theorem acceptedIds_liveSuffix (patterns : List Bytes) (x : Bytes) :
    acceptedIds true patterns (liveSuffix patterns x) = acceptedIds true patterns x := by
  induction x with
  | nil => rfl
  | cons b x ih =>
    by_cases hx : isLive patterns (b :: x) = true
    · rw [liveSuffix_eq_self hx]
    · rw [liveSuffix_cons_of_not_isLive hx, ih, acceptedIds, acceptedIds, if_pos rfl, if_pos rfl,
        List.tails_cons, List.flatMap_cons, idxsOf_eq_nil hx, List.nil_append]

/-- With inheritance, the longest proper live suffix stands for all of them. -/
theorem acceptedIds_true (patterns : List Bytes) (hw : w ≠ []) :
    acceptedIds true patterns w
      = patterns.idxsOf w ++ acceptedIds true patterns (liveSuffix patterns w.tail) := by
  obtain ⟨b, v, rfl⟩ := List.exists_cons_of_ne_nil hw
  rw [acceptedIds_liveSuffix, acceptedIds, acceptedIds, if_pos rfl, if_pos rfl, List.tails_cons,
    List.flatMap_cons, List.tail_cons]

/-- A state accepts the patterns that its own path spells before those that it inherits. -/
theorem idxsOf_prefix_acceptedIds (patterns : List Bytes) (w : Bytes) :
    patterns.idxsOf w <+: acceptedIds true patterns w := by
  by_cases hw : w = []
  · rw [hw, acceptedIds_nil]
  · rw [acceptedIds_true patterns hw]
    exact List.prefix_append _ _

theorem mem_acceptedIds_true :
    id ∈ acceptedIds true patterns w ↔ ∃ p, patterns[id]? = some p ∧ p <:+ w := by
  simp only [acceptedIds, if_true, List.mem_flatMap, List.mem_tails, mem_idxsOf, and_comm]

theorem suffix_of_mem_acceptedIds (h : id ∈ acceptedIds inherit patterns w) :
    ∃ p, patterns[id]? = some p ∧ p <:+ w := by
  cases inherit with
  | false => exact ⟨w, mem_idxsOf.mp h, List.suffix_refl w⟩
  | true => exact mem_acceptedIds_true.mp h

end FirstHit
