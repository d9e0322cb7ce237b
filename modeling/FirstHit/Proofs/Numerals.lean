import FirstHit.Json.Magnitude
import FirstHit.Json.Printer
import FirstHit.Json.Reader
import Mathlib.Data.List.Basic
import Mathlib.Data.List.TakeDrop

/-!
# Natural numbers are read back

A natural number is written in decimal digits, and a reader takes digits as long as there are any.
It gets the number back if what follows cannot belong to it (`Json.Ends`), which is so for
everything that may follow a value. What has to be shown of the digits is that none but the last can
be a zero in front (`Json.eq_zero_of_head?_renderNat`).

A number that is to be interpreted is held against the range of doubles. The digits of a machine
word are gathered without loss, so no power of ten scales it, and it is in range
(`Json.Numeral.isFinite_of_lt`).
-/

namespace FirstHit.Json

variable {input digits rest : List Char} {c : Char} {n : Nat}

/-! ## Digits -/

/-- Nothing here can belong to a number that stands in front of it. -/
def Ends (rest : List Char) : Prop :=
  ∀ c ∈ rest.head?, c.isDigit = false ∧ c ≠ '.' ∧ c ≠ 'e' ∧ c ≠ 'E'

theorem ends_comma (rest : List Char) : Ends (',' :: rest) := by
  rintro _ ⟨⟩
  decide

theorem ends_brace (rest : List Char) : Ends ('}' :: rest) := by
  rintro _ ⟨⟩
  decide

theorem ends_bracket (rest : List Char) : Ends (']' :: rest) := by
  rintro _ ⟨⟩
  decide

theorem not_isBlank_of_isDigit (hc : c.isDigit = true) : ¬isBlank c = true := by
  intro hblank
  simp only [isBlank, Bool.or_eq_true, decide_eq_true_eq] at hblank
  rcases hblank with ((rfl | rfl) | rfl) | rfl <;> exact absurd hc (by decide)

theorem exists_renderNat (n : Nat) :
    ∃ c digits, renderNat n = c :: digits ∧ c.isDigit = true := by
  obtain ⟨c, digits, h⟩ := List.exists_cons_of_ne_nil (Nat.toDigits_ne_nil (n := n) (b := 10))
  refine ⟨c, digits, h, Nat.isDigit_of_mem_toDigits (b := 10) (n := n) (by decide) (by decide) ?_⟩
  exact h ▸ List.mem_cons_self

theorem eq_zero_of_head?_renderNat (h : (renderNat n).head? = some '0') : n = 0 := by
  induction n using Nat.strongRecOn with
  | ind n ih =>
    rw [renderNat] at h
    by_cases hlt : n < 10
    · rw [Nat.toDigits_of_lt_base hlt, List.head?_singleton, Option.some_inj] at h
      exact Nat.digitChar_eq_zero.mp h
    · -- the digits in front of the last are those of a smaller number, which is not zero
      rw [Nat.toDigits_of_base_le (by decide) (Nat.not_lt.mp hlt),
        List.head?_append_of_ne_nil _ Nat.toDigits_ne_nil] at h
      have hzero := ih (n / 10) (by omega) h
      omega

theorem readDigits_append (hdigits : ∀ c ∈ digits, c.isDigit = true)
    (hrest : ∀ c ∈ rest.head?, c.isDigit = false) :
    readDigits (digits ++ rest) = (digits, rest) := by
  have hend : rest.takeWhile Char.isDigit = [] ∧ rest.dropWhile Char.isDigit = rest := by
    cases rest with
    | nil => exact ⟨rfl, rfl⟩
    | cons c rest =>
      have hc : c.isDigit = false := hrest c rfl
      exact ⟨List.takeWhile_cons_of_neg (by simp [hc]), List.dropWhile_cons_of_neg (by simp [hc])⟩
  rw [readDigits, List.span_eq_takeWhile_dropWhile, List.takeWhile_append_of_pos hdigits,
    List.dropWhile_append_of_pos hdigits, hend.1, hend.2, List.append_nil]

theorem readDigits1_append (hne : digits ≠ []) (hdigits : ∀ c ∈ digits, c.isDigit = true)
    (hrest : ∀ c ∈ rest.head?, c.isDigit = false) :
    readDigits1 (digits ++ rest) = some (digits, rest) := by
  obtain ⟨c, tail, rfl⟩ := List.exists_cons_of_ne_nil hne
  rw [readDigits1, readDigits_append hdigits hrest]

/-! ## Numbers -/

/-- The digits before the point may have a zero in front if it stands alone. -/
theorem readWhole_append (hne : digits ≠ []) (hdigits : ∀ c ∈ digits, c.isDigit = true)
    (hzero : digits.head? = some '0' → digits.length = 1)
    (hrest : ∀ c ∈ rest.head?, c.isDigit = false) :
    readWhole (digits ++ rest) = some (Nat.ofDigitChars 10 digits 0, rest) := by
  have hone : ¬(digits.head? = some '0' ∧ digits.length ≠ 1) := fun h ↦ h.2 (hzero h.1)
  rw [readWhole, readDigits1_append hne hdigits hrest, Option.bind_eq_bind, Option.bind_some]
  exact if_neg hone

theorem readWhole_renderNat (n : Nat) (hrest : Ends rest) :
    readWhole (renderNat n ++ rest) = some (n, rest) := by
  have hvalue : Nat.ofDigitChars 10 (renderNat n) 0 = n := Nat.ofDigitChars_ten_toDigits
  have hne : renderNat n ≠ [] := Nat.toDigits_ne_nil
  have hdigits : ∀ c ∈ renderNat n, c.isDigit = true := fun c hc ↦
    Nat.isDigit_of_mem_toDigits (by decide) (by decide) hc
  have hzero : (renderNat n).head? = some '0' → (renderNat n).length = 1 := by
    intro h
    rw [eq_zero_of_head?_renderNat h]
    rfl
  rw [readWhole_append hne hdigits hzero fun c hc ↦ (hrest c hc).1, hvalue]

theorem readFraction_of_ends (hrest : Ends rest) : readFraction rest = some ([], rest) := by
  rw [readFraction]
  rintro tail rfl
  exact (hrest '.' rfl).2.1 rfl

theorem readExponent_of_ends (hrest : Ends rest) : readExponent rest = some (none, rest) := by
  rw [readExponent]
  · rintro tail rfl
    exact (hrest 'e' rfl).2.2.1 rfl
  · rintro tail rfl
    exact (hrest 'E' rfl).2.2.2 rfl

/-- **Natural numbers are read back.** -/
theorem readNumeral_renderNat (n : Nat) (hrest : Ends rest) :
    readNumeral (renderNat n ++ rest) = some ({ whole := n }, rest) := by
  obtain ⟨c, tail, hcons, hc⟩ := exists_renderNat n
  rw [readNumeral, readWhole_renderNat n hrest, Option.bind_eq_bind, Option.bind_some]
  · dsimp only
    rw [readFraction_of_ends hrest, Option.bind_eq_bind, Option.bind_some]
    dsimp only
    rw [readExponent_of_ends hrest]
    rfl
  · -- no sign stands in front
    intro unsigned hminus
    rw [hcons, List.cons_append] at hminus
    obtain ⟨rfl, -⟩ := List.cons.inj hminus
    exact absurd hc (by decide)

theorem readScalar_of_isDigit (hc : c = '-' ∨ c.isDigit = true) :
    readScalar (c :: input) = (do
      let (numeral, rest) ← readNumeral (c :: input)
      some (.number numeral, rest)) := by
  rw [readScalar]
  -- none of the other values starts with a sign or a digit
  all_goals
    rintro tail ⟨⟩
    exact absurd hc (by decide)

theorem render_ofNat (n : Nat) : (ofNat n).render = renderNat n := by
  rw [ofNat, render, Numeral.render]
  simp

theorem readScalar_ofNat (n : Nat) (hrest : Ends rest) :
    readScalar ((ofNat n).render ++ rest) = some (ofNat n, rest) := by
  obtain ⟨c, tail, hcons, hc⟩ := exists_renderNat n
  have hnumeral := readNumeral_renderNat n hrest
  rw [render_ofNat, hcons, List.cons_append, readScalar_of_isDigit (Or.inr hc),
    ← List.cons_append, ← hcons, hnumeral]
  rfl

/-! ## The range -/

namespace Numeral

theorem le_foldl_digits (word : Nat) (digits : List Nat) :
    word ≤ digits.foldl (10 * · + ·) word := by
  induction digits generalizing word with
  | nil => exact Nat.le_refl word
  | cons d digits ih => exact Nat.le_trans (by omega) (ih (10 * word + d))

/-- Digits are gathered without loss as long as their number is a machine word. -/
theorem gather_of_lt {word : Nat} {digits : List Nat}
    (h : digits.foldl (10 * · + ·) word < UInt64.size) :
    gather word digits = (digits.foldl (10 * · + ·) word, []) := by
  induction digits generalizing word with
  | nil => rfl
  | cons d digits ih =>
    rw [List.foldl_cons] at h ⊢
    rw [gather, if_pos (Nat.lt_of_le_of_lt (le_foldl_digits _ digits) h), ih h]

theorem foldl_wholeDigits (n : Nat) :
    ({ whole := n } : Numeral).wholeDigits.foldl (10 * · + ·) 0 = n := by
  rw [wholeDigits, List.foldl_map]
  exact Nat.ofDigitChars_eq_foldl.symm.trans Nat.ofDigitChars_ten_toDigits

/-- **A machine word is in range.** -/
theorem isFinite_of_lt (h : n < UInt64.size) : ({ whole := n } : Numeral).isFinite = true := by
  have hgather : gather 0 ({ whole := n } : Numeral).wholeDigits = (n, []) := by
    rw [gather_of_lt (by rwa [foldl_wholeDigits]), foldl_wholeDigits]
  have hscaled : ({ whole := n } : Numeral).scaledWord = (n, 0) := by
    rw [scaledWord, hgather]
    rfl
  rw [isFinite, hscaled]
  exact if_pos (Or.inr (Int.le_refl 0))

end Numeral

end FirstHit.Json
