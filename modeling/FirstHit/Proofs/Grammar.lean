import FirstHit.Proofs.Numerals

/-!
# The grammar of JSON

Which text denotes which value is said here without a reader: `Json.Denotes` has one rule for each
form of a value and says where blanks may stand. What a member or an item is followed by is a text
of its own, which starts behind the value and ends with the closing brace or bracket.

The readers are complete for the grammar. Given a text with something behind it, they return the
value that the text denotes, and stop where the text does (`Json.read_of_denotes`). This is what it
takes to pass over a value that is not interpreted, however deep it is nested. Only a number may
depend on what follows, so it has to be something that ends a number (`Json.Ends`); the blanks,
commas, braces and brackets of the grammar do.
-/

namespace FirstHit.Json

variable {s rest blanks input : List Char} {c : Char} {v : Json} {bound : Nat}

/-! ## Strings -/

/-- Whether a character stands for itself in a string. -/
def isPlain (c : Char) : Bool := c ≠ '"' && c ≠ '\\' && 0x20 ≤ c.toNat

theorem isPlain_iff : isPlain c = true ↔ c ≠ '"' ∧ c ≠ '\\' ∧ 0x20 ≤ c.toNat := by
  simp [isPlain, and_assoc]

/-- The text of a string behind its opening quote. -/
inductive DenotesPieces : List Char → List Piece → Prop
  /-- The closing quote. -/
  | close : DenotesPieces ['"'] []
  /-- A character that stands for itself. -/
  | char {c : Char} {s : List Char} {pieces : List Piece} (hc : isPlain c = true)
    (h : DenotesPieces s pieces) :
    DenotesPieces (c :: s) (.char c :: pieces)
  /-- A letter behind a backslash. -/
  | escape {letter c : Char} {s : List Char} {pieces : List Piece} (hc : escape? letter = some c)
    (h : DenotesPieces s pieces) :
    DenotesPieces ('\\' :: letter :: s) (.char c :: pieces)
  /-- A code unit in four digits. -/
  | unit {a b c d : Char} {u : UInt16} {s : List Char} {pieces : List Piece}
    (hu : unit? a b c d = some u) (h : DenotesPieces s pieces) :
    DenotesPieces ('\\' :: 'u' :: a :: b :: c :: d :: s) (.unit u :: pieces)

theorem readPieces_of_denotes {pieces : List Piece} (h : DenotesPieces s pieces)
    (rest : List Char) : readPieces (s ++ rest) = some (pieces, rest) := by
  induction h with
  | close => rfl
  | char hc h ih =>
    obtain ⟨hquote, hslash, hcontrol⟩ := isPlain_iff.mp hc
    rw [List.cons_append, readPieces]
    · rw [if_neg (not_or.mpr ⟨hslash, Nat.not_lt.mpr hcontrol⟩), ih]
      rfl
    · exact hquote
    · exact fun a b c d tail h ↦ absurd h hslash
    · exact fun letter tail h ↦ absurd h hslash
  | @escape letter c s pieces hc h ih =>
    rw [List.cons_append, List.cons_append, readPieces, hc, ih]
    · rfl
    · -- a letter that starts a code unit stands for nothing
      rintro a b c d tail rfl -
      cases hc
  | unit hu h ih =>
    simp only [List.cons_append]
    rw [readPieces, hu, ih]
    rfl

theorem denotesPieces_of_all_isPlain (hs : s.all isPlain = true) :
    DenotesPieces (s ++ ['"']) (s.map .char) := by
  induction s with
  | nil => exact .close
  | cons c s ih =>
    rw [List.all_cons, Bool.and_eq_true] at hs
    exact .char hs.1 (ih hs.2)

/-! ## Numbers -/

/-- Digits, and at least one. -/
def Digits (s : List Char) : Prop := s ≠ [] ∧ ∀ c ∈ s, c.isDigit = true

/-- The digits before the point. A zero stands alone. -/
inductive DenotesWhole : List Char → Nat → Prop
  | digits {s : List Char} (hs : Digits s) (hzero : s.head? = some '0' → s.length = 1) :
    DenotesWhole s (Nat.ofDigitChars 10 s 0)

/-- The point and the digits behind it, or nothing. -/
inductive DenotesFraction : List Char → List (Fin 10) → Prop
  | absent : DenotesFraction [] []
  | digits {s : List Char} (hs : Digits s) :
    DenotesFraction ('.' :: s) (s.map fun c ↦ Fin.ofNat 10 (c.toNat - '0'.toNat))

/-- The exponent with its letter, or nothing. -/
inductive DenotesExponent : List Char → Option Int → Prop
  | absent : DenotesExponent [] none
  | unsigned {letter : Char} {s : List Char} (hletter : letter = 'e' ∨ letter = 'E')
    (hs : Digits s) : DenotesExponent (letter :: s) (some (Nat.ofDigitChars 10 s 0))
  | plus {letter : Char} {s : List Char} (hletter : letter = 'e' ∨ letter = 'E') (hs : Digits s) :
    DenotesExponent (letter :: '+' :: s) (some (Nat.ofDigitChars 10 s 0))
  | minus {letter : Char} {s : List Char} (hletter : letter = 'e' ∨ letter = 'E') (hs : Digits s) :
    DenotesExponent (letter :: '-' :: s) (some (-Nat.ofDigitChars 10 s 0))

/-- A number. -/
inductive DenotesNumeral : List Char → Numeral → Prop
  | unsigned {w f e : List Char} {whole : Nat} {fraction : List (Fin 10)} {exponent : Option Int}
    (hwhole : DenotesWhole w whole) (hfraction : DenotesFraction f fraction)
    (hexponent : DenotesExponent e exponent) :
    DenotesNumeral (w ++ (f ++ e)) { whole, fraction, exponent }
  | minus {w f e : List Char} {whole : Nat} {fraction : List (Fin 10)} {exponent : Option Int}
    (hwhole : DenotesWhole w whole) (hfraction : DenotesFraction f fraction)
    (hexponent : DenotesExponent e exponent) :
    DenotesNumeral ('-' :: (w ++ (f ++ e))) { negative := true, whole, fraction, exponent }

theorem denotesNumeral_digit (hc : c.isDigit = true) :
    DenotesNumeral [c] { whole := Nat.ofDigitChars 10 [c] 0 } := by
  have hdigits : Digits [c] := ⟨List.cons_ne_nil c [], List.forall_mem_singleton.mpr hc⟩
  exact .unsigned (.digits hdigits fun _ ↦ rfl) .absent .absent

theorem Digits.exists_cons (hs : Digits s) : ∃ c tail, s = c :: tail ∧ c.isDigit = true := by
  obtain ⟨c, tail, rfl⟩ := List.exists_cons_of_ne_nil hs.1
  exact ⟨c, tail, rfl, hs.2 c List.mem_cons_self⟩

theorem readDigits1_of_digits (hs : Digits s) (hrest : ∀ c ∈ rest.head?, c.isDigit = false) :
    readDigits1 (s ++ rest) = some (s, rest) :=
  readDigits1_append hs.1 hs.2 hrest

theorem readSign_of_digits (hs : Digits s) (rest : List Char) :
    readSign (s ++ rest) = (false, s ++ rest) := by
  obtain ⟨c, tail, rfl, hc⟩ := hs.exists_cons
  rw [List.cons_append, readSign]
  all_goals
    rintro tail ⟨⟩
    exact absurd hc (by decide)

theorem readExponentDigits_of_digits (hs : Digits s) (hrest : Ends rest) :
    readExponentDigits (s ++ rest) = some (Int.ofNat (Nat.ofDigitChars 10 s 0), rest) := by
  rw [readExponentDigits, readSign_of_digits hs]
  dsimp only
  rw [readDigits1_of_digits hs fun c hc ↦ (hrest c hc).1]
  rfl

theorem readExponent_cons (hc : c = 'e' ∨ c = 'E') (input : List Char) :
    readExponent (c :: input) = (do
      let (e, rest) ← readExponentDigits input
      some (some e, rest)) := by
  rcases hc with rfl | rfl <;> rfl

theorem readExponent_of_denotes {e : Option Int} (h : DenotesExponent s e) (hrest : Ends rest) :
    readExponent (s ++ rest) = some (e, rest) := by
  have hdigits : ∀ c ∈ rest.head?, c.isDigit = false := fun c hc ↦ (hrest c hc).1
  cases h with
  | absent => exact readExponent_of_ends hrest
  | unsigned hletter hs =>
    rw [List.cons_append, readExponent_cons hletter, readExponentDigits_of_digits hs hrest]
    rfl
  | plus hletter hs =>
    rw [List.cons_append, List.cons_append, readExponent_cons hletter, readExponentDigits, readSign]
    dsimp only
    rw [readDigits1_of_digits hs hdigits]
    rfl
  | minus hletter hs =>
    rw [List.cons_append, List.cons_append, readExponent_cons hletter, readExponentDigits, readSign]
    dsimp only
    rw [readDigits1_of_digits hs hdigits]
    rfl

/-- What follows the digits of a number is neither a digit nor a point that is not its own. -/
theorem head?_exponent_append {e : Option Int} (h : DenotesExponent s e) (hrest : Ends rest) :
    ∀ c ∈ (s ++ rest).head?, c.isDigit = false ∧ c ≠ '.' := by
  have hletters : ∀ {letter : Char}, letter = 'e' ∨ letter = 'E' → ∀ tail : List Char,
      ∀ c ∈ (letter :: tail).head?, c.isDigit = false ∧ c ≠ '.' := by
    rintro letter (rfl | rfl) tail _ ⟨⟩ <;> decide
  cases h with
  | absent => exact fun c hc ↦ ⟨(hrest c hc).1, (hrest c hc).2.1⟩
  | unsigned hletter hs => exact hletters hletter _
  | plus hletter hs => exact hletters hletter _
  | minus hletter hs => exact hletters hletter _

theorem readFraction_of_denotes {fraction : List (Fin 10)} (h : DenotesFraction s fraction)
    (hrest : ∀ c ∈ rest.head?, c.isDigit = false ∧ c ≠ '.') :
    readFraction (s ++ rest) = some (fraction, rest) := by
  cases h with
  | absent =>
    rw [List.nil_append, readFraction]
    rintro tail rfl
    exact (hrest '.' rfl).2 rfl
  | digits hs =>
    rw [List.cons_append, readFraction, readDigits1_of_digits hs fun c hc ↦ (hrest c hc).1]
    rfl

theorem head?_fraction_append {fraction : List (Fin 10)} (h : DenotesFraction s fraction)
    (hrest : ∀ c ∈ rest.head?, c.isDigit = false ∧ c ≠ '.') :
    ∀ c ∈ (s ++ rest).head?, c.isDigit = false := by
  cases h with
  | absent => exact fun c hc ↦ (hrest c hc).1
  | digits hs =>
    rintro c ⟨⟩
    decide

theorem readWhole_of_denotes {whole : Nat} (h : DenotesWhole s whole)
    (hrest : ∀ c ∈ rest.head?, c.isDigit = false) : readWhole (s ++ rest) = some (whole, rest) := by
  cases h with
  | digits hs hzero => exact readWhole_append hs.1 hs.2 hzero hrest

theorem readParts_of_denotes {w f e : List Char} {whole : Nat} {fraction : List (Fin 10)}
    {exponent : Option Int} (hwhole : DenotesWhole w whole)
    (hfraction : DenotesFraction f fraction) (hexponent : DenotesExponent e exponent)
    (hrest : Ends rest) (negative : Bool) :
    (do
      let (whole, rest) ← readWhole (w ++ (f ++ e) ++ rest)
      let (fraction, rest) ← readFraction rest
      let (exponent, rest) ← readExponent rest
      some (({ negative, whole, fraction, exponent } : Numeral), rest))
      = some ({ negative, whole, fraction, exponent }, rest) := by
  have hbehind := head?_exponent_append hexponent hrest
  rw [List.append_assoc, List.append_assoc,
    readWhole_of_denotes hwhole (head?_fraction_append hfraction hbehind), Option.bind_eq_bind,
    Option.bind_some]
  dsimp only
  rw [readFraction_of_denotes hfraction hbehind, Option.bind_eq_bind, Option.bind_some]
  dsimp only
  rw [readExponent_of_denotes hexponent hrest]
  rfl

theorem DenotesNumeral.exists_cons {n : Numeral} (h : DenotesNumeral s n) :
    ∃ c tail, s = c :: tail ∧ (c = '-' ∨ c.isDigit = true) := by
  cases h with
  | unsigned hwhole hfraction hexponent =>
    cases hwhole with
    | digits hs hzero =>
      obtain ⟨c, tail, rfl, hc⟩ := hs.exists_cons
      exact ⟨c, _, rfl, Or.inr hc⟩
  | minus hwhole hfraction hexponent => exact ⟨_, _, rfl, Or.inl rfl⟩

theorem readNumeral_of_denotes {n : Numeral} (h : DenotesNumeral s n) (hrest : Ends rest) :
    readNumeral (s ++ rest) = some (n, rest) := by
  cases h with
  | unsigned hwhole hfraction hexponent =>
    rw [readNumeral]
    · exact readParts_of_denotes hwhole hfraction hexponent hrest false
    · -- the digits before the point have no sign in front
      intro unsigned hminus
      cases hwhole with
      | digits hs hzero =>
        obtain ⟨c, tail, rfl, hc⟩ := hs.exists_cons
        obtain ⟨rfl, -⟩ := List.cons.inj hminus
        exact absurd hc (by decide)
  | minus hwhole hfraction hexponent =>
    rw [List.cons_append, readNumeral]
    exact readParts_of_denotes hwhole hfraction hexponent hrest true

/-! ## Values -/

/-- Blanks, or nothing. -/
def Blanks (s : List Char) : Prop := ∀ c ∈ s, isBlank c = true

/-- A value that is neither an array nor an object. -/
inductive DenotesScalar : List Char → Json → Prop
  | null : DenotesScalar ['n', 'u', 'l', 'l'] .null
  | yes : DenotesScalar ['t', 'r', 'u', 'e'] (.bool true)
  | no : DenotesScalar ['f', 'a', 'l', 's', 'e'] (.bool false)
  | string {s : List Char} {pieces : List Piece} (h : DenotesPieces s pieces) :
    DenotesScalar ('"' :: s) (.string pieces)
  | number {s : List Char} {n : Numeral} (h : DenotesNumeral s n) : DenotesScalar s (.number n)

/-- The name of a member and the colon behind it, with the blanks around the colon. -/
inductive DenotesName : List Char → List Piece → Prop
  | name {s before behind : List Char} {pieces : List Piece} (h : DenotesPieces s pieces)
    (hbefore : Blanks before) (hbehind : Blanks behind) :
    DenotesName ('"' :: (s ++ (before ++ ':' :: behind))) pieces

mutual

/-- The text `s` denotes the value `v`. No blanks stand around it. -/
inductive Denotes : List Char → Json → Prop
  | scalar {s : List Char} {v : Json} (h : DenotesScalar s v) : Denotes s v
  | emptyArray {blanks : List Char} (hblanks : Blanks blanks) :
    Denotes ('[' :: (blanks ++ [']'])) (.array [])
  | array {blanks s tail : List Char} {item : Json} {items : List Json} (hblanks : Blanks blanks)
    (hitem : Denotes s item) (hitems : DenotesItems tail items) :
    Denotes ('[' :: (blanks ++ (s ++ tail))) (.array (item :: items))
  | emptyObject {blanks : List Char} (hblanks : Blanks blanks) :
    Denotes ('{' :: (blanks ++ ['}'])) (.object [])
  | object {blanks head s tail : List Char} {name : List Piece} {value : Json}
    {members : List (List Piece × Json)} (hblanks : Blanks blanks) (hname : DenotesName head name)
    (hvalue : Denotes s value) (hmembers : DenotesMembers tail members) :
    Denotes ('{' :: (blanks ++ (head ++ (s ++ tail)))) (.object ((name, value) :: members))

/-- What stands behind an item: the further items, and the bracket behind the last. -/
inductive DenotesItems : List Char → List Json → Prop
  | close {blanks : List Char} (hblanks : Blanks blanks) : DenotesItems (blanks ++ [']']) []
  | more {before behind s tail : List Char} {item : Json} {items : List Json}
    (hbefore : Blanks before) (hbehind : Blanks behind) (hitem : Denotes s item)
    (hitems : DenotesItems tail items) :
    DenotesItems (before ++ ',' :: (behind ++ (s ++ tail))) (item :: items)

/-- What stands behind a member: the further members, and the brace behind the last. -/
inductive DenotesMembers : List Char → List (List Piece × Json) → Prop
  | close {blanks : List Char} (hblanks : Blanks blanks) : DenotesMembers (blanks ++ ['}']) []
  | more {before behind head s tail : List Char} {name : List Piece} {value : Json}
    {members : List (List Piece × Json)} (hbefore : Blanks before) (hbehind : Blanks behind)
    (hname : DenotesName head name) (hvalue : Denotes s value)
    (hmembers : DenotesMembers tail members) :
    DenotesMembers (before ++ ',' :: (behind ++ (head ++ (s ++ tail)))) ((name, value) :: members)

end

/-! ## Blanks -/

theorem Blanks.nil : Blanks [] := nofun

theorem Blanks.space : Blanks [' '] := List.forall_mem_singleton.mpr rfl

theorem skipBlanks_cons (hc : ¬isBlank c = true) (s : List Char) : skipBlanks (c :: s) = c :: s :=
  List.dropWhile_cons_of_neg hc

theorem skipBlanks_append (hblanks : Blanks blanks) (hc : ¬isBlank c = true) (s : List Char) :
    skipBlanks (blanks ++ c :: s) = c :: s := by
  rw [skipBlanks, List.dropWhile_append_of_pos hblanks]
  exact skipBlanks_cons hc s

theorem skipBlanks_closing (hblanks : Blanks blanks) (hc : ¬isBlank c = true)
    (rest : List Char) : skipBlanks (blanks ++ [c] ++ rest) = c :: rest := by
  rw [List.append_assoc]
  exact skipBlanks_append hblanks hc rest

theorem ends_blanks_append (hblanks : Blanks blanks) (hrest : Ends rest) :
    Ends (blanks ++ rest) := by
  cases blanks with
  | nil => exact hrest
  | cons c blanks =>
    have hc := hblanks c List.mem_cons_self
    rintro _ ⟨⟩
    refine ⟨?_, ?_, ?_, ?_⟩
    · exact Bool.eq_false_iff.mpr fun hdigit ↦ not_isBlank_of_isDigit hdigit hc
    all_goals
      rintro rfl
      exact absurd hc (by decide)

theorem DenotesItems.ends {items : List Json} (h : DenotesItems s items) (rest : List Char) :
    Ends (s ++ rest) := by
  cases h with
  | close hblanks =>
    rw [List.append_assoc]
    exact ends_blanks_append hblanks (ends_bracket rest)
  | more hbefore hbehind hitem hitems =>
    rw [List.append_assoc]
    exact ends_blanks_append hbefore (ends_comma _)

theorem DenotesMembers.ends {members : List (List Piece × Json)} (h : DenotesMembers s members)
    (rest : List Char) : Ends (s ++ rest) := by
  cases h with
  | close hblanks =>
    rw [List.append_assoc]
    exact ends_blanks_append hblanks (ends_brace rest)
  | more hbefore hbehind hname hvalue hmembers =>
    rw [List.append_assoc]
    exact ends_blanks_append hbefore (ends_comma _)

/-! ## Scalars and names -/

theorem DenotesScalar.exists_cons (h : DenotesScalar s v) :
    ∃ c tail, s = c :: tail ∧ ¬isBlank c = true ∧ c ≠ '[' ∧ c ≠ '{' ∧ c ≠ ']' := by
  cases h with
  | null => exact ⟨_, _, rfl, by decide⟩
  | yes => exact ⟨_, _, rfl, by decide⟩
  | no => exact ⟨_, _, rfl, by decide⟩
  | string h => exact ⟨_, _, rfl, by decide⟩
  | number h =>
    obtain ⟨c, tail, rfl, hc⟩ := h.exists_cons
    refine ⟨c, tail, rfl, ?_, ?_, ?_, ?_⟩
    · rcases hc with rfl | hc
      · decide
      · exact not_isBlank_of_isDigit hc
    all_goals
      rintro rfl
      exact absurd hc (by decide)

theorem readScalar_of_denotes (h : DenotesScalar s v) (hrest : Ends rest) :
    readScalar (s ++ rest) = some (v, rest) := by
  cases h with
  | null => rfl
  | yes => rfl
  | no => rfl
  | string h =>
    rw [List.cons_append, readScalar, readPieces_of_denotes h]
    rfl
  | number h =>
    have hread := readNumeral_of_denotes h hrest
    obtain ⟨c, tail, rfl, hc⟩ := h.exists_cons
    rw [List.cons_append] at hread ⊢
    rw [readScalar_of_isDigit hc, hread]
    rfl

theorem Denotes.exists_cons (h : Denotes s v) :
    ∃ c tail, s = c :: tail ∧ ¬isBlank c = true ∧ c ≠ ']' := by
  cases h with
  | scalar h =>
    obtain ⟨c, tail, rfl, hblank, -, -, hbracket⟩ := h.exists_cons
    exact ⟨c, tail, rfl, hblank, hbracket⟩
  | emptyArray hblanks => exact ⟨_, _, rfl, by decide⟩
  | array hblanks hitem hitems => exact ⟨_, _, rfl, by decide⟩
  | emptyObject hblanks => exact ⟨_, _, rfl, by decide⟩
  | object hblanks hname hvalue hmembers => exact ⟨_, _, rfl, by decide⟩

theorem skipBlanks_denotes (hblanks : Blanks blanks) (h : Denotes s v) (rest : List Char) :
    skipBlanks (blanks ++ (s ++ rest)) = s ++ rest := by
  obtain ⟨c, tail, rfl, hc, -⟩ := h.exists_cons
  exact skipBlanks_append hblanks hc _

theorem DenotesName.exists_cons {name : List Piece} (h : DenotesName s name) :
    ∃ tail, s = '"' :: tail := by
  cases h with
  | name h hbefore hbehind => exact ⟨_, rfl⟩

theorem skipBlanks_name {name : List Piece} (hblanks : Blanks blanks) (h : DenotesName s name)
    (rest : List Char) : skipBlanks (blanks ++ (s ++ rest)) = s ++ rest := by
  obtain ⟨tail, rfl⟩ := h.exists_cons
  exact skipBlanks_append hblanks (by decide) _

theorem denotesName_of_all_isPlain (hs : s.all isPlain = true) :
    DenotesName ('"' :: (s ++ ['"'] ++ [':'])) (s.map .char) :=
  .name (denotesPieces_of_all_isPlain hs) .nil .nil

theorem readName_of_denotes {name : List Piece} (h : DenotesName s name) {t : List Char}
    (hvalue : Denotes t v) (rest : List Char) :
    readName (s ++ (t ++ rest)) = some (name, t ++ rest) := by
  cases h with
  | @name s before behind pieces h hbefore hbehind =>
    have htext : '"' :: (s ++ (before ++ ':' :: behind)) ++ (t ++ rest)
        = '"' :: (s ++ (before ++ ':' :: (behind ++ (t ++ rest)))) := by simp
    have hcolon : skipBlanks (before ++ ':' :: (behind ++ (t ++ rest)))
        = ':' :: (behind ++ (t ++ rest)) := skipBlanks_append hbefore (by decide) _
    rw [htext, readName, readPieces_of_denotes h, Option.bind_eq_bind, Option.bind_some]
    dsimp only
    rw [hcolon]
    exact congrArg (fun rest ↦ some (name, rest)) (skipBlanks_denotes hbehind hvalue rest)

/-! ## Values of any depth -/

theorem readValue_scalar (h : DenotesScalar s v) (hrest : Ends rest) :
    readValue (bound + 1) (s ++ rest) = some (v, rest) := by
  have hread := readScalar_of_denotes h hrest
  obtain ⟨c, tail, rfl, -, hbracket, hbrace, -⟩ := h.exists_cons
  rw [List.cons_append] at hread ⊢
  rw [readValue, hread]
  · nofun
  · rintro _ _ - ⟨⟩
    exact hbracket rfl
  · rintro _ _ - ⟨⟩
    exact hbrace rfl

/-! ### By the next token -/

theorem readValue_emptyArray (hskip : skipBlanks input = ']' :: rest) :
    readValue (bound + 1) ('[' :: input) = some (.array [], rest) := by
  rw [readValue, hskip]
  rfl

theorem readValue_array (hskip : skipBlanks input = c :: s) (hc : c ≠ ']') :
    readValue (bound + 1) ('[' :: input) = (do
      let (item, rest) ← readValue bound (c :: s)
      let (items, rest) ← readItems bound rest
      some (.array (item :: items), rest)) := by
  rw [readValue, hskip]
  split
  · rename_i hclose
    exact absurd (List.cons.inj hclose).1 hc
  · rfl

theorem readValue_emptyObject (hskip : skipBlanks input = '}' :: rest) :
    readValue (bound + 1) ('{' :: input) = some (.object [], rest) := by
  rw [readValue, hskip]
  rfl

theorem readValue_object (hskip : skipBlanks input = '"' :: s) :
    readValue (bound + 1) ('{' :: input) = (do
      let (name, rest) ← readName ('"' :: s)
      let (value, rest) ← readValue bound rest
      let (members, rest) ← readMembers bound rest
      some (.object ((name, value) :: members), rest)) := by
  rw [readValue, hskip]
  rfl

theorem readItems_close (hskip : skipBlanks input = ']' :: rest) :
    readItems (bound + 1) input = some ([], rest) := by
  rw [readItems, hskip]
  rfl

theorem readItems_comma (hskip : skipBlanks input = ',' :: rest) :
    readItems (bound + 1) input = (do
      let (item, rest) ← readValue bound (skipBlanks rest)
      let (items, rest) ← readItems bound rest
      some (item :: items, rest)) := by
  rw [readItems, hskip]
  rfl

theorem readMembers_close (hskip : skipBlanks input = '}' :: rest) :
    readMembers (bound + 1) input = some ([], rest) := by
  rw [readMembers, hskip]
  rfl

theorem readMembers_comma (hskip : skipBlanks input = ',' :: rest) :
    readMembers (bound + 1) input = (do
      let (name, rest) ← readName (skipBlanks rest)
      let (value, rest) ← readValue bound rest
      let (members, rest) ← readMembers bound rest
      some ((name, value) :: members, rest)) := by
  rw [readMembers, hskip]
  rfl

/-! ### By levels -/

/-- Within the bound, the readers return what a text denotes and stop where it ends. -/
structure ReadsWithin (bound : Nat) : Prop where
  value : ∀ {s rest v}, Denotes s v → s.length ≤ bound → Ends rest →
    readValue bound (s ++ rest) = some (v, rest)
  items : ∀ {s items}, DenotesItems s items → s.length ≤ bound → ∀ rest,
    readItems bound (s ++ rest) = some (items, rest)
  members : ∀ {s members}, DenotesMembers s members → s.length ≤ bound → ∀ rest,
    readMembers bound (s ++ rest) = some (members, rest)

namespace ReadsWithin

variable {items : List Json} {members : List (List Piece × Json)}

theorem value_succ (h : ReadsWithin bound) (hs : Denotes s v) (hlength : s.length ≤ bound + 1)
    (hrest : Ends rest) : readValue (bound + 1) (s ++ rest) = some (v, rest) := by
  cases hs with
  | scalar hscalar => exact readValue_scalar hscalar hrest
  | emptyArray hblanks =>
    rw [List.cons_append, readValue_emptyArray (skipBlanks_closing hblanks (by decide) rest)]
  | @array blanks s tail item items hblanks hitem hitems =>
    have htext : '[' :: (blanks ++ (s ++ tail)) ++ rest
        = '[' :: (blanks ++ (s ++ (tail ++ rest))) := by simp
    simp only [List.length_cons, List.length_append] at hlength
    have hfirst := h.value hitem (by omega) (hitems.ends rest)
    have hskip := skipBlanks_denotes hblanks hitem (tail ++ rest)
    obtain ⟨c, t, hcons, -, hc⟩ := hitem.exists_cons
    rw [hcons, List.cons_append] at hfirst hskip
    rw [htext, hcons, List.cons_append, readValue_array hskip hc, hfirst, Option.bind_eq_bind,
      Option.bind_some]
    dsimp only
    rw [h.items hitems (by omega) rest]
    rfl
  | emptyObject hblanks =>
    rw [List.cons_append, readValue_emptyObject (skipBlanks_closing hblanks (by decide) rest)]
  | @object blanks head s tail name value members hblanks hname hvalue hmembers =>
    have htext : '{' :: (blanks ++ (head ++ (s ++ tail))) ++ rest
        = '{' :: (blanks ++ (head ++ (s ++ (tail ++ rest)))) := by simp
    simp only [List.length_cons, List.length_append] at hlength
    have hfirst := readName_of_denotes hname hvalue (tail ++ rest)
    obtain ⟨t, hcons⟩ := hname.exists_cons
    rw [hcons, List.cons_append] at hfirst
    rw [htext, hcons, List.cons_append,
      readValue_object (skipBlanks_append hblanks (by decide) _), hfirst, Option.bind_eq_bind,
      Option.bind_some]
    dsimp only
    rw [h.value hvalue (by omega) (hmembers.ends rest), Option.bind_eq_bind, Option.bind_some]
    dsimp only
    rw [h.members hmembers (by omega) rest]
    rfl

theorem items_succ (h : ReadsWithin bound) (hs : DenotesItems s items)
    (hlength : s.length ≤ bound + 1) (rest : List Char) :
    readItems (bound + 1) (s ++ rest) = some (items, rest) := by
  cases hs with
  | close hblanks => rw [readItems_close (skipBlanks_closing hblanks (by decide) rest)]
  | @more before behind s tail item items hbefore hbehind hitem hitems =>
    have htext : before ++ ',' :: (behind ++ (s ++ tail)) ++ rest
        = before ++ ',' :: (behind ++ (s ++ (tail ++ rest))) := by simp
    simp only [List.length_cons, List.length_append] at hlength
    rw [htext, readItems_comma (skipBlanks_append hbefore (by decide) _),
      skipBlanks_denotes hbehind hitem, h.value hitem (by omega) (hitems.ends rest),
      Option.bind_eq_bind, Option.bind_some]
    dsimp only
    rw [h.items hitems (by omega) rest]
    rfl

theorem members_succ (h : ReadsWithin bound) (hs : DenotesMembers s members)
    (hlength : s.length ≤ bound + 1) (rest : List Char) :
    readMembers (bound + 1) (s ++ rest) = some (members, rest) := by
  cases hs with
  | close hblanks => rw [readMembers_close (skipBlanks_closing hblanks (by decide) rest)]
  | @more before behind head s tail name value members hbefore hbehind hname hvalue hmembers =>
    have htext : before ++ ',' :: (behind ++ (head ++ (s ++ tail))) ++ rest
        = before ++ ',' :: (behind ++ (head ++ (s ++ (tail ++ rest)))) := by simp
    simp only [List.length_cons, List.length_append] at hlength
    rw [htext, readMembers_comma (skipBlanks_append hbefore (by decide) _),
      skipBlanks_name hbehind hname, readName_of_denotes hname hvalue, Option.bind_eq_bind,
      Option.bind_some]
    dsimp only
    rw [h.value hvalue (by omega) (hmembers.ends rest), Option.bind_eq_bind, Option.bind_some]
    dsimp only
    rw [h.members hmembers (by omega) rest]
    rfl

end ReadsWithin

/-- The bound is used up one level at a time, and each level has a character of its own. -/
theorem readsWithin (bound : Nat) : ReadsWithin bound := by
  induction bound with
  | zero =>
    constructor
    · intro s rest v hs hlength
      obtain ⟨c, tail, rfl, -⟩ := hs.exists_cons
      cases hlength
    · intro s items hs hlength
      cases hs <;> simp at hlength
    · intro s members hs hlength
      cases hs <;> simp at hlength
  | succ bound ih => exact ⟨ih.value_succ, ih.items_succ, ih.members_succ⟩

/-- **The reader is complete.** It returns the value that a text denotes, and what is left is what
stands behind the text. -/
theorem read_of_denotes (h : Denotes s v) (hrest : Ends rest) :
    read (s ++ rest) = some (v, rest) := by
  refine (readsWithin _).value h ?_ hrest
  rw [List.length_append]
  omega

end FirstHit.Json
