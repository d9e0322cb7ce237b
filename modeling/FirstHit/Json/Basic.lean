/-!
# JSON values as written

A JSON text denotes a value, but a reader that is asked for a word or a switch must know more than
the value: whether a number was written with a fraction, an exponent or a sign, and whether an
escaped code unit stands for a character. The values here keep that much of the writing. Blanks
between tokens, redundant digits and the choice between equivalent escapes of a control character
are not kept.

Strings are lists of pieces. An escaped code unit is one piece, so a string may hold half of a
surrogate pair; the grammar allows it, and only a reader that wants the text of the string refuses
it, which is what `Json.text?` does.
-/

namespace FirstHit

namespace Json

/-! ## Strings -/

/-- A part of a string: a character, or a code unit that is written as four digits. -/
inductive Piece where
  | char (c : Char)
  | unit (u : UInt16)
deriving DecidableEq

/-- The code units that start a surrogate pair. -/
def isHighSurrogate (u : UInt16) : Bool := 0xD800 ≤ u && u < 0xDC00

/-- The code units that end a surrogate pair. -/
def isLowSurrogate (u : UInt16) : Bool := 0xDC00 ≤ u && u < 0xE000

/-- The character that a surrogate pair stands for. -/
def ofSurrogates (high low : UInt16) : Char :=
  Char.ofNat (0x10000 + (high.toNat - 0xD800) * 0x400 + (low.toNat - 0xDC00))

/-- The characters that a string stands for, unless it holds half of a surrogate pair. -/
def text? : List Piece → Option (List Char)
  | [] => some []
  | .char c :: pieces => (c :: ·) <$> text? pieces
  | .unit u :: .unit v :: pieces =>
    if isHighSurrogate u then
      if isLowSurrogate v then (ofSurrogates u v :: ·) <$> text? pieces else none
    else if isLowSurrogate u then none
    else (Char.ofNat u.toNat :: ·) <$> text? (.unit v :: pieces)
  | .unit u :: pieces =>
    if isHighSurrogate u || isLowSurrogate u then none
    else (Char.ofNat u.toNat :: ·) <$> text? pieces

/-- The string that stands for the given characters, none of them as a code unit. -/
def pieces (s : String) : List Piece := s.toList.map .char

/-! ## Numbers -/

/-- A number as written. -/
structure Numeral where
  /-- Whether it starts with a minus sign. -/
  negative : Bool := false
  /-- The part before the point. -/
  whole : Nat
  /-- The digits behind the point; there is no point if there are none. -/
  fraction : List (Fin 10) := []
  /-- The exponent of ten, if one is written. -/
  exponent : Option Int := none
deriving DecidableEq

namespace Numeral

/-- The natural number written, if the number is written as one: without sign, point or
exponent. -/
def nat? (n : Numeral) : Option Nat :=
  if n.negative || !n.fraction.isEmpty || n.exponent.isSome then none else some n.whole

/-- The machine word written, if the number is written as a natural number and fits. -/
def word? (n : Numeral) : Option UInt64 :=
  match n.nat? with
  | some k => if k < UInt64.size then some (UInt64.ofNat k) else none
  | none => none

end Numeral

end Json

/-! ## Values -/

/-- A JSON value. The members of an object are kept in order, repeated names included. -/
inductive Json where
  | null
  | bool (value : Bool)
  | number (numeral : Json.Numeral)
  | string (pieces : List Json.Piece)
  | array (items : List Json)
  | object (members : List (List Json.Piece × Json))

namespace Json

/-- The string with the given characters. -/
def ofString (s : String) : Json := .string (pieces s)

/-- The number of the given natural number. -/
def ofNat (n : Nat) : Json := .number { whole := n }

/-- The object with the given members. -/
def ofMembers (members : List (String × Json)) : Json :=
  .object (members.map fun m ↦ (pieces m.1, m.2))

end Json

end FirstHit
