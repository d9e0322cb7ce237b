import FirstHit.Json.Basic

/-!
# Writing JSON

Values are written compactly: no blanks, members and items in order. A character is written as
itself unless the grammar forbids it, and a code unit as its four digits.
-/

namespace FirstHit.Json

/-! ## Strings -/

/-- A code unit as four hexadecimal digits. -/
def hex4 (u : UInt16) : List Char :=
  [u.toNat / 4096, u.toNat / 256 % 16, u.toNat / 16 % 16, u.toNat % 16].map Nat.digitChar

/-- One piece of a string, between the quotes. -/
def Piece.render : Piece → List Char
  | .char c =>
    if c = '"' ∨ c = '\\' then ['\\', c]
    else if c.toNat < 0x20 then '\\' :: 'u' :: hex4 (UInt16.ofNat c.toNat)
    else [c]
  | .unit u => '\\' :: 'u' :: hex4 u

/-- A string with its quotes. -/
def renderString (pieces : List Piece) : List Char :=
  '"' :: pieces.flatMap Piece.render ++ ['"']

/-! ## Numbers -/

/-- A natural number in decimal digits. -/
def renderNat (n : Nat) : List Char := Nat.toDigits 10 n

/-- A number as it was written. -/
def Numeral.render (n : Numeral) : List Char :=
  (if n.negative then ['-'] else []) ++ renderNat n.whole ++
    (if n.fraction.isEmpty then []
      else '.' :: n.fraction.map fun (d : Fin 10) ↦ Nat.digitChar d.val) ++
    match n.exponent with
    | none => []
    | some e => 'e' :: (if e < 0 then ['-'] else []) ++ renderNat e.natAbs

/-! ## Values -/

mutual

/-- A value. -/
def render : Json → List Char
  | .null => ['n', 'u', 'l', 'l']
  | .bool true => ['t', 'r', 'u', 'e']
  | .bool false => ['f', 'a', 'l', 's', 'e']
  | .number n => n.render
  | .string pieces => renderString pieces
  | .array [] => ['[', ']']
  | .array (item :: items) => '[' :: item.render ++ renderItems items
  | .object [] => ['{', '}']
  | .object ((name, value) :: members) =>
    '{' :: renderString name ++ ':' :: value.render ++ renderMembers members

/-- The items behind the first, and the bracket behind the last. -/
def renderItems : List Json → List Char
  | [] => [']']
  | item :: items => ',' :: item.render ++ renderItems items

/-- The members behind the first, and the brace behind the last. -/
def renderMembers : List (List Piece × Json) → List Char
  | [] => ['}']
  | (name, value) :: members =>
    ',' :: renderString name ++ ':' :: value.render ++ renderMembers members

end

/-- A value as a string. -/
def toText (j : Json) : String := String.ofList j.render

end FirstHit.Json
