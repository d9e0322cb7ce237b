import FirstHit.Json.Basic

/-!
# Reading JSON

The grammar is the strict one: the only blanks are space, tab, line feed and carriage return, there
are no trailing commas, a number has no leading zero and no bare point, and a string has no control
character that is not escaped. Each reader takes the characters that are left and returns what it
read with the characters behind it, or nothing if no token of its kind starts there.

A value has at most as many values inside it as it has characters, so the length of the input bounds
the recursion. `Json.read` supplies that bound.
-/

namespace FirstHit.Json

/-- The blanks of the grammar. -/
def isBlank (c : Char) : Bool := c = ' ' || c = '\t' || c = '\n' || c = '\r'

/-- What is left behind the blanks. -/
def skipBlanks (input : List Char) : List Char := input.dropWhile isBlank

/-! ## Strings -/

/-- The value of a hexadecimal digit. -/
def hexDigit? (c : Char) : Option Nat :=
  if '0' ≤ c ∧ c ≤ '9' then some (c.toNat - '0'.toNat)
  else if 'a' ≤ c ∧ c ≤ 'f' then some (c.toNat - 'a'.toNat + 10)
  else if 'A' ≤ c ∧ c ≤ 'F' then some (c.toNat - 'A'.toNat + 10)
  else none

/-- The code unit that four hexadecimal digits write. -/
def unit? (a b c d : Char) : Option UInt16 := do
  let a ← hexDigit? a
  let b ← hexDigit? b
  let c ← hexDigit? c
  let d ← hexDigit? d
  some (UInt16.ofNat (((a * 16 + b) * 16 + c) * 16 + d))

/-- The character that a letter stands for behind a backslash. -/
def escape? : Char → Option Char
  | '"' => some '"'
  | '\\' => some '\\'
  | '/' => some '/'
  | 'b' => some '\x08'
  | 'f' => some '\x0c'
  | 'n' => some '\n'
  | 'r' => some '\r'
  | 't' => some '\t'
  | _ => none

/-- The rest of a string behind its opening quote. -/
def readPieces : List Char → Option (List Piece × List Char)
  | [] => none
  | '"' :: input => some ([], input)
  | '\\' :: 'u' :: a :: b :: c :: d :: input => do
    let u ← unit? a b c d
    let (pieces, rest) ← readPieces input
    some (.unit u :: pieces, rest)
  | '\\' :: letter :: input => do
    let c ← escape? letter
    let (pieces, rest) ← readPieces input
    some (.char c :: pieces, rest)
  | c :: input =>
    if c = '\\' ∨ c.toNat < 0x20 then none
    else do
      let (pieces, rest) ← readPieces input
      some (.char c :: pieces, rest)

/-! ## Numbers -/

/-- The digits at the start, and what is behind them. -/
def readDigits (input : List Char) : List Char × List Char := input.span Char.isDigit

/-- At least one digit, and what is behind the digits. -/
def readDigits1 (input : List Char) : Option (List Char × List Char) :=
  match readDigits input with
  | ([], _) => none
  | (digits, rest) => some (digits, rest)

/-- The digits before the point. A zero stands alone. -/
def readWhole (input : List Char) : Option (Nat × List Char) := do
  let (digits, rest) ← readDigits1 input
  if digits.head? = some '0' ∧ digits.length ≠ 1 then none
  else some (Nat.ofDigitChars 10 digits 0, rest)

/-- The digits behind the point, if there is one. -/
def readFraction : List Char → Option (List (Fin 10) × List Char)
  | '.' :: input => do
    let (digits, rest) ← readDigits1 input
    some (digits.map fun c ↦ Fin.ofNat 10 (c.toNat - '0'.toNat), rest)
  | input => some ([], input)

/-- A plus or a minus sign, if there is one. -/
def readSign : List Char → Bool × List Char
  | '-' :: input => (true, input)
  | '+' :: input => (false, input)
  | input => (false, input)

/-- The digits of an exponent, behind its letter. -/
def readExponentDigits (input : List Char) : Option (Int × List Char) := do
  let (negative, unsigned) := readSign input
  let (digits, rest) ← readDigits1 unsigned
  let n : Int := Nat.ofDigitChars 10 digits 0
  some (if negative then -n else n, rest)

/-- The exponent, if there is one. -/
def readExponent : List Char → Option (Option Int × List Char)
  | 'e' :: input => do
    let (e, rest) ← readExponentDigits input
    some (some e, rest)
  | 'E' :: input => do
    let (e, rest) ← readExponentDigits input
    some (some e, rest)
  | input => some (none, input)

/-- A number. -/
def readNumeral (input : List Char) : Option (Numeral × List Char) := do
  let (negative, unsigned) :=
    match input with
    | '-' :: unsigned => (true, unsigned)
    | _ => (false, input)
  let (whole, rest) ← readWhole unsigned
  let (fraction, rest) ← readFraction rest
  let (exponent, rest) ← readExponent rest
  some ({ negative, whole, fraction, exponent }, rest)

/-! ## Values -/

/-- A value that is neither an array nor an object. -/
def readScalar : List Char → Option (Json × List Char)
  | 'n' :: 'u' :: 'l' :: 'l' :: rest => some (.null, rest)
  | 't' :: 'r' :: 'u' :: 'e' :: rest => some (.bool true, rest)
  | 'f' :: 'a' :: 'l' :: 's' :: 'e' :: rest => some (.bool false, rest)
  | '"' :: input => do
    let (pieces, rest) ← readPieces input
    some (.string pieces, rest)
  | input => do
    let (n, rest) ← readNumeral input
    some (.number n, rest)

/-- The name of a member, the colon behind it, and the blanks around the colon. -/
def readName : List Char → Option (List Piece × List Char)
  | '"' :: input => do
    let (name, rest) ← readPieces input
    match skipBlanks rest with
    | ':' :: rest => some (name, skipBlanks rest)
    | _ => none
  | _ => none

mutual

/-- A value. No blanks precede it. -/
def readValue : (bound : Nat) → List Char → Option (Json × List Char)
  | 0, _ => none
  | bound + 1, '[' :: input =>
    match skipBlanks input with
    | ']' :: rest => some (.array [], rest)
    | input => do
      let (item, rest) ← readValue bound input
      let (items, rest) ← readItems bound rest
      some (.array (item :: items), rest)
  | bound + 1, '{' :: input =>
    match skipBlanks input with
    | '}' :: rest => some (.object [], rest)
    | input => do
      let (name, rest) ← readName input
      let (value, rest) ← readValue bound rest
      let (members, rest) ← readMembers bound rest
      some (.object ((name, value) :: members), rest)
  | _, input => readScalar input

/-- The items behind the first, and the bracket behind the last. -/
def readItems : (bound : Nat) → List Char → Option (List Json × List Char)
  | 0, _ => none
  | bound + 1, input =>
    match skipBlanks input with
    | ']' :: rest => some ([], rest)
    | ',' :: rest => do
      let (item, rest) ← readValue bound (skipBlanks rest)
      let (items, rest) ← readItems bound rest
      some (item :: items, rest)
    | _ => none

/-- The members behind the first, and the brace behind the last. -/
def readMembers : (bound : Nat) → List Char → Option (List (List Piece × Json) × List Char)
  | 0, _ => none
  | bound + 1, input =>
    match skipBlanks input with
    | '}' :: rest => some ([], rest)
    | ',' :: rest => do
      let (name, rest) ← readName (skipBlanks rest)
      let (value, rest) ← readValue bound rest
      let (members, rest) ← readMembers bound rest
      some ((name, value) :: members, rest)
    | _ => none

end

/-- A value at the start of the input, and what is behind it. -/
def read (input : List Char) : Option (Json × List Char) :=
  readValue (input.length + 1) input

/-- The value of a whole text. -/
def ofText? (text : String) : Option Json := do
  let (value, rest) ← read (skipBlanks text.toList)
  if (skipBlanks rest).isEmpty then some value else none

end FirstHit.Json
