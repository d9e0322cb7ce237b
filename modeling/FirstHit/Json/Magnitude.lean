import FirstHit.Double
import FirstHit.Json.Basic

/-!
# The magnitude of a number

A number is interpreted in double precision, by one multiplication. Its digits are gathered into a
machine word as long as they fit. A digit before the point that does not fit counts for the power of
ten only; from the first digit behind the point that does not fit, the digits are dropped. The word,
the power of ten and the product of the two are each rounded, and the number is out of range if the
product is infinite, or if the power alone is.

The digits that are dropped and the three roundings make this differ from rounding the number that
is written. Next to the greatest double, a number may be in range while a smaller one is not.
-/

namespace FirstHit.Json.Numeral

/-- Appends digits to a word as long as the result is a word, and returns the word with the digits
that are left. -/
def gather : Nat → List Nat → Nat × List Nat
  | word, [] => (word, [])
  | word, d :: digits =>
    if 10 * word + d < UInt64.size then gather (10 * word + d) digits else (word, d :: digits)

/-- The digits before the point. -/
def wholeDigits (n : Numeral) : List Nat :=
  (Nat.toDigits 10 n.whole).map fun c ↦ c.toNat - '0'.toNat

/-- The word that the digits are gathered into, and the power of ten that scales it. -/
def scaledWord (n : Numeral) : Nat × Int :=
  let (whole, skipped) := gather 0 n.wholeDigits
  let (word, dropped) := gather whole (n.fraction.map Fin.val)
  (word, skipped.length - (n.fraction.length - dropped.length : Nat) + n.exponent.getD 0)

/-- The greatest power of ten that is a double. -/
def maxPower : Int := 308

/-- Whether the number is in range. -/
def isFinite (n : Numeral) : Bool :=
  let (word, power) := n.scaledWord
  if word = 0 ∨ power ≤ 0 then true
  else if maxPower < power then false
  else Double.IsFinite (Double.round word * Double.round (Nat.pow 10 power.toNat))

end FirstHit.Json.Numeral
