/-!
# Rounding to double precision

A double has 53 significant bits. A natural number with more is rounded to the nearest number that
has no more, and one that lies halfway goes to the neighbour whose last significant bit is zero.
From `2 ^ 1024` on, a rounded number stands for infinity.

Only natural numbers are needed here, so rounding is integer division by the unit of the last
significant bit, and no floating-point operation takes part.
-/

namespace FirstHit.Double

/-- The number of significant bits. -/
def precision : Nat := 53

/-- The value of the last significant bit of `n`. -/
def unit (n : Nat) : Nat := 1 <<< (n.log2 + 1 - precision)

/-- The quotient of `n` by `u`, to the nearest integer, and from halfway to the even one. -/
def nearest (n u : Nat) : Nat :=
  if 2 * (n % u) < u then n / u
  else if u < 2 * (n % u) then n / u + 1
  else n / u + n / u % 2

/-- The number with 53 significant bits that is nearest to `n`. -/
def round (n : Nat) : Nat := nearest n (unit n) * unit n

/-- Whether `n`, once rounded, is a double. -/
def IsFinite (n : Nat) : Prop := round n < 1 <<< 1024

instance (n : Nat) : Decidable (IsFinite n) := inferInstanceAs (Decidable (_ < _))

theorem unit_pos (n : Nat) : 0 < unit n := by
  rw [unit, Nat.one_shiftLeft]
  exact Nat.two_pow_pos _

/-- The nearest quotient is within half a unit. -/
theorem nearest_near (n : Nat) {u : Nat} (hu : 0 < u) :
    2 * (nearest n u * u) ≤ 2 * n + u ∧ 2 * n ≤ 2 * (nearest n u * u) + u := by
  have hn : u * (n / u) + n % u = n := Nat.div_add_mod n u
  have hr : n % u < u := Nat.mod_lt n hu
  have hq : n / u * u = u * (n / u) := Nat.mul_comm _ _
  have hq1 : (n / u + 1) * u = u * (n / u) + u := by rw [Nat.add_mul, Nat.one_mul, hq]
  rw [nearest]
  split
  case isTrue => omega
  case isFalse =>
    split
    case isTrue => omega
    case isFalse =>
      rcases Nat.mod_two_eq_zero_or_one (n / u) with h | h
      · rw [h, Nat.add_zero]
        omega
      · rw [h]
        omega

/-- From halfway, the nearest quotient is even. -/
theorem nearest_even {n u : Nat} (h : 2 * (n % u) = u) : nearest n u % 2 = 0 := by
  rw [nearest, h, if_neg (Nat.lt_irrefl u), if_neg (Nat.lt_irrefl u)]
  omega

end FirstHit.Double
