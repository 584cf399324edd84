/-!
# Powers with integer exponents

A number `n * base ^ exponent` with an integer exponent is the quotient of `n * power base exponent`
and `power base (-exponent)`: one of the two powers is one.

* `power_of_nonpos`: the power is one for an exponent that is not positive.
* `power_pos`: no power of a positive base is zero.
-/

namespace NaturalLanguage.Decimal

/-- The power of a base, one for negative exponents. -/
def power (base : Nat) (exponent : Int) : Nat := Nat.pow base exponent.toNat

theorem power_of_nonpos (base : Nat) {exponent : Int} (h : exponent ≤ 0) :
    power base exponent = 1 := by
  rw [power, Int.toNat_of_nonpos h]
  rfl

theorem power_pos {base : Nat} (h : 0 < base) (exponent : Int) : 0 < power base exponent :=
  Nat.pow_pos h

end NaturalLanguage.Decimal
