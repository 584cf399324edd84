/-!
# Rounding a quotient

The whole number nearest to a quotient of natural numbers, where a quotient halfway between two
whole numbers goes to the even one.

* `roundHalfEven_mul`: a whole quotient is left alone.
* `roundHalfEven_near`: the result is at most half a unit away from the quotient.
-/

namespace NaturalLanguage.Decimal

/-- The whole number nearest to `num / den`; halfway, the even neighbour. -/
def roundHalfEven (num den : Nat) : Nat :=
  let floor := num / den
  let twice := 2 * (num % den)
  if twice < den ∨ (twice = den ∧ floor % 2 = 0) then floor else floor + 1

theorem roundHalfEven_mul (n : Nat) {den : Nat} (h : 0 < den) : roundHalfEven (n * den) den = n := by
  simp [roundHalfEven, Nat.mul_div_cancel _ h, h]

/-- The result is at most half a unit away from the quotient. -/
theorem roundHalfEven_near (num den : Nat) (h : 0 < den) :
    2 * num ≤ (2 * roundHalfEven num den + 1) * den ∧
      2 * roundHalfEven num den * den ≤ 2 * num + den := by
  have hsplit := Nat.div_add_mod num den
  have hlt := Nat.mod_lt num h
  simp only [roundHalfEven]
  generalize num / den = floor at hsplit ⊢
  generalize num % den = rest at hsplit hlt ⊢
  -- every product is a multiple of `den * floor`
  have hfloor : floor * den = den * floor := Nat.mul_comm _ _
  split
  · next hdown =>
    simp only [Nat.add_mul, Nat.mul_assoc, Nat.one_mul, hfloor]
    omega
  · next hup =>
    simp only [Nat.add_mul, Nat.mul_add, Nat.mul_assoc, Nat.one_mul, Nat.mul_one, hfloor]
    omega

end NaturalLanguage.Decimal
