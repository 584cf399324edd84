import Mathlib.Algebra.Ring.Nat
import NaturalLanguage.Decimal.Rounding

/-!
# Rounding keeps the order

A product of two double precision numbers from zero to one is a whole number of units `2 ^ -2148`,
and the nearest double precision number is found by dropping binary digits from that number: as many
as leave 53 digits, but at least the 1074 digits below the least positive number. A larger product
may drop more digits, so that the order of two rounded products does not follow from the order of
their mantissas alone.

* `roundHalfEven_mono`: the rounded quotients by one number are ordered as their numerators.
* `droppedDigits`, `roundProduct`: the rounded product, in units of `2 ^ -1074`.
* `roundProduct_mono`, `roundProduct_le`: rounded products keep their order, and those of numbers up
  to one are at most one.
-/

namespace NaturalLanguage.Decimal

theorem div_le_roundHalfEven (num den : Nat) : num / den ≤ roundHalfEven num den := by
  simp only [roundHalfEven]
  split <;> omega

theorem roundHalfEven_le_succ (num den : Nat) : roundHalfEven num den ≤ num / den + 1 := by
  simp only [roundHalfEven]
  split <;> omega

/-- A larger numerator does not give a smaller rounded quotient. -/
theorem roundHalfEven_mono {num num' : Nat} (den : Nat) (h : num ≤ num') :
    roundHalfEven num den ≤ roundHalfEven num' den := by
  have hdiv : num / den ≤ num' / den := Nat.div_le_div_right h
  rcases Nat.lt_or_eq_of_le hdiv with hlt | heq
  · calc roundHalfEven num den ≤ num / den + 1 := roundHalfEven_le_succ num den
      _ ≤ num' / den := hlt
      _ ≤ roundHalfEven num' den := div_le_roundHalfEven num' den
  · -- with equal whole parts the larger numerator has the larger rest
    have hrest : num % den ≤ num' % den := by
      have hnum := Nat.div_add_mod num den
      have hnum' := Nat.div_add_mod num' den
      rw [heq] at hnum
      omega
    simp only [roundHalfEven, heq]
    split <;> split <;> omega

/-- A common factor does not change the rounded quotient. -/
theorem roundHalfEven_mul_mul (num den : Nat) {factor : Nat} (h : 0 < factor) :
    roundHalfEven (num * factor) (den * factor) = roundHalfEven num den := by
  have hlt : 2 * (num % den * factor) < den * factor ↔ 2 * (num % den) < den := by
    rw [← Nat.mul_assoc]
    exact Nat.mul_lt_mul_right h
  have heq : 2 * (num % den * factor) = den * factor ↔ 2 * (num % den) = den := by
    rw [← Nat.mul_assoc]
    exact Nat.mul_left_inj (Nat.ne_of_gt h)
  simp only [roundHalfEven, Nat.mul_div_mul_right _ _ h, Nat.mul_mod_mul_right, hlt, heq]

@[simp] theorem roundHalfEven_zero (den : Nat) : roundHalfEven 0 den = 0 := by
  rcases Nat.eq_zero_or_pos den with rfl | h
  · rfl
  · simp [roundHalfEven, h]

/-! ### Products in units of the least one -/

/-- One, in units of `2 ^ -1074`. -/
def unitsOfOne : Nat := 2 ^ 1074

/-- How many binary digits of a product, in units of `2 ^ -2148`, the nearest double precision
number does not keep. -/
def droppedDigits (n : Nat) : Nat := max (n.log2 + 1 - 53) 1074

/-- The double precision number nearest to a product of `n` units of `2 ^ -2148`, in units of
`2 ^ -1074`. -/
def roundProduct (n : Nat) : Nat :=
  roundHalfEven n (2 ^ droppedDigits n) * 2 ^ (droppedDigits n - 1074)

theorem le_droppedDigits (n : Nat) : 1074 ≤ droppedDigits n := Nat.le_max_right _ _

/-- At most 53 digits are kept. -/
theorem lt_two_pow_droppedDigits (n : Nat) : n < 2 ^ (droppedDigits n + 53) := by
  refine Nat.lt_of_lt_of_le Nat.lt_log2_self (Nat.pow_le_pow_right (by decide) ?_)
  rw [droppedDigits]
  omega

/-- Exactly 53 digits are kept unless only those below the least positive number are dropped. -/
theorem two_pow_le_of_droppedDigits {n : Nat} (h : droppedDigits n ≠ 1074) :
    2 ^ (droppedDigits n + 52) ≤ n := by
  have hlog : droppedDigits n + 52 = n.log2 := by
    rw [droppedDigits] at h ⊢
    omega
  rw [hlog]
  apply Nat.log2_self_le
  rintro rfl
  exact h (by decide)

theorem droppedDigits_mono {n n' : Nat} (h : n ≤ n') : droppedDigits n ≤ droppedDigits n' := by
  by_cases hdropped : droppedDigits n = 1074
  · rw [hdropped]
    exact le_droppedDigits n'
  · have hpow : 2 ^ (droppedDigits n + 52) < 2 ^ (droppedDigits n' + 53) :=
      calc 2 ^ (droppedDigits n + 52) ≤ n := two_pow_le_of_droppedDigits hdropped
        _ ≤ n' := h
        _ < 2 ^ (droppedDigits n' + 53) := lt_two_pow_droppedDigits n'
    have := (Nat.pow_lt_pow_iff_right (by decide)).1 hpow
    omega

/-- The kept digits are rounded up to at most the next power of two. -/
theorem roundHalfEven_droppedDigits_le (n : Nat) :
    roundHalfEven n (2 ^ droppedDigits n) ≤ 2 ^ 53 := by
  have hdiv : n / 2 ^ droppedDigits n < 2 ^ 53 := by
    apply Nat.div_lt_of_lt_mul
    rw [← Nat.pow_add]
    exact lt_two_pow_droppedDigits n
  have := roundHalfEven_le_succ n (2 ^ droppedDigits n)
  omega

/-- The kept digits begin with a one, unless only those below the least positive number are
dropped. -/
theorem le_roundHalfEven_droppedDigits {n : Nat} (h : droppedDigits n ≠ 1074) :
    2 ^ 52 ≤ roundHalfEven n (2 ^ droppedDigits n) := by
  refine Nat.le_trans ?_ (div_le_roundHalfEven _ _)
  rw [Nat.le_div_iff_mul_le (Nat.two_pow_pos _), ← Nat.pow_add, Nat.add_comm]
  exact two_pow_le_of_droppedDigits h

/-- A larger product does not round to a smaller number. -/
theorem roundProduct_mono {n n' : Nat} (h : n ≤ n') : roundProduct n ≤ roundProduct n' := by
  have hleast := le_droppedDigits n
  rcases Nat.lt_or_eq_of_le (droppedDigits_mono h) with hlt | heq
  · -- the smaller product rounds to at most a power of two that the larger one does not go below
    calc roundProduct n ≤ 2 ^ 53 * 2 ^ (droppedDigits n - 1074) :=
          Nat.mul_le_mul_right _ (roundHalfEven_droppedDigits_le n)
      _ = 2 ^ (53 + (droppedDigits n - 1074)) := (Nat.pow_add 2 _ _).symm
      _ ≤ 2 ^ (52 + (droppedDigits n' - 1074)) :=
          Nat.pow_le_pow_right (by decide) (by omega)
      _ = 2 ^ 52 * 2 ^ (droppedDigits n' - 1074) := Nat.pow_add 2 _ _
      _ ≤ roundProduct n' :=
          Nat.mul_le_mul_right _ (le_roundHalfEven_droppedDigits (by omega))
  · rw [roundProduct, roundProduct, heq]
    exact Nat.mul_le_mul_right _ (roundHalfEven_mono _ h)

@[simp] theorem roundProduct_zero : roundProduct 0 = 0 := by
  rw [roundProduct, roundHalfEven_zero, Nat.zero_mul]

/-- Powers of two from the least positive number on are rounded products themselves. -/
theorem roundProduct_two_pow (k : Nat) : roundProduct (2 ^ (k + 1074)) = 2 ^ k := by
  have hdropped : droppedDigits (2 ^ (k + 1074)) ≤ k + 1074 := by
    rw [droppedDigits, Nat.log2_two_pow]
    omega
  have hleast := le_droppedDigits (2 ^ (k + 1074))
  obtain ⟨kept, hkept⟩ := Nat.exists_eq_add_of_le' hdropped
  -- only zeros are dropped
  have hpow : 2 ^ (k + 1074) = 2 ^ kept * 2 ^ droppedDigits (2 ^ (k + 1074)) := by
    rw [← Nat.pow_add, ← hkept]
  have hexponent : kept + (droppedDigits (2 ^ (k + 1074)) - 1074) = k := by omega
  calc roundProduct (2 ^ (k + 1074))
      = roundHalfEven (2 ^ kept * 2 ^ droppedDigits (2 ^ (k + 1074)))
          (2 ^ droppedDigits (2 ^ (k + 1074))) * 2 ^ (droppedDigits (2 ^ (k + 1074)) - 1074) := by
        rw [← hpow, roundProduct]
    _ = 2 ^ kept * 2 ^ (droppedDigits (2 ^ (k + 1074)) - 1074) := by
        rw [roundHalfEven_mul _ (Nat.two_pow_pos _)]
    _ = 2 ^ k := by rw [← Nat.pow_add, hexponent]

/-- A product of numbers up to one rounds to a number up to one. -/
theorem roundProduct_le {n : Nat} (h : n ≤ unitsOfOne * unitsOfOne) :
    roundProduct n ≤ unitsOfOne := by
  -- the bound is a power of two, which is not changed by rounding
  obtain ⟨k, hsquare, hone⟩ : ∃ k, unitsOfOne * unitsOfOne = 2 ^ (k + 1074) ∧
      unitsOfOne = 2 ^ k := ⟨1074, by decide +kernel, rfl⟩
  rw [hsquare] at h
  rw [hone, ← roundProduct_two_pow]
  exact roundProduct_mono h

end NaturalLanguage.Decimal
