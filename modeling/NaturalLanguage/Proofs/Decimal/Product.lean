import Mathlib
import NaturalLanguage.Proofs.Decimal.Rounding

/-!
# Products of unpacked numbers

A double precision number is unpacked into a sign, a mantissa and an exponent, and the exact product
of two mantissas is shifted until 53 digits are left. Numbers that are not negative are multiples of
`2 ^ -1074`, and everything that is said about them here is said about the numbers of these units:
they compare like the numbers, and the product of two of them, counted in units of `2 ^ -2148`, is
rounded to a number of units again.

* `roundedMantissa_shiftRight`: shifting and rounding a mantissa rounds a quotient.
* `Amount`: an unpacked number is a number of units.
* `Amount.compare_eq`, `Amount.eq_of_pos`: comparing numbers compares their amounts, and a positive
  amount is unpacked in one way only.
* `Amount.mul`: the amount of a product is the rounded product of the amounts.
-/

namespace NaturalLanguage.Decimal

open Float.Model Float.Model.UnpackedFloat

/-! ### Shifted mantissas -/

/-- Shifting a mantissa by `n` digits leaves the quotient by `2 ^ n`, and two bits that compare the
rest with one half. -/
theorem shiftRight_exact (m n : Nat) :
    ExtendedMantissa.ofMantissaAndAccuracy m .exact >>> n =
      ⟨m / 2 ^ n, decide (2 ^ n ≤ 2 * (m % 2 ^ n)),
        decide (m % 2 ^ n ≠ 0 ∧ 2 * (m % 2 ^ n) ≠ 2 ^ n)⟩ := by
  induction n with
  | zero =>
    show ExtendedMantissa.mk m false false = _
    simp [Nat.mod_one]
  | succ n ih =>
    show ExtendedMantissa.shiftRightOne (ExtendedMantissa.ofMantissaAndAccuracy m .exact >>> n) = _
    have hrest : m % 2 ^ n < 2 ^ n := Nat.mod_lt m (Nat.two_pow_pos n)
    rw [ih, ExtendedMantissa.shiftRightOne, Nat.pow_succ, ← Nat.div_div_eq_div_mul, Nat.mod_mul]
    generalize m % 2 ^ n = rest at hrest ⊢
    generalize m / 2 ^ n = whole
    generalize 2 ^ n = p at hrest ⊢
    -- the digit that is shifted out adds `p` to the rest if it is one
    have hround : (whole % 2 != 0) = decide (p * 2 ≤ 2 * (rest + p * (whole % 2))) := by
      rcases Nat.mod_two_eq_zero_or_one whole with h | h <;> simp [h] <;> omega
    have hsticky : (decide (p ≤ 2 * rest) || decide (rest ≠ 0 ∧ 2 * rest ≠ p)) =
        decide (rest + p * (whole % 2) ≠ 0 ∧ 2 * (rest + p * (whole % 2)) ≠ p * 2) := by
      rw [Bool.eq_iff_iff, Bool.or_eq_true, decide_eq_true_iff, decide_eq_true_iff,
        decide_eq_true_iff]
      rcases Nat.mod_two_eq_zero_or_one whole with h | h <;> rw [h] <;> omega
    rw [← hround, ← hsticky]

/-- Rounding a shifted mantissa rounds its quotient. -/
theorem roundedMantissa_shiftRight (m n : Nat) :
    (ExtendedMantissa.ofMantissaAndAccuracy m .exact >>> n).roundedMantissa =
      roundHalfEven m (2 ^ n) := by
  rw [shiftRight_exact, roundHalfEven]
  generalize m % 2 ^ n = rest
  generalize m / 2 ^ n = whole
  generalize 2 ^ n = p
  -- the two bits tell whether the rest is below one half, one half, or above
  rcases Nat.lt_trichotomy (2 * rest) p with h | h | h
  · rw [decide_eq_false (Nat.not_le.2 h), if_pos (.inl h)]
    cases decide (rest ≠ 0 ∧ 2 * rest ≠ p) <;> rfl
  · rw [decide_eq_true (Nat.le_of_eq h.symm), decide_eq_false fun hsticky => hsticky.2 h]
    show whole + whole % 2 = _
    split <;> omega
  · have hrest : rest ≠ 0 := by omega
    rw [decide_eq_true (Nat.le_of_lt h), decide_eq_true ⟨hrest, Nat.ne_of_gt h⟩, if_neg (by omega)]
    rfl

/-! ### Amounts -/

/-- An unpacked number that is `n` units of `2 ^ -1074`: zero, or a positive mantissa shifted by
some digits, and by none unless the mantissa has all of its 53 digits. -/
inductive Amount : UnpackedFloat → Nat → Prop
  | zero (sign : Sign) : Amount (.zero sign) 0
  | positive {mantissa shift : Nat} (hpos : 0 < mantissa) (hlt : mantissa < 2 ^ 53)
      (hfull : shift ≠ 0 → 2 ^ 52 ≤ mantissa) :
      Amount (.finite .positive mantissa (shift - 1074) hpos) (mantissa * 2 ^ shift)

/-- A mantissa that is shifted further makes a larger number, if it has all its digits. -/
theorem mul_two_pow_lt {mantissa mantissa' shift shift' : Nat} (hlt : mantissa < 2 ^ 53)
    (hfull : 2 ^ 52 ≤ mantissa') (h : shift < shift') :
    mantissa * 2 ^ shift < mantissa' * 2 ^ shift' :=
  calc mantissa * 2 ^ shift < 2 ^ 53 * 2 ^ shift :=
        Nat.mul_lt_mul_of_pos_right hlt (Nat.two_pow_pos _)
    _ = 2 ^ (52 + (shift + 1)) := by rw [← Nat.pow_add]; congr 1; omega
    _ ≤ 2 ^ (52 + shift') := Nat.pow_le_pow_right (by decide) (by omega)
    _ = 2 ^ 52 * 2 ^ shift' := Nat.pow_add 2 52 shift'
    _ ≤ mantissa' * 2 ^ shift' := Nat.mul_le_mul_right _ hfull

theorem compare_mul_two_pow (mantissa mantissa' shift : Nat) :
    compare (mantissa * 2 ^ shift) (mantissa' * 2 ^ shift) = compare mantissa mantissa' := by
  have hpos := Nat.two_pow_pos shift
  rcases Nat.lt_trichotomy mantissa mantissa' with h | rfl | h
  · rw [Nat.compare_eq_lt.2 h, Nat.compare_eq_lt.2 (Nat.mul_lt_mul_of_pos_right h hpos)]
  · rw [Nat.compare_eq_eq.2 rfl, Nat.compare_eq_eq.2 rfl]
  · rw [Nat.compare_eq_gt.2 h, Nat.compare_eq_gt.2 (Nat.mul_lt_mul_of_pos_right h hpos)]

/-- Numbers compare as their amounts. -/
theorem Amount.compare_eq {x y : UnpackedFloat} {m n : Nat} (hx : Amount x m) (hy : Amount y n) :
    x.compare y = some (compare m n) := by
  cases hx with
  | zero sign =>
    cases hy with
    | zero sign' => rfl
    | positive hpos hlt hfull =>
      show some Ordering.lt = _
      rw [Nat.compare_eq_lt.2 (Nat.mul_pos hpos (Nat.two_pow_pos _))]
  | @positive mantissa shift hpos hlt hfull =>
    cases hy with
    | zero sign' =>
      show some Ordering.gt = _
      rw [Nat.compare_eq_gt.2 (Nat.mul_pos hpos (Nat.two_pow_pos _))]
    | @positive mantissa' shift' hpos' hlt' hfull' =>
      show some ((compare ((shift : Int) - 1074) (shift' - 1074)).then
        (compare mantissa mantissa')) = _
      -- a larger shift wins, because its mantissa has all digits
      rcases Nat.lt_trichotomy shift shift' with h | rfl | h
      · rw [Int.compare_eq_lt.2 (by omega),
          Nat.compare_eq_lt.2 (mul_two_pow_lt hlt (hfull' (by omega)) h)]
        rfl
      · rw [Int.compare_eq_eq.2 rfl, compare_mul_two_pow]
        rfl
      · rw [Int.compare_eq_gt.2 (by omega),
          Nat.compare_eq_gt.2 (mul_two_pow_lt hlt' (hfull (by omega)) h)]
        rfl

/-- Amounts lie between the infinities. -/
theorem Amount.compare_infinity {x : UnpackedFloat} {n : Nat} (h : Amount x n) :
    (UnpackedFloat.infinity .positive).compare x = some .gt ∧
      x.compare (.infinity .negative) = some .gt := by
  cases h <;> exact ⟨rfl, rfl⟩

/-- Amounts are not below a negative number. -/
theorem Amount.compare_negative {x : UnpackedFloat} {n mantissa : Nat} {exponent : Int}
    {hpos : 0 < mantissa} (h : Amount x n) :
    x.compare (.finite .negative mantissa exponent hpos) = some .gt := by
  cases h <;> rfl

/-- A positive amount belongs to one unpacked number only. -/
theorem Amount.eq_of_pos {x y : UnpackedFloat} {m n : Nat} (hx : Amount x m) (hy : Amount y n)
    (h : m = n) (hpos : 0 < m) : x = y := by
  cases hx with
  | zero sign => cases hpos
  | @positive mantissa shift _ hlt hfull =>
    cases hy with
    | zero sign' => omega
    | @positive mantissa' shift' _ hlt' hfull' =>
      -- with different shifts the larger one would win
      obtain rfl : shift = shift' := by
        rcases Nat.lt_trichotomy shift shift' with hlow | heq | hhigh
        · exact absurd h (Nat.ne_of_lt (mul_two_pow_lt hlt (hfull' (by omega)) hlow))
        · exact heq
        · exact absurd h (Nat.ne_of_gt (mul_two_pow_lt hlt' (hfull (by omega)) hhigh))
      obtain rfl := Nat.eq_of_mul_eq_mul_right (Nat.two_pow_pos shift) h
      rfl

/-! ### Rounded products -/

theorem log2_mul_two_pow {m : Nat} (h : 0 < m) (k : Nat) : (m * 2 ^ k).log2 = m.log2 + k := by
  have hm : m * 2 ^ k ≠ 0 := Nat.ne_of_gt (Nat.mul_pos h (Nat.two_pow_pos k))
  rw [Nat.log2_eq_iff hm]
  constructor
  · rw [Nat.pow_add]
    exact Nat.mul_le_mul_right _ (Nat.log2_self_le (Nat.ne_of_gt h))
  · rw [Nat.add_right_comm, Nat.pow_add]
    exact Nat.mul_lt_mul_of_pos_right Nat.lt_log2_self (Nat.two_pow_pos k)

theorem minExponent_binary64 : Format.binary64.minExponent = -1074 := by decide

theorem exponentBias_binary64 : Format.binary64.exponentBias = 1023 := rfl

theorem mantissaBits_binary64 : Format.binary64.mantissaBits = 53 := rfl

theorem shiftToTargetExponent_eq {m n : Nat} {e : Int}
    (h : (Format.binary64.targetExponent (totalExponent m e) - e).toNat = n) :
    shiftToTargetExponent .binary64 m e .exact =
      (ExtendedMantissa.ofMantissaAndAccuracy m .exact >>> n, e + n) := by
  simp only [shiftToTargetExponent, shiftToExponent, h]

/-- A product of mantissas is shifted by the digits that are dropped. -/
theorem shiftToTargetExponent_product {m k : Nat} (hm : 0 < m)
    (hk : k ≤ droppedDigits (m * 2 ^ k)) :
    shiftToTargetExponent .binary64 m (k - 2148) .exact =
      (ExtendedMantissa.ofMantissaAndAccuracy m .exact >>> (droppedDigits (m * 2 ^ k) - k),
        (droppedDigits (m * 2 ^ k) : Int) - 2148) := by
  have htarget : Format.binary64.targetExponent (totalExponent m (k - 2148)) =
      (droppedDigits (m * 2 ^ k) : Int) - 2148 := by
    rw [Format.targetExponent, totalExponent, minExponent_binary64, mantissaBits_binary64,
      droppedDigits, log2_mul_two_pow hm]
    omega
  rw [shiftToTargetExponent_eq (n := droppedDigits (m * 2 ^ k) - k) (by rw [htarget]; omega)]
  congr 1
  omega

/-- Digits that were kept are not shifted again. -/
theorem shiftToTargetExponent_of_lt {kept : Nat} (hlt : kept < 2 ^ 53) (shift : Nat) :
    shiftToTargetExponent .binary64 kept (shift - 1074) .exact =
      (ExtendedMantissa.ofMantissaAndAccuracy kept .exact, (shift : Int) - 1074) := by
  have hlog : kept.log2 < 53 := by
    by_cases hkept : kept = 0
    · rw [hkept]
      decide
    · exact (Nat.log2_lt hkept).2 hlt
  have hzero : (Format.binary64.targetExponent (totalExponent kept (shift - 1074)) -
      (shift - 1074)).toNat = 0 := by
    rw [Format.targetExponent, totalExponent, minExponent_binary64, mantissaBits_binary64]
    omega
  rw [shiftToTargetExponent_eq hzero, Int.natCast_zero, Int.add_zero]
  rfl

/-- Digits that were rounded up to 54 are shifted once more. -/
theorem shiftToTargetExponent_two_pow (shift : Nat) :
    shiftToTargetExponent .binary64 (2 ^ 53) (shift - 1074) .exact =
      (ExtendedMantissa.ofMantissaAndAccuracy (2 ^ 52) .exact,
        ((shift + 1 : Nat) : Int) - 1074) := by
  have hone : (Format.binary64.targetExponent (totalExponent (2 ^ 53) (shift - 1074)) -
      (shift - 1074)).toNat = 1 := by
    rw [Format.targetExponent, totalExponent, minExponent_binary64, mantissaBits_binary64,
      Nat.log2_two_pow]
    omega
  rw [shiftToTargetExponent_eq hone]
  congr 1
  push_cast
  omega

/-- Digits that were kept make up an amount. -/
theorem Amount.of_kept {kept shift : Nat} (hle : kept ≤ 2 ^ 53)
    (hfull : shift ≠ 0 → 2 ^ 52 ≤ kept) :
    let shifted := shiftToTargetExponent .binary64 kept (shift - 1074) .exact
    Amount (if h : shifted.1.mantissa = 0 then .zero .positive
      else .finite .positive shifted.1.mantissa shifted.2 (Nat.pos_of_ne_zero h))
      (kept * 2 ^ shift) := by
  rcases Nat.lt_or_eq_of_le hle with hlt | rfl
  · rw [shiftToTargetExponent_of_lt hlt]
    dsimp only [ExtendedMantissa.ofMantissaAndAccuracy]
    split
    · next hzero =>
      rw [hzero, Nat.zero_mul]
      exact .zero _
    · exact .positive _ hlt hfull
  · rw [shiftToTargetExponent_two_pow]
    have hvalue : 2 ^ 53 * 2 ^ shift = 2 ^ 52 * 2 ^ (shift + 1) := by
      rw [← Nat.pow_add, ← Nat.pow_add]
      congr 1
      omega
    show Amount (.finite .positive (2 ^ 52) (((shift + 1 : Nat) : Int) - 1074) _) _
    rw [hvalue]
    exact .positive _ (by decide) fun _ => Nat.le_refl _

/-- Rounding a product gives the rounded amount. -/
theorem Amount.roundWithAccuracy {m k : Nat} (hm : 0 < m) (hk : k ≤ droppedDigits (m * 2 ^ k)) :
    Amount (roundWithAccuracy .binary64 .positive m (k - 2148) .exact)
      (roundProduct (m * 2 ^ k)) := by
  have hleast := le_droppedDigits (m * 2 ^ k)
  have hkept : roundHalfEven m (2 ^ (droppedDigits (m * 2 ^ k) - k)) =
      roundHalfEven (m * 2 ^ k) (2 ^ droppedDigits (m * 2 ^ k)) := by
    rw [← roundHalfEven_mul_mul m _ (Nat.two_pow_pos k), ← Nat.pow_add, Nat.sub_add_cancel hk]
  have hexponent : (droppedDigits (m * 2 ^ k) : Int) - 2148 =
      ((droppedDigits (m * 2 ^ k) - 1074 : Nat) : Int) - 1074 := by
    omega
  -- the digits are dropped in a first shift; a second one follows when rounding has added a digit
  unfold UnpackedFloat.roundWithAccuracy
  rw [shiftToTargetExponent_product hm hk]
  dsimp only
  rw [roundedMantissa_shiftRight, hkept, hexponent]
  exact .of_kept (roundHalfEven_droppedDigits_le _) fun hshift =>
    le_roundHalfEven_droppedDigits (by omega)

/-- The product of two numbers is their rounded product. -/
theorem Amount.mul {x y : UnpackedFloat} {m n : Nat} (hx : Amount x m) (hy : Amount y n) :
    Amount (UnpackedFloat.mul .binary64 x y) (roundProduct (m * n)) := by
  cases hx with
  | zero sign =>
    rw [Nat.zero_mul, roundProduct_zero]
    cases hy <;> exact .zero _
  | @positive mantissa shift hpos hlt hfull =>
    cases hy with
    | zero sign' =>
      rw [Nat.mul_zero, roundProduct_zero]
      exact .zero _
    | @positive mantissa' shift' hpos' hlt' hfull' =>
      have hmul : 0 < mantissa * mantissa' := Nat.mul_pos hpos hpos'
      have hvalue : mantissa * 2 ^ shift * (mantissa' * 2 ^ shift') =
          mantissa * mantissa' * 2 ^ (shift + shift') := by
        rw [Nat.mul_mul_mul_comm, ← Nat.pow_add]
      have hexponent : (shift : Int) - 1074 + (shift' - 1074) =
          ((shift + shift' : Nat) : Int) - 2148 := by
        omega
      show Amount (UnpackedFloat.roundWithAccuracy .binary64 .positive (mantissa * mantissa')
        ((shift : Int) - 1074 + (shift' - 1074)) .exact) _
      rw [hvalue, hexponent]
      apply Amount.roundWithAccuracy hmul
      -- nothing is shifted, or one of the mantissas has all its digits
      have hdigits : shift + shift' ≠ 0 → 52 ≤ (mantissa * mantissa').log2 := by
        intro hshift
        rw [Nat.le_log2 (Nat.ne_of_gt hmul)]
        by_cases hzero : shift = 0
        · exact Nat.le_trans (hfull' (by omega)) (Nat.le_mul_of_pos_left _ hpos)
        · exact Nat.le_trans (hfull hzero) (Nat.le_mul_of_pos_right _ hpos')
      rw [droppedDigits, log2_mul_two_pow hmul]
      omega

end NaturalLanguage.Decimal
