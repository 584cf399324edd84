import NaturalLanguage.Proofs.Decimal.Product

/-!
# Double precision numbers from zero to one

The 64 bits of a number are a sign, an exponent of 11 bits and a mantissa of 52 bits. Unpacking and
packing are inverse to each other on the amounts up to one, so that comparisons and products of the
numbers from zero to one are those of their amounts: the order is total, products stay between zero
and one and keep the order, and positive numbers that compare as equal are the same number.

* `unpack_cases`: what 64 bits stand for.
* `IsAmount`: a number from zero to one with its amount; `exists_isAmount` finds the amount.
* `IsAmount.le_iff`, `IsAmount.lt_iff`, `IsAmount.beq_iff`, `IsAmount.mul`, `IsAmount.eq_of_pos`:
  comparisons, products and equality by amounts.
* `AtLeast.mul`: a lower bound for a product that is not rounded to zero.
-/

namespace NaturalLanguage.Decimal

open Float.Model Float.Model.UnpackedFloat

/-! ### Packing and unpacking -/

theorem unpack_special (sign : Sign) (mantissa : BitVec 52) :
    UnpackedFloat.unpack .binary64 (packComponents .binary64 sign (-1#11) mantissa) =
        .infinity sign ∨
      UnpackedFloat.unpack .binary64 (packComponents .binary64 sign (-1#11) mantissa) =
        .notANumber := by
  unfold UnpackedFloat.unpack
  simp only [unpackMantissa_packComponents, unpackExponent_packComponents,
    unpackSign_packComponents, Sign.ofBitVec_toBitVec, if_true]
  split
  · exact .inl rfl
  · exact .inr rfl

theorem unpack_subnormal (sign : Sign) {mantissa : BitVec 52} (h : 0 < mantissa.toNat) :
    UnpackedFloat.unpack .binary64 (packComponents .binary64 sign 0#11 mantissa) =
      .finite sign mantissa.toNat ((0 : Nat) - 1074) h := by
  have hmantissa : mantissa ≠ 0#52 := by
    rintro rfl
    cases h
  unfold UnpackedFloat.unpack
  simp only [unpackMantissa_packComponents, unpackExponent_packComponents,
    unpackSign_packComponents, Sign.ofBitVec_toBitVec, if_true]
  rw [if_neg (by decide), dif_neg hmantissa]
  rfl

theorem unpack_normal (sign : Sign) {exponent : BitVec 11} (mantissa : BitVec 52)
    (hzero : exponent ≠ 0#11) (hspecial : exponent ≠ -1#11) :
    UnpackedFloat.unpack .binary64 (packComponents .binary64 sign exponent mantissa) =
      .finite sign (2 ^ 52 + mantissa.toNat) ((exponent.toNat - 1 : Nat) - 1074) (by omega) := by
  have hpos : 0 < exponent.toNat := Nat.pos_of_ne_zero fun h => hzero (BitVec.eq_of_toNat_eq h)
  have happend : (1#1 ++ mantissa).toNat = 2 ^ 52 + mantissa.toNat := by
    rw [BitVec.toNat_append, ← Nat.shiftLeft_add_eq_or_of_lt mantissa.isLt]
    rfl
  unfold UnpackedFloat.unpack
  simp only [unpackMantissa_packComponents, unpackExponent_packComponents,
    unpackSign_packComponents, Sign.ofBitVec_toBitVec, happend]
  rw [if_neg hspecial, if_neg hzero]
  congr 1
  rw [exponentBias_binary64]
  omega

theorem pack_subnormal {mantissa : Nat} (hpos : 0 < mantissa) (hlt : mantissa < 2 ^ 52) :
    UnpackedFloat.pack .binary64 (.finite .positive mantissa ((0 : Nat) - 1074) hpos) =
      packComponents .binary64 .positive 0#11 (BitVec.ofNat 52 mantissa) := by
  have hlog : mantissa.log2 < 52 := (Nat.log2_lt (Nat.ne_of_gt hpos)).2 hlt
  unfold UnpackedFloat.pack
  dsimp only
  rw [exponentBias_binary64, mantissaBits_binary64, if_neg (by decide), if_neg (by omega)]

theorem pack_normal {mantissa shift : Nat} (hpos : 0 < mantissa) (hfull : 2 ^ 52 ≤ mantissa)
    (hlt : mantissa < 2 ^ 53) (hshift : shift < 2046) :
    UnpackedFloat.pack .binary64 (.finite .positive mantissa (shift - 1074) hpos) =
      packComponents .binary64 .positive (BitVec.ofNat 11 (shift + 1))
        (BitVec.ofNat 52 mantissa) := by
  have hlog : mantissa.log2 + 1 = 53 := by
    have := (Nat.le_log2 (Nat.ne_of_gt hpos)).2 hfull
    have := (Nat.log2_lt (Nat.ne_of_gt hpos)).2 hlt
    omega
  have hexponent : ((shift : Int) - 1074 + (1023 : Nat) + (52 : Nat)).toNat = shift + 1 := by omega
  unfold UnpackedFloat.pack
  dsimp only
  rw [exponentBias_binary64, mantissaBits_binary64, hexponent, if_neg (by omega), if_pos hlog]

/-- An amount up to one survives packing. -/
theorem Amount.unpack_pack {x : UnpackedFloat} {n : Nat} (h : Amount x n) (hle : n ≤ unitsOfOne) :
    UnpackedFloat.unpack .binary64 (UnpackedFloat.pack .binary64 x) = x := by
  cases h with
  | zero sign => exact unpack_packedZero
  | @positive mantissa shift hpos hlt hfull =>
    have hshift : shift < 2046 := by
      have hpow : 2 ^ shift ≤ unitsOfOne := Nat.le_trans (Nat.le_mul_of_pos_left _ hpos) hle
      have := (Nat.pow_le_pow_iff_right (by decide)).1 hpow
      omega
    -- a mantissa with fewer digits is not shifted, and packed with an exponent of zero
    by_cases hdigits : mantissa < 2 ^ 52
    · obtain rfl : shift = 0 := by omega
      have hmantissa : (BitVec.ofNat 52 mantissa).toNat = mantissa := by
        rw [BitVec.toNat_ofNat, Nat.mod_eq_of_lt hdigits]
      rw [pack_subnormal hpos hdigits, unpack_subnormal _ (by omega)]
      simp only [hmantissa]
    · have hmantissa : 2 ^ 52 + (BitVec.ofNat 52 mantissa).toNat = mantissa := by
        rw [BitVec.toNat_ofNat]
        omega
      have hexponent : (BitVec.ofNat 11 (shift + 1)).toNat = shift + 1 := by
        rw [BitVec.toNat_ofNat]
        omega
      rw [pack_normal hpos (by omega) hlt hshift, unpack_normal]
      · simp only [hmantissa, hexponent, Nat.add_sub_cancel]
      · intro h
        rw [h] at hexponent
        simp at hexponent
      · intro h
        rw [h] at hexponent
        simp at hexponent
        omega

/-- Bits stand for no finite number, for a negative number, or for an amount. -/
theorem unpack_cases (b : BitVec 64) :
    (∃ sign, UnpackedFloat.unpack .binary64 b = .infinity sign) ∨
    UnpackedFloat.unpack .binary64 b = .notANumber ∨
    (∃ mantissa exponent hpos,
      UnpackedFloat.unpack .binary64 b = .finite .negative mantissa exponent hpos) ∨
    ∃ n, Amount (UnpackedFloat.unpack .binary64 b) n := by
  rw [← @packComponents_unpackSign_unpackExponent_unpackMantissa .binary64 b]
  generalize Sign.ofBitVec (@unpackSign .binary64 b) = sign
  generalize @unpackExponent .binary64 b = exponent
  generalize @unpackMantissa .binary64 b = mantissa
  have hlt : mantissa.toNat < 2 ^ 52 := mantissa.isLt
  -- the greatest exponent marks what is not finite, zero marks mantissas with fewer digits
  by_cases hspecial : exponent = -1#11
  · rw [hspecial]
    rcases unpack_special sign mantissa with h | h
    · exact .inl ⟨sign, h⟩
    · exact .inr (.inl h)
  refine .inr (.inr ?_)
  by_cases hzero : exponent = 0#11
  · by_cases hmantissa : mantissa = 0#52
    · rw [hzero, hmantissa]
      exact .inr ⟨0, unpack_packedZero ▸ .zero sign⟩
    · have hpos : 0 < mantissa.toNat :=
        Nat.pos_of_ne_zero fun h => hmantissa (BitVec.eq_of_toNat_eq h)
      rw [hzero, unpack_subnormal sign hpos]
      cases sign with
      | negative => exact .inl ⟨_, _, hpos, rfl⟩
      | positive => exact .inr ⟨_, .positive hpos (by omega) (by simp)⟩
  · rw [unpack_normal sign mantissa hzero hspecial]
    cases sign with
    | negative => exact .inl ⟨_, _, _, rfl⟩
    | positive => exact .inr ⟨_, .positive (by omega) (by omega) (by omega)⟩

/-! ### Numbers from zero to one -/

theorem le_iff_compare {x y : Float} :
    x ≤ y ↔ (x.toModel.unpack.compare y.toModel.unpack).any (·.isLE) = true := by
  show decide (Option.any _ (x.toModel.unpack.compare y.toModel.unpack) = true) = true ↔ _
  rw [decide_eq_true_iff]

/-- A double precision number is `n` units of `2 ^ -1074`, and at most one. -/
structure IsAmount (x : Float) (n : Nat) : Prop where
  amount : Amount x.toModel.unpack n
  le_one : n ≤ unitsOfOne

namespace IsAmount

variable {x y : Float} {m n : Nat}

theorem le_iff (hx : IsAmount x m) (hy : IsAmount y n) : x ≤ y ↔ m ≤ n := by
  rw [le_iff_compare, hx.amount.compare_eq hy.amount, Option.any_some, Nat.isLE_compare]

theorem lt_iff (hx : IsAmount x m) (hy : IsAmount y n) : x < y ↔ m < n := by
  show decide (((x.toModel.unpack.compare y.toModel.unpack) == some .lt) = true) = true ↔ _
  rw [decide_eq_true_iff, beq_iff_eq, hx.amount.compare_eq hy.amount, Option.some_inj,
    Nat.compare_eq_lt]

theorem beq_iff (hx : IsAmount x m) (hy : IsAmount y n) : (x == y) = true ↔ m = n := by
  show ((x.toModel.unpack.compare y.toModel.unpack) == some .eq) = true ↔ _
  rw [beq_iff_eq, hx.amount.compare_eq hy.amount, Option.some_inj, Nat.compare_eq_eq]

theorem zero : IsAmount 0 0 := by
  refine ⟨?_, Nat.zero_le _⟩
  have hbits : (0 : Float).toModel.toBits.toBitVec = packedZero .binary64 .positive := by
    decide +kernel
  show Amount (UnpackedFloat.unpack .binary64 _) 0
  rw [hbits, unpack_packedZero]
  exact .zero _

/-- The amount of a number whose bits are given, unless it is zero or one of the smallest. -/
theorem of_bits {exponent : BitVec 11} {mantissa : BitVec 52}
    (hbits : x.toModel.toBits.toBitVec = packComponents .binary64 .positive exponent mantissa)
    (hzero : exponent ≠ 0#11) (hspecial : exponent ≠ -1#11)
    (hle : (2 ^ 52 + mantissa.toNat) * 2 ^ (exponent.toNat - 1) ≤ unitsOfOne) :
    IsAmount x ((2 ^ 52 + mantissa.toNat) * 2 ^ (exponent.toNat - 1)) := by
  refine ⟨?_, hle⟩
  show Amount (UnpackedFloat.unpack .binary64 _) _
  rw [hbits, unpack_normal _ _ hzero hspecial]
  exact .positive _ (by omega) fun _ => by omega

theorem one : IsAmount 1 unitsOfOne := by
  have hone : unitsOfOne = (2 ^ 52 + (0#52).toNat) * 2 ^ ((1023#11).toNat - 1) := by decide +kernel
  have hbits : (1 : Float).toModel.toBits.toBitVec =
      packComponents .binary64 .positive 1023#11 0#52 := by
    decide +kernel
  rw [hone]
  exact of_bits hbits (by decide) (by decide) (Nat.le_of_eq hone.symm)

theorem nonneg (hx : IsAmount x n) : 0 ≤ x := (zero.le_iff hx).2 (Nat.zero_le n)

theorem le (hx : IsAmount x n) : x ≤ 1 := (hx.le_iff one).2 hx.le_one

theorem mul (hx : IsAmount x m) (hy : IsAmount y n) : IsAmount (x * y) (roundProduct (m * n)) := by
  have hle : roundProduct (m * n) ≤ unitsOfOne :=
    roundProduct_le (Nat.mul_le_mul hx.le_one hy.le_one)
  refine ⟨?_, hle⟩
  have hmul := hx.amount.mul hy.amount
  show Amount (UnpackedFloat.unpack .binary64 (UnpackedFloat.pack .binary64
    (UnpackedFloat.mul .binary64 x.toModel.unpack y.toModel.unpack))) _
  rwa [hmul.unpack_pack hle]

/-- A number with an amount is neither infinite nor no number at all. -/
theorem isFinite (hx : IsAmount x n) : x.isFinite = true := by
  obtain ⟨hamount, -⟩ := hx
  show x.toModel.unpack.isFinite = true
  generalize x.toModel.unpack = unpacked at hamount
  cases hamount with
  | zero sign => rfl
  | positive _ _ _ => rfl

/-- A positive amount is that of one number only. -/
theorem eq_of_pos (hx : IsAmount x n) (hy : IsAmount y n) (hn : 0 < n) : x = y := by
  have hunpack : x.toModel.unpack = y.toModel.unpack := hx.amount.eq_of_pos hy.amount rfl hn
  have hbits : x.toModel.toBits.toBitVec = y.toModel.toBits.toBitVec :=
    (unpack_inj_of_valid x.toModel.valid y.toModel.valid).1 hunpack
  exact Float.toBits_inj.1 (UInt64.toBitVec_inj.1 hbits)

end IsAmount

/-- The numbers from zero to one have an amount. -/
theorem exists_isAmount {x : Float} (h0 : 0 ≤ x) (h1 : x ≤ 1) : ∃ n, IsAmount x n := by
  rw [le_iff_compare] at h0 h1
  have hamount : ∃ n, Amount x.toModel.unpack n := by
    have hzero := IsAmount.zero.amount
    have hone := IsAmount.one.amount
    -- everything else fails one of the two comparisons
    rcases unpack_cases x.toModel.toBits.toBitVec with
      ⟨sign, h⟩ | h | ⟨mantissa, exponent, hpos, h⟩ | hamount
    · change x.toModel.unpack = _ at h
      rw [h] at h0 h1
      cases sign with
      | positive => rw [hone.compare_infinity.1] at h1; cases h1
      | negative => rw [hzero.compare_infinity.2] at h0; cases h0
    · change x.toModel.unpack = _ at h
      rw [h] at h1
      cases h1
    · change x.toModel.unpack = _ at h
      rw [h, hzero.compare_negative] at h0
      cases h0
    · exact hamount
  obtain ⟨n, hn⟩ := hamount
  rw [hn.compare_eq IsAmount.one.amount, Option.any_some, Nat.isLE_compare] at h1
  exact ⟨n, hn, h1⟩

/-! ### Lower bounds -/

/-- A number up to one is at least `2 ^ -k`. -/
def AtLeast (k : Nat) (x : Float) : Prop := ∃ n, IsAmount x n ∧ 2 ^ (1074 - k) ≤ n

namespace AtLeast

variable {x y : Float} {j k : Nat}

/-- No lower bound holds for zero. -/
theorem ne_zero (h : AtLeast k x) : ¬ (x == 0) = true := by
  obtain ⟨n, hn, hle⟩ := h
  rw [hn.beq_iff .zero]
  have := Nat.two_pow_pos (1074 - k)
  omega

/-- A product is at least the product of two lower bounds, as long as this is not below the least
positive number. -/
theorem mul (hx : AtLeast j x) (hy : AtLeast k y) (h : j + k ≤ 1074) :
    AtLeast (j + k) (x * y) := by
  obtain ⟨m, hm, hle⟩ := hx
  obtain ⟨n, hn, hle'⟩ := hy
  refine ⟨_, hm.mul hn, ?_⟩
  have hexponent : 1074 - (j + k) + 1074 = 1074 - j + (1074 - k) := by omega
  calc 2 ^ (1074 - (j + k)) = roundProduct (2 ^ (1074 - (j + k) + 1074)) :=
        (roundProduct_two_pow _).symm
    _ = roundProduct (2 ^ (1074 - j) * 2 ^ (1074 - k)) := by rw [hexponent, Nat.pow_add]
    _ ≤ roundProduct (m * n) := roundProduct_mono (Nat.mul_le_mul hle hle')

end AtLeast

end NaturalLanguage.Decimal
