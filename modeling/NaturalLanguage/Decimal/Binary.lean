import NaturalLanguage.Decimal.Power
import NaturalLanguage.Decimal.Rounding

/-!
# Double precision numbers by their parts

A double precision number is not a number, infinite, or a sign with a mantissa and a power of two.
`Binary.ofFloat` reads these parts off the 64 bits, and `Binary.nearest` finds the number that is
nearest to a quotient.

* `Binary.fraction_lt`: the fraction field stays below the hidden bit.
* `Binary.nearestBits_le`: no quotient gives bits beyond infinity.
-/

namespace NaturalLanguage.Decimal

/-- What the 64 bits of a double precision number stand for. -/
inductive Binary where
  | notANumber
  | infinite (negative : Bool)
  /-- The number `mantissa * 2 ^ exponent`, negated if `negative`. -/
  | finite (negative : Bool) (mantissa : Nat) (exponent : Int)
deriving DecidableEq

namespace Binary

/-- The bit above the 52 bits of the fraction, which normal numbers do not store. -/
def hiddenBit : Nat := Nat.pow 2 52

/-- The sign bit. -/
def signBit : Nat := Nat.pow 2 63

/-- The exponent field of infinities and of what is not a number. -/
def topField : Nat := 2047

/-- The exponent of the least mantissas. -/
def leastExponent : Int := -1074

/-- The fraction field of 64 bits. -/
def fraction (bits : Nat) : Nat := bits % hiddenBit

/-- The exponent field of 64 bits. -/
def exponentField (bits : Nat) : Nat := bits / hiddenBit % (topField + 1)

theorem fraction_lt (bits : Nat) : fraction bits < hiddenBit := Nat.mod_lt _ (by decide)

/-- The parts of a number. -/
def ofFloat (x : Float) : Binary :=
  let bits := x.toBits.toNat
  let negative := decide (signBit ≤ bits)
  let field := exponentField bits
  if field = topField then
    if fraction bits = 0 then .infinite negative else .notANumber
  else if field = 0 then .finite negative (fraction bits) leastExponent
  else .finite negative (hiddenBit + fraction bits) (leastExponent + field - 1)

/-- The exponent at which the mantissa of `num / den` has 53 digits, or the least exponent if that
is larger. -/
def exponentFor (num den : Nat) : Int :=
  -- the quotient lies between the powers of two below and above `top`
  let top : Int := num.log2 - den.log2
  let reached := den * power 2 top ≤ num * power 2 (-top)
  max (if reached then top - 52 else top - 53) leastExponent

/-- The bits, without the sign, of the number nearest to `num / den`. A mantissa that rounds up to
twice the hidden bit carries into the exponent field, and a quotient beyond the largest number
gives infinity. -/
def nearestBits (num den : Nat) : Nat :=
  let exponent := exponentFor num den
  let mantissa := roundHalfEven (num * power 2 (-exponent)) (den * power 2 exponent)
  let bits :=
    -- without the hidden bit the exponent is the least one, and its field is zero
    if mantissa < hiddenBit then mantissa
    else (exponent - leastExponent + 1).toNat * hiddenBit + (mantissa - hiddenBit)
  min bits (topField * hiddenBit)

theorem nearestBits_le (num den : Nat) : nearestBits num den ≤ topField * hiddenBit :=
  Nat.min_le_right _ _

/-- The number with the given bits and sign. -/
def ofBits (negative : Bool) (bits : Nat) : Float :=
  Float.ofBits (UInt64.ofNat (if negative then signBit + bits else bits))

/-- The number nearest to `num / den`, negated if `negative`. -/
def nearest (negative : Bool) (num den : Nat) : Float :=
  ofBits negative (if num = 0 then 0 else nearestBits num den)

/-- The infinity of a sign. -/
def infinity (negative : Bool) : Float := ofBits negative (topField * hiddenBit)

end Binary

end NaturalLanguage.Decimal
