import NaturalLanguage.Decimal.Binary

/-!
# The shortest decimal of a number

Every double precision number has an interval of real numbers that round to it. Its shortest
decimal is taken from the coarsest grid `{c * 10 ^ k}` that has a point in this interval: a grid
with a point there has one among the two neighbours of the number, so only these are tested. Of
two neighbours in the interval the nearer one is taken, and halfway the larger.

* `Digits`: the decimal `digits * 10 ^ power`.
* `plain`: the decimal written without an exponent.
-/

namespace NaturalLanguage.Decimal

/-- The decimal number `digits * 10 ^ power`. -/
structure Digits where
  digits : Nat
  power : Int
deriving DecidableEq

/-- The characters of a decimal in positional notation: trailing zeros for a positive power, a
point for a negative one, at least one digit before the point. -/
def Digits.positional (d : Digits) : List Char :=
  let written := Nat.toDigits 10 d.digits
  if 0 ≤ d.power then written ++ List.replicate d.power.toNat '0'
  else
    let places := (-d.power).toNat
    let padded := List.replicate (places + 1 - written.length) '0' ++ written
    let whole := padded.length - places
    padded.take whole ++ '.' :: padded.drop whole

/-- The real numbers that round to `mantissa * 2 ^ exponent`, in units of `2 ^ (exponent - 2)`. The
ends belong to the interval when the mantissa is even. -/
structure Interval where
  /-- The number itself in these units. -/
  middle : Nat
  lower : Nat
  upper : Nat
  closed : Bool
  /-- The exponent of the unit. -/
  unit : Int

/-- The interval around a positive number. Below a power of two the numbers lie twice as close. -/
def Interval.around (mantissa : Nat) (exponent : Int) : Interval where
  middle := 4 * mantissa
  lower :=
    if mantissa = Binary.hiddenBit ∧ Binary.leastExponent < exponent then 4 * mantissa - 1
    else 4 * mantissa - 2
  upper := 4 * mantissa + 2
  closed := mantissa % 2 = 0
  unit := exponent - 2

namespace Interval

/-- The number `n * 2 ^ unit`, times the factor that makes it and `10 ^ grid` whole numbers. -/
def scaled (i : Interval) (n : Nat) (grid : Int) : Nat := n * power 2 i.unit * power 10 (-grid)

/-- The number `10 ^ grid`, times the same factor. -/
def step (i : Interval) (grid : Int) : Nat := power 10 grid * power 2 (-i.unit)

/-- Whether `c * 10 ^ grid` lies in the interval. -/
def contains (i : Interval) (c : Nat) (grid : Int) : Bool :=
  let point := c * i.step grid
  if i.closed then i.scaled i.lower grid ≤ point ∧ point ≤ i.scaled i.upper grid
  else i.scaled i.lower grid < point ∧ point < i.scaled i.upper grid

/-- The point of the grid `10 ^ grid` in the interval that is nearest to the middle. -/
def pick (i : Interval) (grid : Int) : Option Digits :=
  let value := i.scaled i.middle grid
  let below := value / i.step grid
  -- halfway the larger neighbour is taken
  let nearerBelow := 2 * (value % i.step grid) < i.step grid
  if i.contains below grid && (nearerBelow || !i.contains (below + 1) grid) then
    some ⟨below, grid⟩
  else if i.contains (below + 1) grid then some ⟨below + 1, grid⟩
  else none

/-- The first hit on the grids `grid`, `grid - 1`, …; after `steps` grids the point below the
middle. -/
def search (i : Interval) : (steps : Nat) → (grid : Int) → Digits
  | 0, grid => ⟨i.scaled i.middle grid / i.step grid, grid⟩
  | steps + 1, grid => (i.pick grid).getD (i.search steps (grid - 1))

/-- The decimal on the coarsest grid. The search begins above the number, and the grid
`10 ^ (-1074)` holds the number itself. -/
def shortest (i : Interval) : Digits :=
  let start := (Nat.toDigits 10 (i.scaled i.middle 0 / i.step 0)).length
  i.search (start + 1074) start

end Interval

/-- The sign in front of a number. -/
def sign (negative : Bool) : List Char := if negative then ['-'] else []

/-- The shortest decimal in positional notation, without a point for whole numbers. The sign of
zero is kept. -/
def plain (x : Float) : String :=
  match Binary.ofFloat x with
  | .notANumber => "NaN"
  | .infinite negative => String.ofList (sign negative ++ ['i', 'n', 'f'])
  | .finite negative mantissa exponent =>
    let digits := if mantissa = 0 then ⟨0, 0⟩ else (Interval.around mantissa exponent).shortest
    String.ofList (sign negative ++ digits.positional)

end NaturalLanguage.Decimal
