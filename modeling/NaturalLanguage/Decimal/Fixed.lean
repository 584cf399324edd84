import NaturalLanguage.Decimal.Shortest

/-!
# Decimals with a fixed number of places

A number is rounded to a given number of decimal places by its exact value; a value halfway
between two such decimals goes to the one with an even last digit.
-/

namespace NaturalLanguage.Decimal

/-- `mantissa * 2 ^ exponent` rounded to a multiple of `10 ^ (-places)`. -/
def roundToPlaces (places mantissa : Nat) (exponent : Int) : Digits :=
  ⟨roundHalfEven (mantissa * power 2 exponent * power 10 places) (power 2 (-exponent)), -places⟩

/-- The number with `places` decimal places. The sign of zero is kept. -/
def fixed (places : Nat) (x : Float) : String :=
  match Binary.ofFloat x with
  | .notANumber => "NaN"
  | .infinite negative => String.ofList (sign negative ++ ['i', 'n', 'f'])
  | .finite negative mantissa exponent =>
    String.ofList (sign negative ++ (roundToPlaces places mantissa exponent).positional)

end NaturalLanguage.Decimal
