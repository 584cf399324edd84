import NaturalLanguage.Decimal.Binary

/-!
# Reading decimals

A decimal has an optional sign, digits with an optional point among or beside them, and an optional
exponent. `inf`, `infinity` and `nan` are read in any case. The value is the double precision
number nearest to the decimal.

* `readDigits_append`: a run of digits is read up to the first character that is none.
-/

namespace NaturalLanguage.Decimal

/-- The value of a run of digits. -/
def digitsValue (ds : List Char) : Nat := ds.foldl (fun n d => 10 * n + (d.toNat - '0'.toNat)) 0

/-- The leading digits and what follows them. -/
def readDigits (cs : List Char) : List Char × List Char :=
  (cs.takeWhile Char.isDigit, cs.dropWhile Char.isDigit)

theorem readDigits_append (cs : List Char) : (readDigits cs).1 ++ (readDigits cs).2 = cs := by
  simp [readDigits]

/-- An optional sign, and what follows it. -/
def readSign : List Char → Bool × List Char
  | '-' :: cs => (true, cs)
  | '+' :: cs => (false, cs)
  | cs => (false, cs)

/-- The exponent at the end of a decimal; nothing stands for zero. -/
def readExponent? : List Char → Option Int
  | [] => some 0
  | mark :: cs =>
    if mark = 'e' ∨ mark = 'E' then
      let (negative, cs) := readSign cs
      let (digits, rest) := readDigits cs
      if digits ≠ [] ∧ rest = [] then
        some (if negative then -digitsValue digits else digitsValue digits)
      else none
    else none

/-- The number nearest to `digits * 10 ^ exponent`. A decimal beyond `10 ^ 400` is infinite and one
below `10 ^ (-400)` is zero, so that a large exponent costs nothing. -/
def scaleDigits (negative : Bool) (digits : Nat) (exponent : Int) : Float :=
  let leading := (Nat.toDigits 10 digits).length + exponent
  if digits = 0 ∨ leading < -400 then Binary.nearest negative 0 1
  else if 400 < leading then Binary.infinity negative
  else Binary.nearest negative (digits * power 10 exponent) (power 10 (-exponent))

/-- The value of an unsigned decimal with digits. -/
def readUnsigned? (negative : Bool) (cs : List Char) : Option Float := do
  let (whole, rest) := readDigits cs
  let (fraction, rest) :=
    match rest with
    | '.' :: after => readDigits after
    | _ => ([], rest)
  let exponent ← readExponent? rest
  if whole ++ fraction = [] then none
  else some (scaleDigits negative (digitsValue (whole ++ fraction)) (exponent - fraction.length))

/-- The value of a decimal, `none` for any other text. -/
def read? (s : String) : Option Float :=
  let (negative, cs) := readSign s.toList
  let lower := cs.map Char.toLower
  if lower = ['i', 'n', 'f'] ∨ lower = ['i', 'n', 'f', 'i', 'n', 'i', 't', 'y'] then
    some (Binary.infinity negative)
  else if lower = ['n', 'a', 'n'] then some (0 / 0)
  else readUnsigned? negative cs

end NaturalLanguage.Decimal
