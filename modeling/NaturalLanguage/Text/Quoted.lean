import NaturalLanguage.Text.Shapeless

/-!
# Quoted text

A quoted text stands between double quotes on one line and shows every character in a form that
can be recognised: the quote and the backslash are preceded by a backslash, four controls have a
letter, and other characters without a shape are given by their code point.

* `escape_of_shape`: any other character stands for itself.
* `encode_append`: texts are escaped character by character.
-/

namespace NaturalLanguage.Text

namespace Quoted

/-- A code point in hexadecimal digits, as in `\u{301}`. -/
def codePoint (c : Char) : List Char :=
  ['\\', 'u', '\x7b'] ++ Nat.toDigits 16 c.toNat ++ ['\x7d']

/-- The form in which a character is shown between quotes. -/
def escape (c : Char) : List Char :=
  if c = '"' then ['\\', '"']
  else if c = '\\' then ['\\', '\\']
  else if c = '\t' then ['\\', 't']
  else if c = '\r' then ['\\', 'r']
  else if c = '\n' then ['\\', 'n']
  else if c = Char.ofNat 0 then ['\\', '0']
  else if isShapeless c then codePoint c
  else [c]

theorem escape_of_shape {c : Char} (hquote : c ≠ '"') (hslash : c ≠ '\\')
    (hshape : isShapeless c = false) : escape c = [c] := by
  have htab : c ≠ '\t' := by rintro rfl; exact absurd hshape (by decide)
  have hret : c ≠ '\r' := by rintro rfl; exact absurd hshape (by decide)
  have hline : c ≠ '\n' := by rintro rfl; exact absurd hshape (by decide)
  have hzero : c ≠ Char.ofNat 0 := by rintro rfl; exact absurd hshape (by decide)
  simp [escape, hquote, hslash, htab, hret, hline, hzero, hshape]

/-- The escaped characters of a text, without the quotes around it. -/
def encode (cs : List Char) : List Char := cs.flatMap escape

@[simp] theorem encode_nil : encode [] = [] := rfl

@[simp] theorem encode_cons (c : Char) (cs : List Char) :
    encode (c :: cs) = escape c ++ encode cs := rfl

theorem encode_append (cs ds : List Char) : encode (cs ++ ds) = encode cs ++ encode ds := by
  simp [encode]

end Quoted

/-- The text between double quotes, escaped. -/
def quote (s : String) : String := String.ofList ('"' :: (Quoted.encode s.toList ++ ['"']))

end NaturalLanguage.Text
