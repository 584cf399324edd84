import NaturalLanguage.Text.Ranges

/-!
# Blanks

Blank characters are those with the Unicode property White_Space. `trim` removes them at both ends
of a text and `fields` cuts a text at them; `pieces` cuts at single separators and keeps empty
pieces.

* `isBlank_of_isWhitespace`: the ASCII whitespace characters are blank.
* `flatten_pieces`: cutting loses the separators and nothing else.
* `not_blank_of_mem_fields`: no field holds a blank.
-/

namespace NaturalLanguage.Text

/-- The code points with the property White_Space. -/
def blankRanges : List (Nat × Nat) :=
  [(0x9, 0xd), (0x20, 0x20), (0x85, 0x85), (0xa0, 0xa0), (0x1680, 0x1680), (0x2000, 0x200a),
    (0x2028, 0x2029), (0x202f, 0x202f), (0x205f, 0x205f), (0x3000, 0x3000)]

/-- Whether a character is blank. -/
def isBlank (c : Char) : Bool := inRanges c blankRanges

theorem isBlank_of_isWhitespace {c : Char} (h : c.isWhitespace = true) : isBlank c = true := by
  simp only [Char.isWhitespace, Bool.or_eq_true, decide_eq_true_eq] at h
  obtain ((h | h) | h) | h := h <;> subst h <;> decide

/-- Drop the characters that satisfy `p` at both ends. -/
def trimBy (p : Char → Bool) (cs : List Char) : List Char :=
  ((cs.dropWhile p).reverse.dropWhile p).reverse

/-- The text without the blanks at its ends. -/
def trim (s : String) : String := String.ofList (trimBy isBlank s.toList)

/-- The stretches between the characters that satisfy `sep`, empty ones included. -/
def pieces (sep : Char → Bool) : List Char → List (List Char)
  | [] => [[]]
  | c :: cs => if sep c then [] :: pieces sep cs else (pieces sep cs).modifyHead (c :: ·)

@[simp] theorem pieces_ne_nil (sep : Char → Bool) (cs : List Char) : pieces sep cs ≠ [] := by
  induction cs with
  | nil => simp [pieces]
  | cons c cs ih => unfold pieces; split <;> simp [ih]

theorem flatten_pieces (sep : Char → Bool) (cs : List Char) :
    (pieces sep cs).flatten = cs.filter (fun c => !sep c) := by
  induction cs with
  | nil => rfl
  | cons c cs ih =>
    unfold pieces
    split
    · next h => simp [ih, h]
    · next h =>
      have hne := pieces_ne_nil sep cs
      cases hp : pieces sep cs with
      | nil => exact absurd hp hne
      | cons p ps => simp_all

/-- The stretches of a text that hold no blank, without the empty ones. -/
def fields (s : String) : List String :=
  ((pieces isBlank s.toList).filter (· ≠ [])).map String.ofList

/-- The stretches between vertical bars, empty ones included. -/
def splitBars (s : String) : List String := (pieces (· == '|') s.toList).map String.ofList

theorem not_of_mem_pieces {sep : Char → Bool} {cs p : List Char} (hp : p ∈ pieces sep cs) :
    ∀ c ∈ p, sep c = false := by
  have h : ∀ c ∈ (pieces sep cs).flatten, sep c = false := by simp [flatten_pieces]
  exact fun c hc => h c (List.mem_flatten.2 ⟨p, hp, hc⟩)

theorem not_blank_of_mem_fields {s field : String} (h : field ∈ fields s) :
    ∀ c ∈ field.toList, isBlank c = false := by
  simp only [fields, List.mem_map, List.mem_filter] at h
  obtain ⟨p, ⟨hp, -⟩, rfl⟩ := h
  simpa using not_of_mem_pieces hp

end NaturalLanguage.Text
