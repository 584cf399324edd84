import Mathlib.Data.List.TakeWhile
import NaturalLanguage.Decimal.Read
import NaturalLanguage.Decimal.Shortest
import NaturalLanguage.Text.Blank

/-!
# Texts that are read as numbers

A text that is read as a number holds letters, digits, signs and points, and nothing else. What
`plain` writes is always read as a number: digits with or without a point, `inf` or `NaN`.

* `isNumeral`: the characters of numbers; `isNumeral_of_read?`.
* `isSome_read?_positional`: decimals in positional notation are read.
* `isSome_read?_plain`: whatever is written is read.
-/

namespace NaturalLanguage.Decimal

/-! ### Characters of numbers -/

/-- Whether a character may occur in a number. -/
def isNumeral (c : Char) : Bool := c.isAlphanum || c = '+' || c = '-' || c = '.'

theorem isUpper_iff {c : Char} : c.isUpper = true ↔ 65 ≤ c.toNat ∧ c.toNat ≤ 90 := by
  show decide (c.val ≥ 'A'.val ∧ c.val ≤ 'Z'.val) = true ↔ _
  rw [decide_eq_true_iff]
  rfl

theorem isLower_iff {c : Char} : c.isLower = true ↔ 97 ≤ c.toNat ∧ c.toNat ≤ 122 := by
  show (decide (c.val ≥ 'a'.val) && decide (c.val ≤ 'z'.val)) = true ↔ _
  rw [Bool.and_eq_true, decide_eq_true_iff, decide_eq_true_iff]
  rfl

theorem isDigit_iff {c : Char} : c.isDigit = true ↔ 48 ≤ c.toNat ∧ c.toNat ≤ 57 := by
  show (decide (c.val ≥ '0'.val) && decide (c.val ≤ '9'.val)) = true ↔ _
  rw [Bool.and_eq_true, decide_eq_true_iff, decide_eq_true_iff]
  rfl

theorem isNumeral_iff {c : Char} : isNumeral c = true ↔
    ((c.isUpper = true ∨ c.isLower = true) ∨ c.isDigit = true) ∨
      c = '+' ∨ c = '-' ∨ c = '.' := by
  show (((((c.isUpper || c.isLower) || c.isDigit) || decide (c = '+')) || decide (c = '-')) ||
    decide (c = '.')) = true ↔ _
  simp only [Bool.or_eq_true, decide_eq_true_iff, or_assoc]

theorem isNumeral_of_isDigit {c : Char} (h : c.isDigit = true) : isNumeral c = true :=
  isNumeral_iff.2 (.inl (.inr h))

theorem toNat_of_isNumeral {c : Char} (h : isNumeral c = true) : 43 ≤ c.toNat ∧ c.toNat ≤ 122 := by
  rw [isNumeral_iff, isUpper_iff, isLower_iff, isDigit_iff] at h
  obtain h | rfl | rfl | rfl := h
  · omega
  all_goals decide

/-- A number holds no blank. -/
theorem isBlank_of_isNumeral {c : Char} (h : isNumeral c = true) : Text.isBlank c = false := by
  have hbounds := toNat_of_isNumeral h
  rw [Bool.eq_false_iff]
  intro hblank
  obtain ⟨range, hrange, hfirst, hlast⟩ := Text.exists_of_inRanges hblank
  simp only [Text.blankRanges, List.mem_cons, List.not_mem_nil, or_false] at hrange
  -- the ranges of blanks lie before the signs or after the letters
  obtain rfl | rfl | rfl | rfl | rfl | rfl | rfl | rfl | rfl | rfl := hrange <;>
    simp only at hfirst hlast <;> omega

/-- A character that becomes a letter of a name in small letters is a letter. -/
theorem isNumeral_of_toLower {c : Char}
    (h : c.toLower ∈ ['i', 'n', 'f', 't', 'y', 'a']) : isNumeral c = true := by
  by_cases hupper : c.val ≥ 'A'.val ∧ c.val ≤ 'Z'.val
  · exact isNumeral_iff.2 (.inl (.inl (.inl (decide_eq_true hupper))))
  · have hsame : c.toLower = c := dif_neg hupper
    rw [hsame] at h
    simp only [List.mem_cons, List.not_mem_nil, or_false] at h
    obtain rfl | rfl | rfl | rfl | rfl | rfl := h <;> rfl

theorem isNumeral_of_map_toLower {cs name : List Char} (h : cs.map Char.toLower = name)
    (hname : name ⊆ ['i', 'n', 'f', 't', 'y', 'a']) : ∀ c ∈ cs, isNumeral c = true := by
  intro c hc
  refine isNumeral_of_toLower (hname ?_)
  rw [← h]
  exact List.mem_map_of_mem hc

theorem mem_readSign {cs : List Char} {c : Char} (hc : c ∈ cs) :
    isNumeral c = true ∨ c ∈ (readSign cs).2 := by
  unfold readSign
  split
  · obtain rfl | hc := List.mem_cons.1 hc
    · exact .inl rfl
    · exact .inr hc
  · obtain rfl | hc := List.mem_cons.1 hc
    · exact .inl rfl
    · exact .inr hc
  · exact .inr hc

theorem mem_readDigits {cs : List Char} {c : Char} (hc : c ∈ cs) :
    isNumeral c = true ∨ c ∈ (readDigits cs).2 := by
  rw [← readDigits_append cs, List.mem_append] at hc
  exact hc.imp (fun hdigit => isNumeral_of_isDigit (List.mem_takeWhile_imp hdigit)) id

theorem isNumeral_of_readExponent? {cs : List Char} {exponent : Int}
    (h : readExponent? cs = some exponent) : ∀ c ∈ cs, isNumeral c = true := by
  intro c hc
  cases cs with
  | nil => cases hc
  | cons mark rest =>
    rw [readExponent?] at h
    split at h
    · next hmark =>
      obtain rfl | hc := List.mem_cons.1 hc
      · obtain rfl | rfl := hmark <;> rfl
      · simp only at h
        split at h
        · next hdigits =>
          -- nothing is left behind the digits
          refine (mem_readSign hc).elim id fun hc => (mem_readDigits hc).elim id fun hc => ?_
          rw [hdigits.2] at hc
          cases hc
        · cases h
    · cases h

theorem isNumeral_of_readUnsigned? {negative : Bool} {cs : List Char} {p : Float}
    (h : readUnsigned? negative cs = some p) : ∀ c ∈ cs, isNumeral c = true := by
  intro c hc
  simp only [readUnsigned?, Option.bind_eq_bind, Option.bind_eq_some_iff] at h
  obtain ⟨exponent, hexponent, -⟩ := h
  refine (mem_readDigits hc).elim id fun hc => ?_
  -- behind the digits there is a point with more digits, or the exponent at once
  split at hexponent
  · next after hpoint =>
    rw [hpoint] at hc
    obtain rfl | hc := List.mem_cons.1 hc
    · rfl
    · exact (mem_readDigits hc).elim id (isNumeral_of_readExponent? hexponent c)
  · exact isNumeral_of_readExponent? hexponent c hc

/-- A text that is read as a number holds only letters, digits, signs and points. -/
theorem isNumeral_of_read? {s : String} {p : Float} (h : read? s = some p) :
    ∀ c ∈ s.toList, isNumeral c = true := by
  intro c hc
  refine (mem_readSign hc).elim id fun hc => ?_
  simp only [read?] at h
  split at h
  · next hname =>
    obtain hname | hname := hname
    · exact isNumeral_of_map_toLower hname (by decide) c hc
    · exact isNumeral_of_map_toLower hname (by decide) c hc
  · split at h
    · next hname => exact isNumeral_of_map_toLower hname (by decide) c hc
    · exact isNumeral_of_readUnsigned? h c hc

/-! ### What is written is read -/

section Digits

variable {negative : Bool} {ds whole fraction rest : List Char}

theorem readDigits_append_of_forall (hds : ∀ d ∈ ds, d.isDigit = true)
    (hrest : ∀ c ∈ rest.head?, c.isDigit = false) : readDigits (ds ++ rest) = (ds, rest) := by
  rw [readDigits, List.takeWhile_append_of_pos hds, List.dropWhile_append_of_pos hds]
  cases rest with
  | nil => simp
  | cons c rest => simp [hrest c rfl]

theorem readDigits_of_forall (hds : ∀ d ∈ ds, d.isDigit = true) : readDigits ds = (ds, []) := by
  have hend : ∀ c ∈ ([] : List Char).head?, c.isDigit = false := nofun
  simpa using readDigits_append_of_forall hds hend

/-- Digits are read as a number. -/
theorem isSome_readUnsigned?_digits (hds : ∀ d ∈ ds, d.isDigit = true) (hne : ds ≠ []) :
    (readUnsigned? negative ds).isSome := by
  simp [readUnsigned?, readDigits_of_forall hds, readExponent?, hne]

/-- Digits with a point among them are read as a number. -/
theorem isSome_readUnsigned?_point (hwhole : ∀ d ∈ whole, d.isDigit = true) (hne : whole ≠ [])
    (hfraction : ∀ d ∈ fraction, d.isDigit = true) :
    (readUnsigned? negative (whole ++ '.' :: fraction)).isSome := by
  have hpoint : ∀ c ∈ ('.' :: fraction).head?, c.isDigit = false := by
    rintro c ⟨⟩
    rfl
  simp [readUnsigned?, readDigits_append_of_forall hwhole hpoint, readDigits_of_forall hfraction,
    readExponent?, hne]

end Digits

/-- A decimal in positional notation has digits, and perhaps a point with digits after it. -/
theorem Digits.positional_cases (d : Digits) :
    ∃ whole, whole ≠ [] ∧ (∀ c ∈ whole, c.isDigit = true) ∧ (d.positional = whole ∨
      ∃ fraction, (∀ c ∈ fraction, c.isDigit = true) ∧
        d.positional = whole ++ '.' :: fraction) := by
  have hzeros : ∀ n, ∀ c ∈ List.replicate n '0', c.isDigit = true := by
    intro n c hc
    rw [List.eq_of_mem_replicate hc]
    rfl
  have hwritten : ∀ c ∈ Nat.toDigits 10 d.digits, c.isDigit = true := fun c hc =>
    Nat.isDigit_of_mem_toDigits (by decide) (by decide) hc
  simp only [positional]
  split
  · refine ⟨_, ?_, ?_, .inl rfl⟩
    · simp [Nat.toDigits_ne_nil]
    · exact List.forall_mem_append.2 ⟨hwritten, hzeros _⟩
  · generalize hpadded : List.replicate _ '0' ++ Nat.toDigits 10 d.digits = padded
    have hdigits : ∀ c ∈ padded, c.isDigit = true := by
      rw [← hpadded]
      exact List.forall_mem_append.2 ⟨hzeros _, hwritten⟩
    -- the zeros in front leave at least one digit before the point
    have hlength : (-d.power).toNat < padded.length := by
      rw [← hpadded, List.length_append, List.length_replicate]
      omega
    refine ⟨_, ?_, fun c hc => hdigits c (List.mem_of_mem_take hc), .inr ⟨_,
      fun c hc => hdigits c (List.mem_of_mem_drop hc), rfl⟩⟩
    rw [← List.length_pos_iff, List.length_take]
    omega

theorem toLower_of_isDigit {c : Char} (h : c.isDigit = true) : c.toLower = c := by
  rw [isDigit_iff] at h
  refine dif_neg ?_
  rintro ⟨hupper, -⟩
  change 65 ≤ c.toNat at hupper
  omega

/-- A sign and a text that begins with a digit: the sign is read, and the rest is no name. -/
theorem read?_sign_append {negative : Bool} {c : Char} {cs : List Char} (h : c.isDigit = true) :
    read? (String.ofList (sign negative ++ c :: cs)) = readUnsigned? negative (c :: cs) := by
  have hsign : readSign (sign negative ++ c :: cs) = (negative, c :: cs) := by
    cases negative with
    | true => rfl
    | false =>
      unfold readSign
      split
      · next heq =>
        obtain ⟨rfl, -⟩ := List.cons.inj heq
        cases h
      · next heq =>
        obtain ⟨rfl, -⟩ := List.cons.inj heq
        cases h
      · rfl
  -- `inf`, `infinity` and `nan` do not begin with a digit
  have hletter : ∀ (letter : Char) (rest : List Char), letter.isDigit = false →
      c :: cs.map Char.toLower ≠ letter :: rest := by
    rintro letter rest hletter heq
    obtain ⟨rfl, -⟩ := List.cons.inj heq
    rw [h] at hletter
    cases hletter
  simp only [read?, String.toList_ofList, hsign, List.map_cons, toLower_of_isDigit h]
  rw [if_neg (not_or.2 ⟨hletter _ _ rfl, hletter _ _ rfl⟩), if_neg (hletter _ _ rfl)]

/-- A decimal in positional notation is read as a number. -/
theorem isSome_read?_positional (negative : Bool) (d : Digits) :
    (read? (String.ofList (sign negative ++ d.positional))).isSome := by
  obtain ⟨whole, hne, hwhole, hpositional⟩ := d.positional_cases
  obtain ⟨c, cs, rfl⟩ := List.exists_cons_of_ne_nil hne
  have hfirst := hwhole c List.mem_cons_self
  obtain hpositional | ⟨fraction, hfraction, hpositional⟩ := hpositional
  · rw [hpositional, read?_sign_append hfirst]
    exact isSome_readUnsigned?_digits hwhole hne
  · rw [hpositional, List.cons_append, read?_sign_append hfirst]
    exact isSome_readUnsigned?_point hwhole hne hfraction

/-- What is written for a number is read as a number. -/
theorem isSome_read?_plain (x : Float) : (read? (plain x)).isSome := by
  unfold plain
  split
  · rfl
  · next negative _ => cases negative <;> rfl
  · exact isSome_read?_positional _ _

end NaturalLanguage.Decimal
