import NaturalLanguage.Proofs.Decimal.Reading
import NaturalLanguage.Proofs.Weighted.Building

/-!
# What a written alternative says

The brackets of an alternative begin at the last opening bracket of its text, and the text has to
end with the closing one. An alternative is read if there are such brackets with a number between
them, and there are two reasons why it cannot be read.

* `Brackets`: a text with a value in brackets at its end; `splitBrackets?_toList_iff`.
* `Alternative.Reads`, `Alternative.read_eq_ok_iff`: what a readable alternative says.
* `Alternative.Unreadable`, `Alternative.read_eq_error_iff`: why an alternative cannot be read.
-/

namespace NaturalLanguage.WeightedGrammar

open Text

/-! ### Brackets -/

theorem splitBrackets?_append {before value : List Char} (h : '[' ∉ value) :
    splitBrackets? (before ++ '[' :: (value ++ [']'])) = some (before, value) := by
  have hvalue : ∀ c ∈ value.reverse, decide (c ≠ '[') = true := by
    intro c hc
    rw [decide_eq_true_iff]
    rintro rfl
    exact h (List.mem_reverse.1 hc)
  have hreverse : (before ++ '[' :: (value ++ [']'])).reverse =
      ']' :: (value.reverse ++ '[' :: before.reverse) := by
    simp
  simp only [splitBrackets?, hreverse]
  rw [List.dropWhile_append_of_pos hvalue, List.takeWhile_append_of_pos hvalue]
  simp

theorem eq_append_of_splitBrackets? {cs before value : List Char}
    (h : splitBrackets? cs = some (before, value)) :
    cs = before ++ '[' :: (value ++ [']']) ∧ '[' ∉ value := by
  unfold splitBrackets? at h
  split at h
  · next rest hreverse =>
    split at h
    · next before' hdrop =>
      obtain ⟨rfl, rfl⟩ := Prod.mk.inj (Option.some.inj h)
      have hcs : cs = (']' :: rest).reverse := by rw [← hreverse, List.reverse_reverse]
      have hrest : rest.takeWhile (· ≠ '[') ++ '[' :: before' = rest := by
        rw [← hdrop, List.takeWhile_append_dropWhile]
      constructor
      · rw [hcs]
        conv_lhs => rw [← hrest]
        simp
      · intro hmem
        have hkept := List.mem_takeWhile_imp (List.mem_reverse.1 hmem)
        simp at hkept
    · cases h
  · cases h

/-- A text that ends with a value in brackets; the value holds no opening bracket. -/
structure Brackets (text before value : String) : Prop where
  eq : text = before ++ "[" ++ value ++ "]"
  last : '[' ∉ value.toList

theorem brackets_iff {text before value : String} :
    Brackets text before value ↔
      splitBrackets? text.toList = some (before.toList, value.toList) := by
  have heq : text = before ++ "[" ++ value ++ "]" ↔
      text.toList = before.toList ++ '[' :: (value.toList ++ [']']) := by
    rw [← String.toList_inj]
    simp
  constructor
  · rintro ⟨htext, hlast⟩
    rw [heq.1 htext]
    exact splitBrackets?_append hlast
  · intro h
    obtain ⟨htext, hlast⟩ := eq_append_of_splitBrackets? h
    exact ⟨heq.2 htext, hlast⟩

/-- A text has brackets at its end if it ends with a closing bracket behind an opening one. -/
theorem exists_brackets_iff {text : String} :
    (∃ before value, Brackets text before value) ↔
      ∃ before value, text = before ++ "[" ++ value ++ "]" := by
  constructor
  · rintro ⟨before, value, h⟩
    exact ⟨before, value, h.eq⟩
  · rintro ⟨before, value, rfl⟩
    -- the last opening bracket is the first one from the end
    have hmem : '[' ∈ ('[' :: value.toList).reverse := by simp
    obtain ⟨after, front, hsplit, hlast⟩ := List.eq_append_cons_of_mem hmem
    have hback : "[".toList ++ value.toList =
        front.reverse ++ ("[".toList ++ after.reverse) := by
      rw [← List.reverse_inj]
      simpa using hsplit
    refine ⟨String.ofList (before.toList ++ front.reverse), String.ofList after.reverse, ?_, ?_⟩
    · rw [← String.toList_inj]
      simp only [String.toList_append, String.toList_ofList, List.append_assoc]
      rw [← List.append_assoc _ value.toList, hback]
      simp only [List.append_assoc]
    · simpa using hlast

/-! ### Reading -/

section ReadWeighted

variable {head : Symbol} {text : String} {p : Float}

theorem readWeighted_of_number {before value : String} (h : Brackets (trim text) before value)
    (hvalue : Decimal.read? (trim value) = some p) :
    readWeighted head text = .ok (trim before, p) := by
  rw [readWeighted, brackets_iff.1 h]
  simp only [String.ofList_toList, hvalue]

theorem readWeighted_of_no_number {before value : String} (h : Brackets (trim text) before value)
    (hvalue : Decimal.read? (trim value) = none) :
    readWeighted head text = .error (.badProbability head (trim value)) := by
  rw [readWeighted, brackets_iff.1 h]
  simp only [String.ofList_toList, hvalue]

theorem readWeighted_of_no_brackets (h : ¬ ∃ before value, Brackets (trim text) before value) :
    readWeighted head text = .error (.missingProbability head (trim text)) := by
  have hnone : splitBrackets? (trim text).toList = none := by
    rw [Option.eq_none_iff_forall_ne_some]
    rintro ⟨before, value⟩ hsome
    refine h ⟨String.ofList before, String.ofList value, brackets_iff.2 ?_⟩
    simpa using hsome
  rw [readWeighted, hnone]

end ReadWeighted

namespace Alternative

/-- What an alternative says: the symbols of a body or a word, and the number in brackets behind
them. -/
inductive Reads : Alternative → Entry → Prop
  | rule {head : Symbol} {text before value : String} {p : Float} :
      Brackets (trim text) before value → Decimal.read? (trim value) = some p →
        Reads (.rule head text) (.rule head (fields before) p)
  | word {category : Symbol} {text before value : String} {p : Float} :
      Brackets (trim text) before value → Decimal.read? (trim value) = some p →
        Reads (.word category text) (.word category (trim before) p)

/-- Why an alternative cannot be read: there are no brackets at its end, or no number in them. -/
inductive Unreadable : Alternative → GrammarError → Prop
  | noBrackets {a : Alternative} :
      (¬ ∃ before value, trim a.text = before ++ "[" ++ value ++ "]") →
        Unreadable a (.missingProbability a.name (trim a.text))
  | noNumber {a : Alternative} {before value : String} : Brackets (trim a.text) before value →
      Decimal.read? (trim value) = none → Unreadable a (.badProbability a.name (trim value))

variable {a : Alternative} {entry : Entry} {cause : GrammarError}

theorem Reads.read_eq (h : a.Reads entry) : a.read = .ok entry := by
  cases h with
  | rule hbrackets hvalue =>
    rw [read, readRule, readWeighted_of_number hbrackets hvalue]
    simp only [Except.map, fields_trim]
  | word hbrackets hvalue =>
    rw [read, readWord, readWeighted_of_number hbrackets hvalue]
    rfl

theorem read_of_readWeighted (h : readWeighted a.name a.text = .error cause) :
    a.read = .error cause := by
  cases a with
  | rule head text =>
    have hread : readWeighted head text = .error cause := h
    rw [read, readRule, hread]
    rfl
  | word category text =>
    have hread : readWeighted category text = .error cause := h
    rw [read, readWord, hread]
    rfl

theorem Unreadable.read_eq (h : a.Unreadable cause) : a.read = .error cause := by
  cases h with
  | noBrackets hnone =>
    exact read_of_readWeighted (readWeighted_of_no_brackets (mt exists_brackets_iff.1 hnone))
  | noNumber hbrackets hvalue =>
    exact read_of_readWeighted (readWeighted_of_no_number hbrackets hvalue)

/-- An alternative says something or cannot be read for some reason. -/
theorem reads_or_unreadable (a : Alternative) :
    (∃ entry, a.Reads entry) ∨ ∃ cause, a.Unreadable cause := by
  by_cases hbrackets : ∃ before value, Brackets (trim a.text) before value
  · obtain ⟨before, value, hbrackets⟩ := hbrackets
    cases hvalue : Decimal.read? (trim value) with
    | none => exact .inr ⟨_, .noNumber hbrackets hvalue⟩
    | some p =>
      left
      cases a with
      | rule head text => exact ⟨_, .rule hbrackets hvalue⟩
      | word category text => exact ⟨_, .word hbrackets hvalue⟩
  · exact .inr ⟨_, .noBrackets (mt exists_brackets_iff.2 hbrackets)⟩

theorem read_eq_ok_iff : a.read = .ok entry ↔ a.Reads entry := by
  refine ⟨fun h => ?_, Reads.read_eq⟩
  obtain ⟨entry', hreads⟩ | ⟨cause, hunreadable⟩ := a.reads_or_unreadable
  · obtain rfl : entry = entry' := Except.ok.inj (h.symm.trans hreads.read_eq)
    exact hreads
  · cases h.symm.trans hunreadable.read_eq

theorem read_eq_error_iff : a.read = .error cause ↔ a.Unreadable cause := by
  refine ⟨fun h => ?_, Unreadable.read_eq⟩
  obtain ⟨entry, hreads⟩ | ⟨cause', hunreadable⟩ := a.reads_or_unreadable
  · cases h.symm.trans hreads.read_eq
  · obtain rfl : cause = cause' := Except.error.inj (h.symm.trans hunreadable.read_eq)
    exact hunreadable

end Alternative

end NaturalLanguage.WeightedGrammar
