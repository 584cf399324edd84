/-!
# Ranges of characters

A class of characters is given by an ascending table of code point ranges. The search stops at the
first range that begins after the character, so that common characters are decided early.

* `inRanges_eq_false_of_lt`: a character before the first range is in none.
* `exists_of_inRanges`: a character that is found lies in some range of the table.
-/

namespace NaturalLanguage.Text

/-- Whether `c` lies in one of the ranges, both ends included; the ranges ascend. -/
def inRanges (c : Char) : List (Nat × Nat) → Bool
  | [] => false
  | (first, last) :: rest => first ≤ c.toNat && (c.toNat ≤ last || inRanges c rest)

theorem inRanges_eq_false_of_lt {c : Char} {first last : Nat} {rest : List (Nat × Nat)}
    (h : c.toNat < first) : inRanges c ((first, last) :: rest) = false := by
  simp only [inRanges, Bool.and_eq_false_iff, decide_eq_false_iff_not]
  omega

theorem exists_of_inRanges {c : Char} {ranges : List (Nat × Nat)} (h : inRanges c ranges = true) :
    ∃ range ∈ ranges, range.1 ≤ c.toNat ∧ c.toNat ≤ range.2 := by
  induction ranges with
  | nil => simp [inRanges] at h
  | cons range rest ih =>
    simp only [inRanges, Bool.and_eq_true, Bool.or_eq_true, decide_eq_true_eq] at h
    obtain ⟨hfirst, hlast | hrest⟩ := h
    · exact ⟨range, by simp, hfirst, hlast⟩
    · obtain ⟨r, hr, hc⟩ := ih hrest
      exact ⟨r, by simp [hr], hc⟩

end NaturalLanguage.Text
