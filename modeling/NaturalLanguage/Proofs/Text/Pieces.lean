import Mathlib.Data.List.DropRight
import NaturalLanguage.Text.Blank

/-!
# Texts that are trimmed and cut

Cutting a text at separators undoes joining texts that hold none. Blanks around a joint do no harm
if the pieces are trimmed or cut at blanks afterwards.

* `Blank`: texts without a character that is not blank; `trim_eq_empty_iff`.
* `trim_trim`, `trim_of_forall`, `trim_append_append`: texts that trimming leaves as they are.
* `fields_intercalate`: fields that are joined by blanks and cut again.
* `map_splitBars_intercalate`: texts that are joined by bars between blanks, cut at the bars and
  read in a way that ignores blanks around them.
* `append_inj_of_separator`: a text ends where the first separator stands.
-/

namespace NaturalLanguage.Text

/-- A text without a character that is not blank. -/
def Blank (s : String) : Prop := ∀ c ∈ s.toList, isBlank c = true

instance (s : String) : Decidable (Blank s) :=
  List.decidableBAll (fun c => isBlank c = true) s.toList

/-! ### Trimming -/

section TrimBy

variable {p : Char → Bool} {cs : List Char} {c : Char}

theorem trimBy_eq (p : Char → Bool) (cs : List Char) :
    trimBy p cs = (cs.dropWhile p).rdropWhile p := rfl

theorem mem_of_mem_trimBy (h : c ∈ trimBy p cs) : c ∈ cs :=
  List.dropWhile_subset p ((List.rdropWhile_prefix p _).subset h)

theorem trimBy_eq_nil_iff : trimBy p cs = [] ↔ ∀ c ∈ cs, p c = true := by
  rw [← List.dropWhile_eq_nil_iff, trimBy_eq]
  constructor
  · intro h
    by_contra hne
    -- what is left at the front begins with a character that is kept
    have hhead := List.rdropWhile_eq_nil_iff.1 h _ (List.head_mem hne)
    rw [List.head_dropWhile_not p hne] at hhead
    cases hhead
  · intro h
    rw [h, List.rdropWhile_nil]

theorem trimBy_cons (h : p c = true) : trimBy p (c :: cs) = trimBy p cs := by
  rw [trimBy_eq, trimBy_eq, List.dropWhile_cons_of_pos h]

theorem trimBy_concat (h : p c = true) : trimBy p (cs ++ [c]) = trimBy p cs := by
  rw [trimBy_eq, trimBy_eq, List.dropWhile_append]
  split
  · next hnil =>
    rw [List.isEmpty_iff.1 hnil, List.dropWhile_cons_of_pos h, List.dropWhile_nil]
  · rw [List.rdropWhile_concat_pos p _ c h]

/-- A text that begins and ends with characters that are kept stays as it is. -/
theorem trimBy_eq_self (hfirst : cs.dropWhile p = cs) (hlast : cs.rdropWhile p = cs) :
    trimBy p cs = cs := by
  rw [trimBy_eq, hfirst, hlast]

theorem trimBy_eq_self_iff : trimBy p cs = cs ↔ cs.dropWhile p = cs ∧ cs.rdropWhile p = cs := by
  constructor
  · intro h
    -- nothing can be missing at the front of a text that keeps its length
    have hlength : cs.length ≤ (cs.dropWhile p).length := by
      conv_lhs => rw [← h, trimBy_eq]
      exact (List.rdropWhile_prefix p _).length_le
    have hfirst : cs.dropWhile p = cs := (List.dropWhile_suffix p).eq_of_length_le hlength
    rw [trimBy_eq, hfirst] at h
    exact ⟨hfirst, h⟩
  · exact fun h => trimBy_eq_self h.1 h.2

/-- Texts that stay as they are can be joined with anything between them. -/
theorem trimBy_append_append {ds : List Char} (hcs : trimBy p cs = cs) (hne : cs ≠ [])
    (hds : trimBy p ds = ds) (hne' : ds ≠ []) (middle : List Char) :
    trimBy p (cs ++ middle ++ ds) = cs ++ middle ++ ds := by
  have hfirst := List.dropWhile_eq_self_iff.1 (trimBy_eq_self_iff.1 hcs).1
  have hlast := List.rdropWhile_eq_self_iff.1 (trimBy_eq_self_iff.1 hds).2
  refine trimBy_eq_self ?_ ?_
  · rw [List.dropWhile_eq_self_iff]
    intro hpos
    have hlength := List.length_pos_iff.2 hne
    have hhead : (cs ++ middle ++ ds)[0] = cs[0] := by
      simp only [List.append_assoc, List.getElem_append_left hlength]
    rw [hhead]
    exact hfirst hlength
  · rw [List.rdropWhile_eq_self_iff]
    intro hall
    rw [List.getLast_append_of_ne_nil _ hne']
    exact hlast hne'

theorem trimBy_of_forall (h : ∀ c ∈ cs, p c = false) : trimBy p cs = cs := by
  refine trimBy_eq_self ?_ ?_
  · rw [List.dropWhile_eq_self_iff]
    intro hne
    rw [h _ (List.getElem_mem hne)]
    nofun
  · rw [List.rdropWhile_eq_self_iff]
    intro hne
    rw [h _ (List.getLast_mem hne)]
    nofun

theorem trimBy_trimBy : trimBy p (trimBy p cs) = trimBy p cs := by
  refine trimBy_eq_self ?_ (List.rdropWhile_idempotent p _)
  rw [List.dropWhile_eq_self_iff]
  intro hpos
  -- the first character that is kept at the front is also the first one after the end is cut
  have hdrop : 0 < (cs.dropWhile p).length :=
    Nat.lt_of_lt_of_le hpos (List.rdropWhile_prefix p _).length_le
  have hfirst : (trimBy p cs)[0] = (cs.dropWhile p)[0] :=
    (List.rdropWhile_prefix p _).getElem hpos
  rw [hfirst]
  exact List.dropWhile_get_zero_not p cs hdrop

end TrimBy

variable {s t : String}

@[simp] theorem toList_trim (s : String) : (trim s).toList = trimBy isBlank s.toList :=
  String.toList_ofList

theorem trim_eq_empty_iff : trim s = "" ↔ Blank s := by
  rw [← String.toList_inj, toList_trim, String.toList_empty, trimBy_eq_nil_iff, Blank]

@[simp] theorem trim_trim (s : String) : trim (trim s) = trim s := by
  rw [← String.toList_inj, toList_trim, toList_trim, trimBy_trimBy]

theorem trim_of_forall (h : ∀ c ∈ s.toList, isBlank c = false) : trim s = s := by
  rw [← String.toList_inj, toList_trim, trimBy_of_forall h]

/-- Texts without blanks around them can be joined with anything between them. -/
theorem trim_append_append (hs : trim s = s) (hne : s ≠ "") (ht : trim t = t) (hne' : t ≠ "")
    (middle : String) : trim (s ++ middle ++ t) = s ++ middle ++ t := by
  rw [← String.toList_inj, toList_trim] at hs ht
  rw [← String.toList_inj, toList_trim, String.toList_append, String.toList_append]
  exact trimBy_append_append hs (by simpa using hne) ht (by simpa using hne') _

@[simp] theorem trim_blank_append (s : String) : trim (" " ++ s) = trim s := by
  rw [← String.toList_inj, toList_trim, toList_trim, String.toList_append]
  exact trimBy_cons (by decide)

@[simp] theorem trim_append_blank (s : String) : trim (s ++ " ") = trim s := by
  rw [← String.toList_inj, toList_trim, toList_trim, String.toList_append]
  exact trimBy_concat (by decide)

/-! ### Cutting -/

section Pieces

variable {sep : Char → Bool} {cs : List Char}

theorem pieces_eq_splitOnP (sep : Char → Bool) (cs : List Char) :
    pieces sep cs = cs.splitOnP sep := by
  induction cs with
  | nil => rw [pieces, List.splitOnP_nil]
  | cons c cs ih => rw [pieces, List.splitOnP_cons_eq_if_modifyHead, ih]

theorem pieces_append_cons (ds : List Char) {c : Char} (h : sep c = true) :
    pieces sep (cs ++ c :: ds) = pieces sep cs ++ pieces sep ds := by
  simp only [pieces_eq_splitOnP]
  exact List.splitOnP_append_cons cs ds h

theorem pieces_of_forall (h : ∀ c ∈ cs, sep c = false) : pieces sep cs = [cs] := by
  rw [pieces_eq_splitOnP]
  exact List.splitOnP_eq_singleton h

end Pieces

theorem fields_append_blank_append (s t : String) :
    fields (s ++ " " ++ t) = fields s ++ fields t := by
  have happend : (s ++ " " ++ t).toList = s.toList ++ ' ' :: t.toList := by simp
  rw [fields, fields, fields, happend, pieces_append_cons _ (by decide), List.filter_append,
    List.map_append]

@[simp] theorem fields_empty : fields "" = [] := rfl

@[simp] theorem fields_blank_append (s : String) : fields (" " ++ s) = fields s := by
  simpa using fields_append_blank_append "" s

@[simp] theorem fields_append_blank (s : String) : fields (s ++ " ") = fields s := by
  simpa using fields_append_blank_append s ""

/-- Blanks at the ends of a text are in no field. -/
@[simp] theorem fields_trim (s : String) : fields (trim s) = fields s := by
  have hfront : ∀ cs : List Char, (pieces isBlank (cs.dropWhile isBlank)).filter (· ≠ []) =
      (pieces isBlank cs).filter (· ≠ []) := by
    intro cs
    induction cs with
    | nil => rfl
    | cons c cs ih =>
      rw [List.dropWhile_cons]
      split
      · next hc =>
        rw [ih, pieces, if_pos hc]
        rfl
      · rfl
  have hback : ∀ cs : List Char, (pieces isBlank (cs.rdropWhile isBlank)).filter (· ≠ []) =
      (pieces isBlank cs).filter (· ≠ []) := by
    intro cs
    induction cs using List.reverseRecOn with
    | nil => rfl
    | append_singleton cs c ih =>
      by_cases hc : isBlank c = true
      · rw [List.rdropWhile_concat_pos _ _ _ hc, ih, pieces_append_cons [] hc, List.filter_append]
        simp [pieces]
      · rw [List.rdropWhile_concat_neg _ _ _ hc]
  rw [fields, fields, toList_trim, trimBy_eq, hback, hfront]

theorem fields_eq_nil_iff : fields s = [] ↔ Blank s := by
  have hempty : (pieces isBlank s.toList).flatten = [] ↔ Blank s := by
    rw [flatten_pieces, List.filter_eq_nil_iff]
    simp [Blank]
  rw [fields, List.map_eq_nil_iff, ← hempty, List.flatten_eq_nil_iff, List.filter_eq_nil_iff]
  simp

/-- A text that is one field: it is not empty and holds no blank. -/
def IsField (s : String) : Prop := s ≠ "" ∧ ∀ c ∈ s.toList, isBlank c = false

instance (s : String) : Decidable (IsField s) :=
  @instDecidableAnd (s ≠ "") _ inferInstance
    (List.decidableBAll (fun c => isBlank c = false) s.toList)

theorem isField_of_mem_fields (h : t ∈ fields s) : IsField t := by
  refine ⟨?_, not_blank_of_mem_fields h⟩
  simp only [fields, List.mem_map, List.mem_filter, decide_eq_true_eq] at h
  obtain ⟨cs, ⟨-, hne⟩, rfl⟩ := h
  simpa using hne

/-- Every character of a field is one of the text. -/
theorem mem_of_mem_fields {c : Char} (h : t ∈ fields s) (hc : c ∈ t.toList) : c ∈ s.toList := by
  simp only [fields, List.mem_map, List.mem_filter] at h
  obtain ⟨cs, ⟨hcs, -⟩, rfl⟩ := h
  rw [String.toList_ofList] at hc
  have hflat : c ∈ (pieces isBlank s.toList).flatten := List.mem_flatten.2 ⟨cs, hcs, hc⟩
  rw [flatten_pieces] at hflat
  exact (List.mem_filter.1 hflat).1

theorem IsField.fields_eq (h : IsField s) : fields s = [s] := by
  have hne : s.toList ≠ [] := by simpa using h.1
  rw [fields, pieces_of_forall h.2]
  simp [hne]

/-- A character that is in no text and not between them is not in the joined text. -/
theorem not_mem_intercalate {c : Char} {texts : List String} (hs : c ∉ s.toList)
    (h : ∀ text ∈ texts, c ∉ text.toList) : c ∉ (s.intercalate texts).toList := by
  induction texts with
  | nil => simp
  | cons text texts ih =>
    obtain ⟨htext, htexts⟩ := List.forall_mem_cons.1 h
    cases texts with
    | nil => rwa [String.intercalate_singleton]
    | cons next rest =>
      rw [String.intercalate_cons_cons, String.toList_append, String.toList_append]
      simp only [List.mem_append, not_or]
      exact ⟨⟨htext, hs⟩, ih htexts⟩

/-- Fields that are joined by blanks are cut apart again. -/
theorem fields_intercalate {texts : List String} (h : ∀ text ∈ texts, IsField text) :
    fields (" ".intercalate texts) = texts := by
  induction texts with
  | nil => rw [String.intercalate_nil, fields_empty]
  | cons text texts ih =>
    obtain ⟨htext, htexts⟩ := List.forall_mem_cons.1 h
    cases texts with
    | nil => rw [String.intercalate_singleton, htext.fields_eq]
    | cons next rest =>
      rw [String.intercalate_cons_cons, fields_append_blank_append, htext.fields_eq, ih htexts]
      rfl

/-! ### Bars -/

theorem splitBars_of_not_mem (h : '|' ∉ s.toList) : splitBars s = [s] := by
  have hsep : ∀ c ∈ s.toList, (c == '|') = false := by
    intro c hc
    rw [beq_eq_false_iff_ne]
    rintro rfl
    exact h hc
  rw [splitBars, pieces_of_forall hsep, List.map_singleton, String.ofList_toList]

theorem splitBars_append_bar_append (s t : String) :
    splitBars (s ++ "|" ++ t) = splitBars s ++ splitBars t := by
  have happend : (s ++ "|" ++ t).toList = s.toList ++ '|' :: t.toList := by simp
  rw [splitBars, splitBars, splitBars, happend, pieces_append_cons _ (by decide), List.map_append]

theorem not_mem_of_mem_splitBars (h : t ∈ splitBars s) : '|' ∉ t.toList := by
  obtain ⟨cs, hcs, rfl⟩ := List.mem_map.1 h
  rw [String.toList_ofList]
  intro hmem
  have hbar := not_of_mem_pieces hcs _ hmem
  simp at hbar

/-- A blank in front of a text goes to its first piece. -/
theorem splitBars_blank_append (s : String) :
    splitBars (" " ++ s) = (splitBars s).modifyHead (" " ++ ·) := by
  have happend : (" " ++ s).toList = ' ' :: s.toList := by simp
  rw [splitBars, splitBars, happend, pieces, if_neg (by decide)]
  cases pieces (· == '|') s.toList with
  | nil => rfl
  | cons cs rest => simp

theorem splitBars_ne_nil (s : String) : splitBars s ≠ [] := by simp [splitBars]

section Reading

variable {α : Type} {read : String → α} (hbefore : ∀ s, read (" " ++ s) = read s)
  (hafter : ∀ s, read (s ++ " ") = read s)

include hbefore

theorem map_splitBars_blank_append (s : String) :
    (splitBars (" " ++ s)).map read = (splitBars s).map read := by
  rw [splitBars_blank_append]
  cases splitBars s with
  | nil => rfl
  | cons text rest => rw [List.modifyHead_cons, List.map_cons, List.map_cons, hbefore]

include hafter

/-- Texts that are joined by bars with blanks around them are cut apart again, up to what a reader
that ignores blanks around a text makes of them. -/
theorem map_splitBars_intercalate {texts : List String} (hne : texts ≠ [])
    (hbar : ∀ text ∈ texts, '|' ∉ text.toList) :
    (splitBars (" | ".intercalate texts)).map read = texts.map read := by
  induction texts with
  | nil => exact absurd rfl hne
  | cons text texts ih =>
    obtain ⟨htext, htexts⟩ := List.forall_mem_cons.1 hbar
    cases texts with
    | nil => rw [String.intercalate_singleton, splitBars_of_not_mem htext]
    | cons next rest =>
      -- the bar stands between the blank after this text and the blank before the next ones
      have hjoint : " | ".intercalate (text :: next :: rest) =
          (text ++ " ") ++ "|" ++ (" " ++ " | ".intercalate (next :: rest)) := by
        rw [String.intercalate_cons_cons, ← String.toList_inj]
        simp
      have hfirst : '|' ∉ (text ++ " ").toList := by simpa using htext
      rw [hjoint, splitBars_append_bar_append, splitBars_of_not_mem hfirst, List.map_append,
        map_splitBars_blank_append hbefore, ih (List.cons_ne_nil _ _) htexts]
      simp [hafter]

end Reading

/-! ### The first separator -/

/-- If two texts hold no separator and one follows each of them, what is written determines the text
and all that follows. -/
theorem append_inj_of_separator {sep : Char → Bool} {cs ds more rest : List Char}
    (hcs : ∀ c ∈ cs, sep c = false) (hds : ∀ c ∈ ds, sep c = false)
    (hmore : more.head?.any sep = true) (hrest : rest.head?.any sep = true)
    (h : cs ++ more = ds ++ rest) : cs = ds ∧ more = rest := by
  have hfront : ∀ {es following : List Char}, (∀ c ∈ es, sep c = false) →
      following.head?.any sep = true → (es ++ following).takeWhile (!sep ·) = es := by
    intro es following hes hfollowing
    rw [List.takeWhile_append_of_pos fun c hc => by rw [hes c hc]; rfl]
    cases following with
    | nil => cases hfollowing
    | cons c following =>
      have hc : sep c = true := hfollowing
      rw [List.takeWhile_cons_of_neg (by rw [hc]; nofun), List.append_nil]
  have heq : cs = ds := by rw [← hfront hcs hmore, h, hfront hds hrest]
  subst heq
  exact ⟨rfl, List.append_cancel_left h⟩

end NaturalLanguage.Text
