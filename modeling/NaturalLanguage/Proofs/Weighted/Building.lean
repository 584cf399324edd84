import NaturalLanguage.Proofs.Text.Pieces
import NaturalLanguage.Proofs.Weighted.Entries
import NaturalLanguage.Weighted.Builder

/-!
# Taking entries while rows are read

The builder adds what an entry becomes and remembers why an entry is refused. As the first cause is
kept, taking the entries one by one comes to the same as checking all of them before any is added.
Reading an alternative and taking its entry by turns comes to the same as reading all alternatives
first: an alternative that cannot be read ends both, and what was remembered before it is lost.

* `Entry.Refused`: the causes for refusing an entry; `Entry.checked_eq_error_iff`.
* `Builder.finish_foldl_take`: taking entries one by one builds what `ofEntries` builds.
* `readRows_eq`: reading and taking by turns builds what `ofRows` builds.
-/

namespace NaturalLanguage.WeightedGrammar

open Text

/-! ### Refused entries -/

namespace Entry

/-- The causes for refusing an entry: a blank name, then a weight that is no probability, then a
body that is not binary. -/
inductive Refused : Entry → GrammarError → Prop
  | blankRule {head : Symbol} {body : List Symbol} {p : Float} :
      Blank head ∨ (∃ sym ∈ body, Blank sym) → Refused (.rule head body p)
        (.emptySymbol (trim head ++ " -> " ++ " ".intercalate (body.map trim)))
  | ruleWeight {head : Symbol} {body : List Symbol} {p : Float} :
      ¬ (Blank head ∨ ∃ sym ∈ body, Blank sym) → ¬ InUnit p →
        Refused (.rule head body p) (.badProbability (trim head) (Decimal.plain p))
  | notBinary {head : Symbol} {body : List Symbol} {p : Float} :
      ¬ (Blank head ∨ ∃ sym ∈ body, Blank sym) → InUnit p → body.length ≠ 2 →
        Refused (.rule head body p) (.notBinary (trim head) (body.map trim))
  | blankCategory {category : Symbol} {spelled : Word} {p : Float} : Blank category →
      Refused (.word category spelled p) (.emptySymbol "lexicon")
  | blankWord {category : Symbol} {spelled : Word} {p : Float} : ¬ Blank category →
      Blank spelled → Refused (.word category spelled p) (.emptyWord (trim category))
  | wordWeight {category : Symbol} {spelled : Word} {p : Float} : ¬ Blank category →
      ¬ Blank spelled → ¬ InUnit p →
        Refused (.word category spelled p) (.badProbability (trim category) (Decimal.plain p))

variable {entry : Entry} {cause : GrammarError}

theorem checkProbability_of_not_inUnit {head : Symbol} {p : Float} (h : ¬ InUnit p) :
    checkProbability head p = .error (.badProbability head (Decimal.plain p)) := by
  rw [checkProbability, if_neg (mt isProbability_iff.1 h)]

theorem blank_iff {head : Symbol} {body : List Symbol} :
    trim head = "" ∨ "" ∈ body.map trim ↔ Blank head ∨ ∃ sym ∈ body, Blank sym := by
  simp only [List.mem_map, trim_eq_empty_iff]

theorem Refused.checked_eq (h : entry.Refused cause) : entry.checked = .error cause := by
  cases h with
  | blankRule hblank =>
    rw [checked, checkRule, if_pos (blank_iff.2 hblank)]
    rfl
  | ruleWeight hblank hp =>
    rw [checked, checkRule, if_neg (mt blank_iff.1 hblank), checkProbability_of_not_inUnit hp]
    rfl
  | @notBinary head body p hblank hp hbody =>
    rw [checked, checkRule, if_neg (mt blank_iff.1 hblank),
      checkProbability_eq_ok_iff.2 ⟨hp, rfl⟩]
    rcases body with _ | ⟨first, _ | ⟨second, _ | ⟨third, rest⟩⟩⟩
    · rfl
    · rfl
    · exact absurd rfl hbody
    · rfl
  | blankCategory hcategory =>
    rw [checked, checkWord, if_pos (trim_eq_empty_iff.2 hcategory)]
    rfl
  | blankWord hcategory hword =>
    rw [checked, checkWord, if_neg (mt trim_eq_empty_iff.1 hcategory),
      if_pos (trim_eq_empty_iff.2 hword)]
    rfl
  | wordWeight hcategory hword hp =>
    rw [checked, checkWord, if_neg (mt trim_eq_empty_iff.1 hcategory),
      if_neg (mt trim_eq_empty_iff.1 hword), checkProbability_of_not_inUnit hp]
    rfl

/-- A rule passes its check exactly if it has no blank name, a probability and a binary body. -/
theorem exists_checked_rule_iff {head : Symbol} {body : List Symbol} {p : Float} :
    (∃ item, (rule head body p).checked = .ok item) ↔
      ¬ (Blank head ∨ ∃ sym ∈ body, Blank sym) ∧ InUnit p ∧ body.length = 2 := by
  constructor
  · rintro ⟨item, h⟩
    obtain ⟨_, _, _, rule, heq, -, hrule⟩ | ⟨_, _, _, _, heq, -⟩ := exists_of_checked h
    · cases heq
      obtain ⟨hhead, hblank, hp, hbody, -, -⟩ := checkRule_eq_ok_iff.1 hrule
      refine ⟨mt blank_iff.2 (not_or.2 ⟨hhead, hblank⟩), hp, ?_⟩
      rw [← List.length_map, hbody]
      rfl
    · cases heq
  · rintro ⟨hblank, hp, hbody⟩
    obtain ⟨left, right, rfl⟩ := List.length_eq_two.1 hbody
    obtain ⟨hhead, hsymbols⟩ := not_or.1 (mt blank_iff.1 hblank)
    have hrule : checkRule (trim head) ([left, right].map trim) p =
        .ok ⟨trim head, trim left, trim right, p⟩ :=
      checkRule_eq_ok_iff.2 ⟨hhead, hsymbols, hp, rfl, rfl, rfl⟩
    exact ⟨_, by rw [checked, hrule]; rfl⟩

/-- A word passes its check exactly if it has no blank name and a probability. -/
theorem exists_checked_word_iff {category : Symbol} {spelled : Word} {p : Float} :
    (∃ item, (word category spelled p).checked = .ok item) ↔
      ¬ Blank category ∧ ¬ Blank spelled ∧ InUnit p := by
  simp only [← trim_eq_empty_iff]
  constructor
  · rintro ⟨item, h⟩
    obtain ⟨_, _, _, _, heq, -⟩ | ⟨_, _, _, listed, heq, -, hword⟩ := exists_of_checked h
    · cases heq
    · cases heq
      obtain ⟨hcategory, hblank, hp, -⟩ := checkWord_eq_ok_iff.1 hword
      exact ⟨hcategory, hblank, hp⟩
  · rintro ⟨hcategory, hblank, hp⟩
    have hword := checkWord_eq_ok_iff.2 ⟨hcategory, hblank, hp, rfl⟩
    exact ⟨_, by rw [checked, hword]; rfl⟩

/-- An entry that does not pass its check is refused for some cause. -/
theorem exists_refused (h : ¬ ∃ item, entry.checked = .ok item) : ∃ cause, entry.Refused cause := by
  cases entry with
  | rule head body p =>
    rw [exists_checked_rule_iff] at h
    by_cases hblank : Blank head ∨ ∃ sym ∈ body, Blank sym
    · exact ⟨_, .blankRule hblank⟩
    · by_cases hp : InUnit p
      · exact ⟨_, .notBinary hblank hp fun hbody => h ⟨hblank, hp, hbody⟩⟩
      · exact ⟨_, .ruleWeight hblank hp⟩
  | word category spelled p =>
    rw [exists_checked_word_iff] at h
    by_cases hcategory : Blank category
    · exact ⟨_, .blankCategory hcategory⟩
    · by_cases hword : Blank spelled
      · exact ⟨_, .blankWord hcategory hword⟩
      · exact ⟨_, .wordWeight hcategory hword fun hp => h ⟨hcategory, hword, hp⟩⟩

theorem checked_eq_error_iff : entry.checked = .error cause ↔ entry.Refused cause := by
  constructor
  · intro h
    have hfails : ¬ ∃ item, entry.checked = .ok item := by
      rintro ⟨item, hitem⟩
      cases h.symm.trans hitem
    obtain ⟨cause', hrefused⟩ := exists_refused hfails
    obtain rfl : cause = cause' := Except.error.inj (h.symm.trans hrefused.checked_eq)
    exact hrefused
  · exact Refused.checked_eq

end Entry

/-! ### Entries taken one by one -/

namespace Builder

variable {b : Builder} {entry : Entry} {item : Item} {cause : GrammarError}

/-- Add what an entry becomes. -/
def add (b : Builder) : Item → Builder
  | .inl rule => { b with rules := b.rules ++ [rule] }
  | .inr entry => { b with lexicon := b.lexicon ++ [entry] }

@[simp] theorem error?_add (b : Builder) (item : Item) : (b.add item).error? = b.error? := by
  cases item <;> rfl

theorem error?_refuse (h : b.error? = none) (cause : GrammarError) :
    (b.refuse cause).error? = some cause := by
  rw [refuse, h, Option.none_or]

theorem error?_refuse_of_some (h : b.error? = some cause) (later : GrammarError) :
    (b.refuse later).error? = some cause := by
  rw [refuse, h, Option.some_or]

/-- An entry that passes its check is added. -/
theorem take_of_checked (h : entry.checked = .ok item) (b : Builder) :
    b.take entry = b.add item := by
  obtain ⟨head, body, p, rule, rfl, rfl, hrule⟩ | ⟨category, spelled, p, listed, rfl, rfl, hword⟩ :=
    Entry.exists_of_checked h
  · obtain ⟨hhead, hblank, hp, hbody, hrulehead, rfl⟩ := checkRule_eq_ok_iff.1 hrule
    rw [take, takeRule, if_neg (not_or.2 ⟨hhead, hblank⟩), if_pos (isProbability_iff.2 hp), hbody,
      ← hrulehead]
    rfl
  · obtain ⟨hcategory, hblank, hp, rfl⟩ := checkWord_eq_ok_iff.1 hword
    rw [take, takeWord, if_neg hcategory, if_neg hblank, if_pos (isProbability_iff.2 hp)]
    rfl

/-- An entry that is refused leaves nothing but the cause. -/
theorem take_of_refused (h : entry.Refused cause) (b : Builder) :
    b.take entry = b.refuse cause := by
  cases h with
  | blankRule hblank =>
    rw [take, takeRule, if_pos (Entry.blank_iff.2 hblank)]
    rfl
  | ruleWeight hblank hp =>
    rw [take, takeRule, if_neg (mt Entry.blank_iff.1 hblank), if_neg (mt isProbability_iff.1 hp)]
  | @notBinary head body p hblank hp hbody =>
    rw [take, takeRule, if_neg (mt Entry.blank_iff.1 hblank), if_pos (isProbability_iff.2 hp)]
    rcases body with _ | ⟨first, _ | ⟨second, _ | ⟨third, rest⟩⟩⟩
    · rfl
    · rfl
    · exact absurd rfl hbody
    · rfl
  | blankCategory hcategory => rw [take, takeWord, if_pos (trim_eq_empty_iff.2 hcategory)]
  | blankWord hcategory hword =>
    rw [take, takeWord, if_neg (mt trim_eq_empty_iff.1 hcategory),
      if_pos (trim_eq_empty_iff.2 hword)]
  | wordWeight hcategory hword hp =>
    rw [take, takeWord, if_neg (mt trim_eq_empty_iff.1 hcategory),
      if_neg (mt trim_eq_empty_iff.1 hword), if_neg (mt isProbability_iff.1 hp)]

/-- A cause that is remembered stays, whatever is taken afterwards. -/
theorem error?_foldl_take_of_some (h : b.error? = some cause) (entries : List Entry) :
    (entries.foldl take b).error? = some cause := by
  induction entries generalizing b with
  | nil => exact h
  | cons entry entries ih =>
    refine ih ?_
    cases hentry : entry.checked with
    | ok item => rw [take_of_checked hentry, error?_add, h]
    | error later =>
      rw [take_of_refused (Entry.checked_eq_error_iff.1 hentry), error?_refuse_of_some h]

theorem toGrammar_foldl_add (items : List Item) (b : Builder) (start : Symbol) :
    (items.foldl add b).toGrammar start =
      let given := ofItems start items
      ⟨start, b.rules ++ given.rules, b.lexicon ++ given.lexicon⟩ := by
  induction items generalizing b with
  | nil => simp [toGrammar, ofItems]
  | cons item items ih =>
    rw [List.foldl_cons, ih]
    cases item <;> simp [add, ofItems, List.filterMap_cons]

/-- Taking entries one by one comes to the same as checking all of them before any is added. -/
theorem finish_foldl_take (entries : List Entry) (hnone : b.error? = none) (start : Symbol) :
    (entries.foldl take b).finish start = (entries.mapM Entry.checked).map fun items =>
      (items.foldl add b).toGrammar start := by
  -- as long as nothing is refused, the builder is the one to which the items were added
  induction entries generalizing b with
  | nil =>
    rw [List.foldl_nil, finish, hnone]
    rfl
  | cons entry entries ih =>
    rw [List.foldl_cons, List.mapM_cons]
    cases hentry : entry.checked with
    | error cause =>
      have hcause : (b.take entry).error? = some cause := by
        rw [take_of_refused (Entry.checked_eq_error_iff.1 hentry), error?_refuse hnone]
      rw [finish, error?_foldl_take_of_some hcause]
      rfl
    | ok item =>
      rw [take_of_checked hentry, ih (by rw [error?_add, hnone])]
      cases entries.mapM Entry.checked <;> rfl

/-- The builder and the check of all entries build the same grammar or report the same cause. -/
theorem finish_foldl_take_empty (entries : List Entry) (start : Symbol) :
    (entries.foldl take empty).finish start = ofEntries start entries := by
  rw [finish_foldl_take entries rfl, ofEntries]
  congr 1
  funext items
  rw [toGrammar_foldl_add]
  rfl

end Builder

/-! ### Alternatives read one by one -/

/-- The entries are taken up to the first alternative that cannot be read. -/
theorem foldlM_readNext (written : List Alternative) (b : Builder) :
    written.foldlM Builder.readNext b =
      (written.mapM Alternative.read).map fun entries => entries.foldl Builder.take b := by
  induction written generalizing b with
  | nil => rfl
  | cons first rest ih =>
    rw [List.foldlM_cons, List.mapM_cons, Builder.readNext]
    cases first.read with
    -- nothing of the builder is left, not even a cause that it remembers
    | error cause => rfl
    | ok entry =>
      show rest.foldlM Builder.readNext (b.take entry) = _
      rw [ih]
      cases rest.mapM Alternative.read <;> rfl

/-- All alternatives are read before an entry is checked. -/
theorem ofRows_eq_bind (start : Symbol) (rules lexicon : List Grammar.Row) :
    ofRows start rules lexicon =
      (alternatives rules lexicon).mapM Alternative.read >>= ofEntries start := by
  rw [alternatives, List.mapM_append, List.mapM_map, List.mapM_map, ofRows]
  simp only [Function.comp_def, Alternative.read]
  cases (rules.flatMap rowAlternatives).mapM readRule with
  | error cause => rfl
  | ok ruleEntries => cases (lexicon.flatMap rowAlternatives).mapM readWord <;> rfl

/-- Reading and taking by turns builds the same grammar or reports the same cause as reading
everything first. -/
theorem readRows_eq (start : Symbol) (rules lexicon : List Grammar.Row) :
    readRows start rules lexicon = ofRows start rules lexicon := by
  rw [readRows, foldlM_readNext, ofRows_eq_bind]
  cases (alternatives rules lexicon).mapM Alternative.read with
  | error cause => rfl
  | ok entries => exact Builder.finish_foldl_take_empty entries start

end NaturalLanguage.WeightedGrammar
