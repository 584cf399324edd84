import NaturalLanguage.Proofs.Grammar.Written
import NaturalLanguage.Proofs.Weighted.Building
import NaturalLanguage.Weighted.Index

/-!
# A probabilistic grammar lists exactly what its entries give

Entries are taken one by one, in any order of rules and words. If some of them are invalid, the
grammar is refused for the cause of the first of these, whatever follows. Otherwise it lists every
rule and every word as often as it was given and in the order in which it was given, without blanks
around names, and its index knows the categories of a word in the same order.

* `Entry.Invalid`: entries that are refused (`Entry.exists_refused_iff`).
* `Entry.rule?`, `Entry.listed?`: what an entry gives.
* `Lists`: a grammar with what some entries give.
* `Builder.finish_exact`: when a grammar is refused, why, and else what it lists.
-/

namespace NaturalLanguage.WeightedGrammar

open Text Grammar

instance (p : Float) : Decidable (InUnit p) := decidable_of_iff _ isProbability_iff

namespace Entry

variable {entry : Entry} {item : Item}

/-- The entry has a blank name, a number that is no probability, or a body that is not binary. -/
def Invalid : Entry → Prop
  | .rule head body p => (Blank head ∨ ∃ sym ∈ body, Blank sym) ∨ ¬ InUnit p ∨ body.length ≠ 2
  | .word category spelled p => Blank category ∨ Blank spelled ∨ ¬ InUnit p

instance (entry : Entry) : Decidable entry.Invalid :=
  match entry with
  | .rule head body p => inferInstanceAs
      (Decidable ((Blank head ∨ ∃ sym ∈ body, Blank sym) ∨ ¬ InUnit p ∨ body.length ≠ 2))
  | .word category spelled p =>
    inferInstanceAs (Decidable (Blank category ∨ Blank spelled ∨ ¬ InUnit p))

/-- The rule that an entry gives. -/
def rule? : Entry → Option (BinaryRule Float)
  | .rule head [left, right] p => some ⟨trim head, trim left, trim right, p⟩
  | _ => none

/-- The lexical entry that an entry gives. -/
def listed? : Entry → Option (LexicalEntry Float)
  | .word category spelled p => some ⟨trim category, trim spelled, p⟩
  | .rule _ _ _ => none

/-- Exactly the valid entries pass their check. -/
theorem exists_checked_iff : (∃ item, entry.checked = .ok item) ↔ ¬ entry.Invalid := by
  cases entry with
  | rule head body p =>
    rw [exists_checked_rule_iff, Invalid]
    simp only [not_or, not_not, ne_eq]
  | word category spelled p =>
    rw [exists_checked_word_iff, Invalid, not_or, not_or, not_not]

/-- Exactly the invalid entries are refused. -/
theorem exists_refused_iff : (∃ cause, entry.Refused cause) ↔ entry.Invalid := by
  constructor
  · rintro ⟨cause, hrefused⟩
    by_contra hvalid
    obtain ⟨item, hitem⟩ := exists_checked_iff.2 hvalid
    cases hrefused.checked_eq.symm.trans hitem
  · intro hinvalid
    exact exists_refused fun hitem => exists_checked_iff.1 hitem hinvalid

/-- What an entry becomes is what it gives, of either kind. -/
theorem getLeft?_getRight?_of_checked (h : entry.checked = .ok item) :
    item.getLeft? = entry.rule? ∧ item.getRight? = entry.listed? := by
  obtain ⟨head, body, p, rule, rfl, rfl, hrule⟩ | ⟨category, spelled, p, listed, rfl, rfl, hword⟩ :=
    exists_of_checked h
  · obtain ⟨-, -, -, hbody, hhead, hweight⟩ := checkRule_eq_ok_iff.1 hrule
    obtain ⟨left, right, rfl⟩ : ∃ left right, body = [left, right] := by
      rw [← List.length_eq_two, ← List.length_map, hbody]
      rfl
    obtain ⟨hleft, hright⟩ : trim left = rule.left ∧ trim right = rule.right := by
      simpa using hbody
    rw [rule?, listed?, ← hhead, hleft, hright, ← hweight]
    exact ⟨rfl, rfl⟩
  · obtain ⟨-, -, -, rfl⟩ := checkWord_eq_ok_iff.1 hword
    exact ⟨rfl, rfl⟩

/-- The names in what an entry becomes are names, and its weight is a probability. -/
theorem isName_of_checked (h : entry.checked = .ok item) :
    (∀ name ∈ item.names, IsName name) ∧ item.weight.isFinite = true ∧ InUnit item.weight := by
  have hweight := inUnit_of_checked h
  refine ⟨?_, hweight.isFinite, hweight⟩
  obtain ⟨head, body, p, rule, rfl, rfl, hrule⟩ | ⟨category, spelled, p, listed, rfl, rfl, hword⟩ :=
    exists_of_checked h
  · obtain ⟨hhead, hblank, -, hbody, hrulehead, -⟩ := checkRule_eq_ok_iff.1 hrule
    -- head and symbols were all trimmed before they were checked
    have htrimmed : ∀ name ∈ trim head :: body.map trim, IsName name := by
      intro name hname
      have hne : name ≠ "" := by
        rintro rfl
        exact (List.mem_cons.1 hname).elim (fun heq => hhead heq.symm) hblank
      obtain ⟨text, -, rfl⟩ : ∃ text ∈ head :: body, trim text = name := by
        rwa [← List.map_cons, List.mem_map] at hname
      exact isName_iff.2 ⟨hne, trim_trim text⟩
    rwa [hbody, ← hrulehead] at htrimmed
  · obtain ⟨hcategory, hblank, -, rfl⟩ := checkWord_eq_ok_iff.1 hword
    intro name hname
    obtain rfl | rfl : name = trim category ∨ name = trim spelled := by
      simpa [Item.names] using hname
    · exact isName_iff.2 ⟨hcategory, trim_trim category⟩
    · exact isName_iff.2 ⟨hblank, trim_trim spelled⟩

end Entry

/-! ### What a built grammar lists -/

/-- A grammar with exactly what some entries give. -/
structure Lists (g : WeightedGrammar Float) (start : Symbol) (entries : List Entry) : Prop where
  start_eq : g.start = start
  /-- The rules are those of the entries, in the same order and with repetitions. -/
  rules : g.rules = entries.filterMap Entry.rule?
  /-- A word has exactly the categories that were given for it, in the same order and with
  repetitions. -/
  categories (word : Word) : g.categories word =
    ((entries.filterMap Entry.listed?).filter (·.word = word)).map fun listed =>
      (listed.category, listed.weight)
  /-- The index of the words knows the categories of every word. -/
  wordIndex (word : Word) : g.wordIndex.getD word [] = g.categories word
  /-- The names and the number of a rule are names and a probability. -/
  rule_isName : ∀ rule ∈ g.rules, IsName rule.head ∧ IsName rule.left ∧ IsName rule.right ∧
    rule.weight.isFinite = true ∧ InUnit rule.weight
  /-- The names and the number of a category are names and a probability. -/
  category_isName (word : Word) : ∀ category ∈ g.categories word, IsName category.1 ∧
    IsName word ∧ category.2.isFinite = true ∧ InUnit category.2

variable {start : Symbol} {entries : List Entry} {g : WeightedGrammar Float}

/-- A grammar that is built lists exactly what the entries give. -/
theorem lists_of_ofEntries (h : ofEntries start entries = .ok g) : g.Lists start entries := by
  obtain ⟨items, hitems, rfl⟩ := ofEntries_eq_ok_iff.1 h
  obtain ⟨hrules, hlisted⟩ : items.filterMap Sum.getLeft? = entries.filterMap Entry.rule? ∧
      items.filterMap Sum.getRight? = entries.filterMap Entry.listed? := by
    clear h
    induction hitems with
    | nil => exact ⟨rfl, rfl⟩
    | cons hentry _ ih =>
      obtain ⟨hrule, hlisted⟩ := Entry.getLeft?_getRight?_of_checked hentry
      rw [List.filterMap_cons, List.filterMap_cons, hrule, ih.1, List.filterMap_cons,
        List.filterMap_cons, hlisted, ih.2]
      exact ⟨rfl, rfl⟩
  have hnames : ∀ item ∈ items, (∀ name ∈ item.names, IsName name) ∧
      item.weight.isFinite = true ∧ InUnit item.weight := by
    clear h hrules hlisted
    induction hitems with
    | nil => simp
    | cons hentry _ ih => exact List.forall_mem_cons.2 ⟨Entry.isName_of_checked hentry, ih⟩
  exact {
    start_eq := rfl
    rules := hrules
    categories := fun word => by
      rw [WeightedGrammar.categories, ← hlisted]
      simp only [beq_eq_decide, ofItems]
    wordIndex := getD_wordIndex _
    rule_isName := fun rule hrule => by
      obtain ⟨hname, hweight⟩ := hnames _ (mem_rules_ofItems.1 hrule)
      exact ⟨hname _ (by simp [Item.names]), hname _ (by simp [Item.names]),
        hname _ (by simp [Item.names]), hweight⟩
    category_isName := fun word category hcategory => by
      obtain ⟨hname, hweight⟩ := hnames _ (mem_lexicon_ofItems.1 (mem_categories.1 hcategory))
      exact ⟨hname _ (by simp [Item.names]), hname _ (by simp [Item.names]), hweight⟩ }

/-- A grammar is refused for the cause of the first invalid entry. -/
theorem ofEntries_eq_error_iff {cause : GrammarError} :
    ofEntries start entries = .error cause ↔ ∃ before entry after,
      entries = before ++ entry :: after ∧ (∀ earlier ∈ before, ¬ earlier.Invalid) ∧
        entry.Refused cause := by
  have hmapM : ofEntries start entries = .error cause ↔
      entries.mapM Entry.checked = .error cause := by
    rw [ofEntries]
    cases entries.mapM Entry.checked <;> simp [Except.map]
  simp only [hmapM, mapM_eq_error_iff, Entry.checked_eq_error_iff, Entry.exists_checked_iff]

/-- Entries are taken one by one, and the cause of the first refusal is kept, although entries are
added before and after it. What comes out is refused exactly if some entry is invalid, and the first
such entry decides the cause: a blank symbol, a blank word, a number that is no probability or a
body that is not binary, whichever comes first in this order. Otherwise it is a grammar that lists
exactly what the entries give. -/
theorem Builder.finish_exact (start : Symbol) (entries : List Entry) :
    let built := (entries.foldl take empty).finish start
    built = ofEntries start entries ∧
      ((∃ cause, built = .error cause) ↔ ∃ entry ∈ entries, entry.Invalid) ∧
      (∀ cause, built = .error cause ↔ ∃ before entry after,
        entries = before ++ entry :: after ∧ (∀ earlier ∈ before, ¬ earlier.Invalid) ∧
          entry.Refused cause) ∧
      ∀ g, built = .ok g → g.Lists start entries := by
  have hbuilt := finish_foldl_take_empty entries start
  simp only [hbuilt, ofEntries_eq_error_iff, true_and]
  refine ⟨⟨?_, ?_⟩, fun _ => trivial, fun g => lists_of_ofEntries⟩
  · rintro ⟨cause, before, entry, after, rfl, -, hrefused⟩
    exact ⟨entry, by simp, Entry.exists_refused_iff.1 ⟨cause, hrefused⟩⟩
  · rintro ⟨entry, hmem, hinvalid⟩
    cases h : ofEntries start entries with
    | error cause => exact ⟨cause, ofEntries_eq_error_iff.1 h⟩
    | ok g =>
      -- in a grammar that is built every entry has passed its check
      obtain ⟨items, hitems, -⟩ := ofEntries_eq_ok_iff.1 h
      obtain ⟨item, hitem⟩ := exists_mapM_eq_ok_iff.1 ⟨items, mapM_eq_ok_iff.2 hitems⟩ entry hmem
      exact absurd hinvalid (Entry.exists_checked_iff.1 ⟨item, hitem⟩)

/-- Valid entries that give a rule and a word again, with blanks around names and a negative
zero. -/
def spaced : List Entry :=
  [.rule " S" ["A ", "B"] 1, .word "A" "x" 0.5, .rule "S" ["A", "B"] 1, .word " B" "x" (-0.0),
    .word "A" "x " 0.5]

/-- Entries of which the second and the third one are invalid, the third one in every way. -/
def unweighable : List Entry :=
  [.rule "S" ["A", "B"] 1, .word "A" "x" (0.0 / 0.0), .rule "" ["A"] (1.0 / 0.0)]

theorem Builder.finish_exact_spaced :
    (∃ g, (spaced.foldl take empty).finish "S" = .ok g ∧ g.Lists "S" spaced ∧
      g.rules.map (·.head) = ["S", "S"] ∧ (g.categories "x").map Prod.fst = ["A", "B", "A"]) ∧
    (Entry.word "A" "x" (0.0 / 0.0)).Refused (.badProbability "A" "NaN") ∧
      (unweighable.foldl take empty).finish "S" = .error (.badProbability "A" "NaN") := by
  obtain ⟨-, hrefused, -, hlists⟩ := finish_exact "S" spaced
  have hvalid : ¬ ∃ entry ∈ spaced, entry.Invalid := by decide +kernel
  have hrules : (spaced.filterMap Entry.rule?).map (·.head) = ["S", "S"] := by decide +kernel
  have hlisted : ((spaced.filterMap Entry.listed?).filter (·.word = "x")).map (·.category) =
      ["A", "B", "A"] := by decide +kernel
  have hnumber : (Entry.word "A" "x" (0.0 / 0.0)).Refused (.badProbability "A" "NaN") := by
    have hweight : (Entry.word "A" "x" (0.0 / 0.0)).Refused
        (.badProbability (trim "A") (Decimal.plain (0.0 / 0.0))) :=
      .wordWeight (by decide +kernel) (by decide +kernel) (by decide +kernel)
    rwa [show trim "A" = "A" by decide +kernel,
      show Decimal.plain (0.0 / 0.0) = "NaN" by decide +kernel] at hweight
  refine ⟨?_, hnumber, ?_⟩
  · cases hbuilt : (spaced.foldl take empty).finish "S" with
    | error cause => exact absurd (hrefused.1 ⟨cause, hbuilt⟩) hvalid
    | ok g =>
      have hg := hlists g hbuilt
      refine ⟨g, rfl, hg, by rw [hg.rules, hrules], ?_⟩
      rw [hg.categories, List.map_map, ← hlisted]
      rfl
  · have hfirst : ∀ earlier ∈ [Entry.rule "S" ["A", "B"] 1], ¬ earlier.Invalid := by
      decide +kernel
    exact ((finish_exact "S" unweighable).2.2.1 _).2
      ⟨[.rule "S" ["A", "B"] 1], .word "A" "x" (0.0 / 0.0), [.rule "" ["A"] (1.0 / 0.0)], rfl,
        hfirst, hnumber⟩

end NaturalLanguage.WeightedGrammar
