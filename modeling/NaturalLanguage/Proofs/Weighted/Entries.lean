import NaturalLanguage.Proofs.Grammar.Entries
import NaturalLanguage.Proofs.Weighted.Table
import NaturalLanguage.Weighted.Entry

/-!
# What a built grammar holds

A list of entries builds a probabilistic grammar if every entry passes its check. The grammar then
holds one rule or one lexical entry for every entry, in the same order, and all its weights are from
zero to one.

* `WeightedGrammar.ofEntries_eq_ok_iff`: when a grammar is built, and which one.
* `WeightedGrammar.bounded_of_ofEntries`: the weights of a built grammar are from zero to one.
* `WeightedGrammar.ofEntries_map_entry`: the grammar of given items is built from their entries.
* `WeightedGrammar.exists_unweighted`: the same entries build a grammar without weights.
-/

namespace NaturalLanguage

namespace WeightedGrammar

open Text

/-! ### The checks -/

theorem isProbability_iff {p : Float} : isProbability p = true ↔ InUnit p := by
  rw [isProbability, Bool.and_eq_true, decide_eq_true_iff, decide_eq_true_iff]
  exact ⟨fun h => ⟨h.1, h.2⟩, fun h => ⟨h.nonneg, h.le_one⟩⟩

theorem checkProbability_eq_ok_iff {head : Symbol} {p q : Float} :
    checkProbability head p = .ok q ↔ InUnit p ∧ q = p := by
  rw [checkProbability, ← isProbability_iff]
  split
  · next h => simp [h, eq_comm]
  · next h => simp [h]

theorem not_inUnit_of_checkProbability {head : Symbol} {p : Float} {cause : GrammarError}
    (h : checkProbability head p = .error cause) : ¬ InUnit p := by
  intro hin
  rw [checkProbability_eq_ok_iff.2 ⟨hin, rfl⟩] at h
  cases h

theorem checkRule_eq_ok_iff {head : Symbol} {body : List Symbol} {p : Float}
    {rule : BinaryRule Float} :
    checkRule head body p = .ok rule ↔ head ≠ "" ∧ "" ∉ body ∧ InUnit p ∧
      body = [rule.left, rule.right] ∧ rule.head = head ∧ rule.weight = p := by
  rw [checkRule, ← and_assoc, ← not_or]
  split
  · next hblank => exact ⟨nofun, fun h => absurd hblank h.1⟩
  · next hblank =>
    cases hp : checkProbability head p with
    | error cause =>
      exact ⟨nofun, fun h => absurd h.2.1 (not_inUnit_of_checkProbability hp)⟩
    | ok q =>
      obtain ⟨hin, rfl⟩ := checkProbability_eq_ok_iff.1 hp
      match body with
      | [left, right] =>
        constructor
        · intro h
          cases h
          exact ⟨hblank, hin, rfl, rfl, rfl⟩
        · rintro ⟨-, -, hbody, rfl, rfl⟩
          cases hbody
          rfl
      | [] | [_] | _ :: _ :: _ :: _ => exact ⟨nofun, fun h => nomatch h.2.2.1⟩

theorem checkWord_eq_ok_iff {category : Symbol} {word : Word} {p : Float}
    {entry : LexicalEntry Float} :
    checkWord category word p = .ok entry ↔ category ≠ "" ∧ word ≠ "" ∧ InUnit p ∧
      entry = ⟨category, word, p⟩ := by
  rw [checkWord]
  split
  · next hblank => exact ⟨nofun, fun h => absurd hblank h.1⟩
  · next hcategory =>
    split
    · next hblank => exact ⟨nofun, fun h => absurd hblank h.2.1⟩
    · next hword =>
      cases hp : checkProbability category p with
      | error cause =>
        exact ⟨nofun, fun h => absurd h.2.2.1 (not_inUnit_of_checkProbability hp)⟩
      | ok q =>
        obtain ⟨hin, rfl⟩ := checkProbability_eq_ok_iff.1 hp
        constructor
        · intro h
          cases h
          exact ⟨hcategory, hword, hin, rfl⟩
        · rintro ⟨-, -, -, rfl⟩
          rfl

/-- The weight of an item. -/
def Item.weight : Item → Float
  | .inl rule => rule.weight
  | .inr entry => entry.weight

/-- An entry that is not refused becomes the rule or the lexical entry that passes the check. -/
theorem Entry.exists_of_checked {entry : Entry} {item : Item} (h : entry.checked = .ok item) :
    (∃ head body p rule, entry = .rule head body p ∧ item = .inl rule ∧
      checkRule (trim head) (body.map trim) p = .ok rule) ∨
    ∃ category spelled p listed, entry = .word category spelled p ∧ item = .inr listed ∧
      checkWord (trim category) (trim spelled) p = .ok listed := by
  cases entry with
  | rule head body p =>
    rw [checked] at h
    cases hrule : checkRule (trim head) (body.map trim) p with
    | error cause => rw [hrule] at h; cases h
    | ok rule =>
      rw [hrule] at h
      exact .inl ⟨head, body, p, rule, rfl, (Except.ok.inj h).symm, hrule⟩
  | word category spelled p =>
    rw [checked] at h
    cases hword : checkWord (trim category) (trim spelled) p with
    | error cause => rw [hword] at h; cases h
    | ok listed =>
      rw [hword] at h
      exact .inr ⟨category, spelled, p, listed, rfl, (Except.ok.inj h).symm, hword⟩

/-- What an entry becomes has a weight from zero to one. -/
theorem Entry.inUnit_of_checked {entry : Entry} {item : Item} (h : entry.checked = .ok item) :
    InUnit item.weight := by
  rcases exists_of_checked h with
    ⟨head, body, p, rule, -, rfl, hrule⟩ | ⟨category, spelled, p, listed, -, rfl, hword⟩
  · obtain ⟨-, -, hin, -, -, rfl⟩ := checkRule_eq_ok_iff.1 hrule
    exact hin
  · obtain ⟨-, -, hin, rfl⟩ := checkWord_eq_ok_iff.1 hword
    exact hin

/-! ### Built grammars -/

/-- A grammar is built if all entries pass their checks, and it holds what they become. -/
theorem ofEntries_eq_ok_iff {start : Symbol} {entries : List Entry} {g : WeightedGrammar Float} :
    ofEntries start entries = .ok g ↔
      ∃ items, List.Forall₂ (fun entry item => entry.checked = .ok item) entries items ∧
        ofItems start items = g := by
  simp only [ofEntries, ← mapM_eq_ok_iff]
  cases entries.mapM Entry.checked <;> simp [Except.map]

theorem mem_rules_ofItems {start : Symbol} {items : List Item} {rule : BinaryRule Float} :
    rule ∈ (ofItems start items).rules ↔ .inl rule ∈ items := by
  simp [ofItems, List.mem_filterMap, Sum.getLeft?_eq_some_iff]

theorem mem_lexicon_ofItems {start : Symbol} {items : List Item} {entry : LexicalEntry Float} :
    entry ∈ (ofItems start items).lexicon ↔ .inr entry ∈ items := by
  simp [ofItems, List.mem_filterMap, Sum.getRight?_eq_some_iff]

/-- All weights of a built grammar are from zero to one. -/
theorem bounded_of_ofEntries {start : Symbol} {entries : List Entry} {g : WeightedGrammar Float}
    (h : ofEntries start entries = .ok g) : g.Bounded := by
  obtain ⟨items, hitems, rfl⟩ := ofEntries_eq_ok_iff.1 h
  have hin : ∀ item ∈ items, InUnit item.weight := by
    clear h
    induction hitems with
    | nil => simp
    | cons hentry _ ih => exact List.forall_mem_cons.2 ⟨Entry.inUnit_of_checked hentry, ih⟩
  exact ⟨fun rule hrule => hin _ (mem_rules_ofItems.1 hrule),
    fun entry hentry => hin _ (mem_lexicon_ofItems.1 hentry)⟩

/-! ### Grammars of given items -/

/-- The names in an item. -/
def Item.names : Item → List String
  | .inl rule => [rule.head, rule.left, rule.right]
  | .inr entry => [entry.category, entry.word]

/-- The entry that adds an item. -/
def Item.entry : Item → Entry
  | .inl rule => .rule rule.head [rule.left, rule.right] rule.weight
  | .inr entry => .word entry.category entry.word entry.weight

/-- Whether the names of an item are not empty and have no blanks around them, and its weight is a
probability. -/
def Item.isClean (item : Item) : Bool :=
  item.names.all (fun name => name ≠ "" ∧ trim name = name) && isProbability item.weight

/-- A clean item passes the check of its entry unchanged. -/
theorem Item.checked_entry {item : Item} (h : item.isClean = true) :
    item.entry.checked = .ok item := by
  rw [isClean, Bool.and_eq_true, isProbability_iff, List.all_eq_true] at h
  obtain ⟨hnames, hin⟩ := h
  simp only [decide_eq_true_iff] at hnames
  cases item with
  | inl rule =>
    obtain ⟨hhead, htrim⟩ := hnames rule.head (by simp [names])
    obtain ⟨hleft, htrimleft⟩ := hnames rule.left (by simp [names])
    obtain ⟨hright, htrimright⟩ := hnames rule.right (by simp [names])
    have hcheck : checkRule rule.head [rule.left, rule.right] rule.weight = .ok rule :=
      checkRule_eq_ok_iff.2 ⟨hhead, by simp [hleft.symm, hright.symm], hin, rfl, rfl, rfl⟩
    simp [entry, Entry.checked, htrim, htrimleft, htrimright, hcheck, Except.map]
  | inr listed =>
    obtain ⟨hcategory, htrim⟩ := hnames listed.category (by simp [names])
    obtain ⟨hword, htrimword⟩ := hnames listed.word (by simp [names])
    have hcheck : checkWord listed.category listed.word listed.weight = .ok listed :=
      checkWord_eq_ok_iff.2 ⟨hcategory, hword, hin, rfl⟩
    simp [entry, Entry.checked, htrim, htrimword, hcheck, Except.map]

/-- Clean items build the grammar that holds them. -/
theorem ofEntries_map_entry (start : Symbol) {items : List Item}
    (h : items.all Item.isClean = true) :
    ofEntries start (items.map Item.entry) = .ok (ofItems start items) := by
  refine ofEntries_eq_ok_iff.2 ⟨items, ?_, rfl⟩
  rw [List.forall₂_map_left_iff, List.forall₂_same]
  exact fun item hitem => Item.checked_entry (List.all_eq_true.1 h item hitem)

/-! ### Grammars without weights -/

/-- The entry without its probability. -/
def Entry.unweighted : Entry → Grammar.Entry
  | .rule head body _ => .rule head body
  | .word category spelled _ => .words category [spelled]

/-- What an item adds to a grammar without weights. -/
def Item.unweighted : Item → Grammar.Entry
  | .inl rule => .rule rule.head [rule.left, rule.right]
  | .inr entry => .words entry.category [entry.word]

/-- An entry that is not refused is not refused without its probability. -/
theorem Entry.checked_unweighted {entry : Entry} {item : Item} (h : entry.checked = .ok item) :
    entry.unweighted.checked = .ok item.unweighted := by
  rcases exists_of_checked h with
    ⟨head, body, p, rule, rfl, rfl, hrule⟩ | ⟨category, spelled, p, listed, rfl, rfl, hword⟩
  · obtain ⟨hhead, hblank, -, hbody, hrulehead, -⟩ := checkRule_eq_ok_iff.1 hrule
    rw [unweighted, Grammar.Entry.checked_rule hhead hblank, hbody, ← hrulehead, Item.unweighted]
  · obtain ⟨hcategory, hblank, -, rfl⟩ := checkWord_eq_ok_iff.1 hword
    have hlisted : "" ∉ [spelled].map trim := by simpa using hblank.symm
    rw [unweighted, Grammar.Entry.checked_words hcategory hlisted, Item.unweighted]
    rfl

/-- `plain` has the rules and the words of `g`, without their weights. -/
structure Unweights {W : Type} (g : WeightedGrammar W) (plain : Grammar) : Prop where
  mem_alternativesOf : ∀ {head body}, body ∈ plain.alternativesOf head ↔
    ∃ rule ∈ g.rules, rule.head = head ∧ body = [rule.left, rule.right]
  isNonterminal : ∀ {sym}, plain.isNonterminal sym = true ↔ ∃ rule ∈ g.rules, rule.head = sym
  mem_wordsOf : ∀ {category word}, word ∈ plain.wordsOf category ↔
    ∃ weight, ⟨category, word, weight⟩ ∈ g.lexicon
  isCategory : ∀ {sym}, plain.isCategory sym = true ↔ ∃ entry ∈ g.lexicon, entry.category = sym

/-- The grammar without weights of some items has their rules and words. -/
theorem unweights_ofItems (start name : String) (items : List Item) :
    (ofItems start items).Unweights
      ((items.map Item.unweighted).foldl Grammar.insert (.empty name)) where
  mem_alternativesOf := by
    simp [Grammar.mem_alternativesOf_foldl_insert, mem_rules_ofItems, Item.unweighted, Sum.exists,
      eq_comm]
  isNonterminal := by
    simp [Grammar.isNonterminal_foldl_insert, mem_rules_ofItems, Item.unweighted, Sum.exists]
  mem_wordsOf := by
    simp only [Grammar.mem_wordsOf_foldl_insert, mem_lexicon_ofItems, List.mem_map, Sum.exists,
      Item.unweighted, Grammar.Entry.words.injEq, reduceCtorEq, and_false, exists_false, false_or]
    intro category word
    constructor
    · rintro ⟨listed, ⟨entry, hentry, rfl, rfl⟩, hword⟩
      obtain rfl := List.mem_singleton.1 hword
      exact ⟨entry.weight, hentry⟩
    · rintro ⟨weight, hentry⟩
      exact ⟨[word], ⟨_, hentry, rfl, rfl⟩, List.mem_singleton_self word⟩
  isCategory := by
    simp [Grammar.isCategory_foldl_insert, mem_lexicon_ofItems, Item.unweighted, Sum.exists]

/-- Entries that build a probabilistic grammar build a grammar without probabilities, too. -/
theorem exists_unweighted {start : Symbol} {entries : List Entry} {g : WeightedGrammar Float}
    (h : ofEntries start entries = .ok g) (name : String) :
    ∃ plain, Grammar.ofEntries name (entries.map Entry.unweighted) = .ok plain ∧
      g.Unweights plain := by
  obtain ⟨items, hitems, rfl⟩ := ofEntries_eq_ok_iff.1 h
  refine ⟨_, Grammar.ofEntries_eq_ok_iff.2 ⟨items.map Item.unweighted, ?_, rfl⟩,
    unweights_ofItems start name items⟩
  rw [List.forall₂_map_left_iff, List.forall₂_map_right_iff]
  exact hitems.imp fun _ _ => Entry.checked_unweighted

end WeightedGrammar

end NaturalLanguage
