import Mathlib.Data.List.Basic
import NaturalLanguage.Grammar.Builder
import NaturalLanguage.Grammar.Index
import NaturalLanguage.Proofs.Grammar.Entries
import NaturalLanguage.Proofs.Text.Pieces

/-!
# A grammar holds exactly what its entries give

A list of entries is refused exactly if one of them holds a blank name, and then the first such
entry decides the cause. Otherwise heads, alternatives, parts of speech and words are those of the
entries, without blanks around them, each once and in the order in which they were first given, and
the indexes find what the rows hold.

* `Entry.HasBlank`, `Entry.Refused`: entries with a blank name, and the causes for refusing them.
* `Builder.finish_foldl_take`: taking the entries one by one comes to the same as checking them all
  first.
* `Holds`: a grammar with what some entries give.
* `ofEntries_exact`: when a grammar is refused, why, and else what it holds.
-/

namespace NaturalLanguage

/-- Inserting values one by one keeps each of them where it occurs first. -/
theorem OrderedSet.toList_ofList {α : Type} [DecidableEq α] [BEq α] [LawfulBEq α] (xs : List α) :
    (ofList xs).toList = xs.eraseDups := by
  -- the last value is new exactly if it does not occur before
  induction xs using List.reverseRecOn with
  | nil => rfl
  | append_singleton xs x ih =>
    have hlast : ofList (xs ++ [x]) = (ofList xs).insert x := by
      rw [ofList, insertAll, List.foldl_append]
      rfl
    have hsingle : [x].eraseDups = [x] := by
      rw [List.eraseDups_cons, List.filter_nil, List.eraseDups_nil]
    rw [hlast, toList_insert, ih, List.eraseDups_append, List.removeAll]
    by_cases hx : x ∈ xs
    · simp [hx]
    · simp [hx, hsingle]

namespace Grammar

open Text

/-! ### Entries with blank names -/

namespace Entry

/-- The entry has a blank head, part of speech, symbol or word. -/
def HasBlank : Entry → Prop
  | .rule head body => Blank head ∨ ∃ sym ∈ body, Blank sym
  | .words category listed => Blank category ∨ ∃ word ∈ listed, Blank word

/-- The causes for refusing an entry. A blank word is only looked for if the part of speech is not
blank. -/
inductive Refused : Entry → GrammarError → Prop
  | rule {head : Symbol} {body : List Symbol} : Blank head ∨ (∃ sym ∈ body, Blank sym) →
      Refused (.rule head body)
        (.emptySymbol (head ++ " -> " ++ " ".intercalate (body.map trim)))
  | category {category : Symbol} {listed : List Word} : Blank category →
      Refused (.words category listed) (.emptySymbol "lexicon")
  | word {category : Symbol} {listed : List Word} : ¬ Blank category →
      (∃ word ∈ listed, Blank word) → Refused (.words category listed) (.emptyWord (trim category))

/-- The entry without blanks around its names. -/
def trimmed : Entry → Entry
  | .rule head body => .rule (trim head) (body.map trim)
  | .words category listed => .words (trim category) (listed.map trim)

/-- The rule that an entry gives. -/
def rule? : Entry → Option (Symbol × List Symbol)
  | .rule head body => some (trim head, body.map trim)
  | .words _ _ => none

/-- The part of speech that an entry gives, with its words. -/
def list? : Entry → Option (Symbol × List Word)
  | .rule _ _ => none
  | .words category listed => some (trim category, listed.map trim)

variable {entry entry' : Entry} {cause : GrammarError}

theorem empty_mem_map_trim_iff {texts : List String} :
    "" ∈ texts.map trim ↔ ∃ text ∈ texts, Blank text := by
  simp only [List.mem_map, trim_eq_empty_iff]

theorem checked_eq_ok_iff :
    entry.checked = .ok entry' ↔ ¬ entry.HasBlank ∧ entry.trimmed = entry' := by
  cases entry with
  | rule head body =>
    simp only [checked, trim_eq_empty_iff, empty_mem_map_trim_iff, HasBlank, trimmed]
    split
    · next h => simp [h]
    · next h => simp [h]
  | words category listed =>
    simp only [checked, trim_eq_empty_iff, empty_mem_map_trim_iff, HasBlank, trimmed]
    split
    · next h => simp [h]
    · next hcategory =>
      split
      · next h => simp [h]
      · next h => simp [hcategory, h]

theorem Refused.checked_eq (h : entry.Refused cause) : entry.checked = .error cause := by
  cases h with
  | rule h =>
    simp only [checked, trim_eq_empty_iff, empty_mem_map_trim_iff, if_pos h]
    rfl
  | category h => simp only [checked, trim_eq_empty_iff, if_pos h]
  | word hcategory hword =>
    simp only [checked, trim_eq_empty_iff, empty_mem_map_trim_iff, if_neg hcategory, if_pos hword]

/-- An entry with a blank name is refused for some cause. -/
theorem HasBlank.exists_refused (h : entry.HasBlank) : ∃ cause, entry.Refused cause := by
  cases entry with
  | rule head body => exact ⟨_, .rule h⟩
  | words category listed =>
    by_cases hcategory : Blank category
    · exact ⟨_, .category hcategory⟩
    · exact ⟨_, .word hcategory (h.resolve_left hcategory)⟩

theorem checked_eq_error_iff : entry.checked = .error cause ↔ entry.Refused cause := by
  constructor
  · intro h
    have hblank : entry.HasBlank := by
      by_contra hno
      rw [checked_eq_ok_iff.2 ⟨hno, rfl⟩] at h
      cases h
    obtain ⟨cause', hrefused⟩ := hblank.exists_refused
    obtain rfl : cause = cause' := Except.error.inj (h.symm.trans hrefused.checked_eq)
    exact hrefused
  · exact Refused.checked_eq

theorem Refused.hasBlank (h : entry.Refused cause) : entry.HasBlank := by
  cases h with
  | rule h => exact h
  | category h => exact .inl h
  | word _ h => exact .inr h

end Entry

/-! ### Entries taken one by one -/

namespace Builder

variable {b : Builder} {entry entry' : Entry} {cause : GrammarError}

theorem error?_refuse (h : b.error? = none) (cause : GrammarError) :
    (b.refuse cause).error? = some cause := by
  rw [refuse, h, Option.none_or]

theorem error?_refuse_of_some (h : b.error? = some cause) (later : GrammarError) :
    (b.refuse later).error? = some cause := by
  rw [refuse, h, Option.some_or]

theorem error?_listWords_of_some {category : Symbol} {listed : List Word}
    (h : b.error? = some cause) : (b.listWords category listed).error? = some cause := by
  induction listed generalizing b with
  | nil => exact h
  | cons word rest ih =>
    unfold listWords
    split
    · exact error?_refuse_of_some h _
    · exact ih h

/-- A cause that is remembered stays, whatever is taken afterwards. -/
theorem error?_take_of_some (h : b.error? = some cause) (entry : Entry) :
    (b.take entry).error? = some cause := by
  cases entry with
  | rule head body =>
    simp only [take, takeRule]
    split
    · exact error?_refuse_of_some h _
    · exact h
  | words category listed =>
    simp only [take, takeWords]
    split
    · exact error?_refuse_of_some h _
    · exact error?_listWords_of_some h

/-- A blank word is remembered, also after words that were listed. -/
theorem error?_listWords {category : Symbol} {listed : List Word} (h : b.error? = none)
    (hblank : ∃ word ∈ listed, Blank word) :
    (b.listWords category listed).error? = some (.emptyWord category) := by
  induction listed generalizing b with
  | nil =>
    obtain ⟨word, hword, -⟩ := hblank
    cases hword
  | cons word rest ih =>
    unfold listWords
    split
    · exact error?_refuse h _
    · next hword =>
      rw [trim_eq_empty_iff] at hword
      -- the words up to this one are in the lexicon, the blank one comes later
      obtain ⟨blank, hmem, hblank⟩ := hblank
      have hrest := (List.mem_cons.1 hmem).resolve_left fun heq => hword (heq ▸ hblank)
      exact ih h ⟨blank, hrest, hblank⟩

theorem listWords_eq {category : Symbol} {listed : List Word}
    (h : ¬ ∃ word ∈ listed, Blank word) : b.listWords category listed =
      { b with lexicon := (listed.map trim).foldl (·.add category ·) b.lexicon } := by
  induction listed generalizing b with
  | nil => rfl
  | cons word rest ih =>
    have hword : trim word ≠ "" := fun heq =>
      h ⟨word, List.mem_cons_self, trim_eq_empty_iff.1 heq⟩
    have hrest : ¬ ∃ word ∈ rest, Blank word := fun ⟨blank, hmem, hblank⟩ =>
      h ⟨blank, List.mem_cons_of_mem _ hmem, hblank⟩
    rw [listWords, if_neg hword, ih hrest, List.map_cons, List.foldl_cons]

/-- An entry that passes its check is added to what was given. -/
theorem take_of_checked (h : entry.checked = .ok entry') (b : Builder) (name : String) :
    (b.take entry).toGrammar name = (b.toGrammar name).insert entry' ∧
      (b.take entry).error? = b.error? := by
  obtain ⟨hblank, rfl⟩ := Entry.checked_eq_ok_iff.1 h
  cases entry with
  | rule head body =>
    have hnames : ¬ (Blank head ∨ ∃ sym ∈ body, Blank sym) := hblank
    simp only [take, takeRule, trim_eq_empty_iff, Entry.empty_mem_map_trim_iff]
    rw [if_neg hnames]
    exact ⟨rfl, rfl⟩
  | words category listed =>
    obtain ⟨hcategory, hlisted⟩ := not_or.1 hblank
    simp only [take, takeWords, trim_eq_empty_iff]
    rw [if_neg hcategory, listWords_eq hlisted]
    exact ⟨rfl, rfl⟩

/-- An entry that fails its check is remembered with its cause. -/
theorem error?_take_of_checked (h : entry.checked = .error cause) (hnone : b.error? = none) :
    (b.take entry).error? = some cause := by
  rw [Entry.checked_eq_error_iff] at h
  cases h with
  | rule h =>
    simp only [take, takeRule, trim_eq_empty_iff, Entry.empty_mem_map_trim_iff]
    rw [if_pos h]
    exact error?_refuse hnone _
  | category h =>
    simp only [take, takeWords, trim_eq_empty_iff]
    rw [if_pos h]
    exact error?_refuse hnone _
  | word hcategory hword =>
    simp only [take, takeWords, trim_eq_empty_iff]
    rw [if_neg hcategory]
    exact error?_listWords hnone hword

theorem error?_foldl_take_of_some (h : b.error? = some cause) (entries : List Entry) :
    (entries.foldl take b).error? = some cause := by
  induction entries generalizing b with
  | nil => exact h
  | cons entry entries ih => exact ih (error?_take_of_some h entry)

/-- Taking entries one by one comes to the same as checking all of them before any is added. -/
theorem finish_foldl_take (entries : List Entry) (hnone : b.error? = none) (name : String) :
    (entries.foldl take b).finish name = (entries.mapM Entry.checked).map fun checked =>
      checked.foldl Grammar.insert (b.toGrammar name) := by
  induction entries generalizing b with
  | nil =>
    rw [List.foldl_nil, finish, hnone]
    rfl
  | cons entry entries ih =>
    rw [List.foldl_cons, List.mapM_cons]
    cases hchecked : entry.checked with
    | error cause =>
      rw [finish, error?_foldl_take_of_some (error?_take_of_checked hchecked hnone)]
      rfl
    | ok entry' =>
      obtain ⟨hgrammar, herror⟩ := take_of_checked hchecked b name
      rw [ih (herror.trans hnone), hgrammar]
      cases entries.mapM Entry.checked <;> rfl

end Builder

/-! ### What a built grammar holds -/

/-- The rules that entries give, in order. -/
def givenRules (entries : List Entry) : List (Symbol × List Symbol) :=
  entries.filterMap Entry.rule?

/-- The parts of speech that entries give, each with the words of one entry, in order. -/
def givenLists (entries : List Entry) : List (Symbol × List Word) :=
  entries.filterMap Entry.list?

section Fold

variable (entries : List Entry) (g : Grammar)

theorem name_foldl_insert : (entries.foldl insert g).name = g.name := by
  induction entries generalizing g with
  | nil => rfl
  | cons entry entries ih => rw [List.foldl_cons, ih, name_insert]

theorem keys_rules_foldl_insert : ((entries.map Entry.trimmed).foldl insert g).rules.keys =
    g.rules.keys.insertAll ((givenRules entries).map Prod.fst) := by
  induction entries generalizing g with
  | nil => rfl
  | cons entry entries ih =>
    rw [List.map_cons, List.foldl_cons, ih]
    cases entry with
    | rule head body =>
      show (g.rules.add (trim head) (body.map trim)).keys.insertAll _ =
        g.rules.keys.insertAll (trim head :: (givenRules entries).map Prod.fst)
      rw [Table.keys_add, OrderedSet.insertAll_cons]
    | words category listed => rfl

theorem get_rules_foldl_insert (head : Symbol) :
    ((entries.map Entry.trimmed).foldl insert g).rules.get head = (g.rules.get head).insertAll
      (((givenRules entries).filter (·.1 = head)).map Prod.snd) := by
  induction entries generalizing g with
  | nil => rfl
  | cons entry entries ih =>
    rw [List.map_cons, List.foldl_cons, ih]
    cases entry with
    | rule newHead body =>
      have hgiven : givenRules (.rule newHead body :: entries) =
          (trim newHead, body.map trim) :: givenRules entries := rfl
      show ((g.rules.add (trim newHead) (body.map trim)).get head).insertAll _ = _
      rw [hgiven, List.filter_cons, Table.get_add]
      by_cases hhead : trim newHead = head
      · simp [hhead]
      · simp [hhead, Ne.symm hhead]
    | words category listed => rfl

theorem keys_lexicon_foldl_insert : ((entries.map Entry.trimmed).foldl insert g).lexicon.keys =
    g.lexicon.keys.insertAll ((givenLists entries).map Prod.fst) := by
  induction entries generalizing g with
  | nil => rfl
  | cons entry entries ih =>
    rw [List.map_cons, List.foldl_cons, ih]
    cases entry with
    | rule head body => rfl
    | words category listed =>
      -- the part of speech has its row before the words are added
      have hkey : trim category ∈ (g.lexicon.ensure (trim category)).keys := by simp
      show (((listed.map trim).foldl (·.add (trim category) ·)
          (g.lexicon.ensure (trim category))).keys).insertAll _ =
        g.lexicon.keys.insertAll (trim category :: (givenLists entries).map Prod.fst)
      rw [Table.keys_foldl_add hkey, Table.keys_ensure, OrderedSet.insertAll_cons]

theorem get_lexicon_foldl_insert (category : Symbol) :
    ((entries.map Entry.trimmed).foldl insert g).lexicon.get category =
      (g.lexicon.get category).insertAll
        (((givenLists entries).filter (·.1 = category)).flatMap Prod.snd) := by
  induction entries generalizing g with
  | nil => rfl
  | cons entry entries ih =>
    rw [List.map_cons, List.foldl_cons, ih]
    cases entry with
    | rule head body => rfl
    | words newCategory listed =>
      have hgiven : givenLists (.words newCategory listed :: entries) =
          (trim newCategory, listed.map trim) :: givenLists entries := rfl
      show (((listed.map trim).foldl (·.add (trim newCategory) ·)
          (g.lexicon.ensure (trim newCategory))).get category).insertAll _ = _
      rw [hgiven, List.filter_cons, Table.get_foldl_add, Table.get_ensure, Table.get_ensure]
      by_cases hcategory : trim newCategory = category
      · simp [hcategory, OrderedSet.insertAll]
      · simp [hcategory, Ne.symm hcategory]

end Fold

/-- A grammar is built if no entry has a blank name, and then from the entries without blanks
around their names. -/
theorem ofEntries_eq_ok_iff_trimmed {name : String} {entries : List Entry} {g : Grammar} :
    ofEntries name entries = .ok g ↔ (∀ entry ∈ entries, ¬ entry.HasBlank) ∧
      (entries.map Entry.trimmed).foldl insert (empty name) = g := by
  have hchecked : ∀ checked, List.Forall₂ (fun entry entry' => entry.checked = .ok entry') entries
      checked ↔ (∀ entry ∈ entries, ¬ entry.HasBlank) ∧ entries.map Entry.trimmed = checked := by
    intro checked
    simp only [Entry.checked_eq_ok_iff]
    induction entries generalizing checked with
    | nil => simp [eq_comm]
    | cons entry entries ih =>
      simp only [List.forall₂_cons_left_iff, ih, List.forall_mem_cons, List.map_cons]
      constructor
      · rintro ⟨_, _, ⟨hentry, rfl⟩, ⟨hentries, rfl⟩, rfl⟩
        exact ⟨⟨hentry, hentries⟩, rfl⟩
      · rintro ⟨⟨hentry, hentries⟩, rfl⟩
        exact ⟨_, _, ⟨hentry, rfl⟩, ⟨hentries, rfl⟩, rfl⟩
  rw [ofEntries_eq_ok_iff]
  simp only [hchecked]
  constructor
  · rintro ⟨_, ⟨hblank, rfl⟩, hg⟩
    exact ⟨hblank, hg⟩
  · rintro ⟨hblank, hg⟩
    exact ⟨_, ⟨hblank, rfl⟩, hg⟩

theorem name_of_ofEntries {name : String} {entries : List Entry} {g : Grammar}
    (h : ofEntries name entries = .ok g) : g.name = name := by
  rw [← (ofEntries_eq_ok_iff_trimmed.1 h).2, name_foldl_insert]
  rfl

/-- A grammar is refused for the cause of the first entry with a blank name. -/
theorem ofEntries_eq_error_iff {name : String} {entries : List Entry} {cause : GrammarError} :
    ofEntries name entries = .error cause ↔ ∃ before entry after,
      entries = before ++ entry :: after ∧ (∀ earlier ∈ before, ¬ earlier.HasBlank) ∧
        entry.Refused cause := by
  have hmapM : ofEntries name entries = .error cause ↔
      entries.mapM Entry.checked = .error cause := by
    rw [ofEntries]
    cases entries.mapM Entry.checked <;> simp [bind, Except.bind, pure, Except.pure]
  simp only [hmapM, mapM_eq_error_iff, Entry.checked_eq_error_iff, Entry.checked_eq_ok_iff,
    exists_and_left, exists_eq', and_true]

/-- A grammar with exactly what some entries give, and with indexes that agree with its rows. -/
structure Holds (g : Grammar) (entries : List Entry) : Prop where
  /-- Every head is listed once, where it is given first. -/
  nonterminals : g.nonterminals = ((givenRules entries).map Prod.fst).eraseDups
  /-- Every alternative of a head is listed once, where it is given first. -/
  alternativesOf (head : Symbol) : g.alternativesOf head =
    (((givenRules entries).filter (·.1 = head)).map Prod.snd).eraseDups
  /-- Every part of speech is listed once, where it is given first. -/
  partsOfSpeech : g.lexicon.keys.toList = ((givenLists entries).map Prod.fst).eraseDups
  /-- Every word of a part of speech is listed once, where it is given first. -/
  wordsOf (category : Symbol) : g.wordsOf category =
    (((givenLists entries).filter (·.1 = category)).flatMap Prod.snd).eraseDups
  isA_iff (word : Word) (category : Symbol) :
    g.isA word category = true ↔ word ∈ g.wordsOf category
  /-- The parts of speech of a word are those that list it, in the order of the lexicon. -/
  categories (word : Word) :
    g.categories word = g.lexicon.keys.toList.filter (word ∈ g.wordsOf ·)
  nodup_categories (word : Word) : (g.categories word).Nodup
  isNonterminal_iff (sym : Symbol) :
    g.isNonterminal sym = true ↔ ∃ body, (sym, body) ∈ givenRules entries
  isCategory_iff (sym : Symbol) :
    g.isCategory sym = true ↔ ∃ listed, (sym, listed) ∈ givenLists entries
  /-- The index of the rules points at the row of the head that is looked up. -/
  ruleIndex (head : Symbol) (position : Nat) : g.rules.index[head]? = some position ↔
    g.rules.rows[position]?.map Prod.fst = some head
  /-- The index of the lexicon points at the row of the part of speech that is looked up. -/
  lexiconIndex (category : Symbol) (position : Nat) : g.lexicon.index[category]? = some position ↔
    g.lexicon.rows[position]?.map Prod.fst = some category
  /-- The alternatives that are read through the index are those of the head. -/
  rules_getAt (head : Symbol) : g.rules.getAt head = g.alternativesOf head
  /-- The words that are read through the index are those of the part of speech. -/
  lexicon_getAt (category : Symbol) : g.lexicon.getAt category = g.wordsOf category
  /-- The index of the words knows the parts of speech of every word. -/
  wordIndex (word : Word) : g.wordIndex.getD word [] = g.categories word

variable {name : String} {entries : List Entry} {g : Grammar}

/-- A grammar that is built holds exactly what the entries give. -/
theorem holds_of_ofEntries (h : ofEntries name entries = .ok g) : g.Holds entries := by
  obtain ⟨-, rfl⟩ := ofEntries_eq_ok_iff_trimmed.1 h
  generalize hg : (entries.map Entry.trimmed).foldl insert (empty name) = g
  have hheads : g.nonterminals = ((givenRules entries).map Prod.fst).eraseDups := by
    rw [nonterminals, ← hg, keys_rules_foldl_insert, ← OrderedSet.toList_ofList]
    rfl
  have hparts : g.lexicon.keys.toList = ((givenLists entries).map Prod.fst).eraseDups := by
    rw [← hg, keys_lexicon_foldl_insert, ← OrderedSet.toList_ofList]
    rfl
  have hcategories : ∀ word, g.categories word =
      g.lexicon.keys.toList.filter (word ∈ g.wordsOf ·) := by
    intro word
    rw [categories, Table.toList_keys, List.filter_map]
    refine congrArg _ (List.filter_congr ?_)
    intro row hrow
    -- the words in a row are the words of its name
    simp [wordsOf, Table.get_of_mem_rows hrow, OrderedSet.mem_def]
  exact {
    nonterminals := hheads
    alternativesOf := fun head => by
      rw [alternativesOf, ← hg, get_rules_foldl_insert, ← OrderedSet.toList_ofList]
      rfl
    partsOfSpeech := hparts
    wordsOf := fun category => by
      rw [wordsOf, ← hg, get_lexicon_foldl_insert, ← OrderedSet.toList_ofList]
      rfl
    isA_iff := fun word category => isA_iff
    categories := hcategories
    nodup_categories := fun word => by
      rw [hcategories]
      exact g.lexicon.keys.nodup.filter _
    isNonterminal_iff := fun sym => by
      rw [isNonterminal, Table.contains_iff, OrderedSet.mem_def]
      change sym ∈ g.nonterminals ↔ _
      rw [hheads, List.mem_eraseDups]
      simp
    isCategory_iff := fun sym => by
      rw [isCategory, Table.contains_iff, OrderedSet.mem_def, hparts, List.mem_eraseDups]
      simp
    ruleIndex := g.rules.getElem?_index
    lexiconIndex := g.lexicon.getElem?_index
    rules_getAt := g.rules.getAt_eq
    lexicon_getAt := g.lexicon.getAt_eq
    wordIndex := g.getD_wordIndex }

/-- Entries are taken one by one, and the cause of the first refusal is kept, although entries are
added before and after it. What comes out is refused exactly if some entry has a blank head, part of
speech, symbol or word, and the first such entry decides the cause. Otherwise it is a grammar that
holds exactly what the entries give. -/
theorem ofEntries_exact (name : String) (entries : List Entry) :
    (entries.foldl Builder.take Builder.empty).finish name = ofEntries name entries ∧
      ((∃ cause, ofEntries name entries = .error cause) ↔ ∃ entry ∈ entries, entry.HasBlank) ∧
      (∀ cause, ofEntries name entries = .error cause ↔ ∃ before entry after,
        entries = before ++ entry :: after ∧ (∀ earlier ∈ before, ¬ earlier.HasBlank) ∧
          entry.Refused cause) ∧
      ∀ g, ofEntries name entries = .ok g → g.name = name ∧ g.Holds entries := by
  refine ⟨?_, ?_, fun cause => ofEntries_eq_error_iff, ?_⟩
  · rw [Builder.finish_foldl_take entries rfl name, ofEntries]
    cases entries.mapM Entry.checked <;> rfl
  · constructor
    · rintro ⟨cause, h⟩
      obtain ⟨before, entry, after, rfl, -, hentry⟩ := ofEntries_eq_error_iff.1 h
      exact ⟨entry, by simp, hentry.hasBlank⟩
    · rintro ⟨entry, hmem, hentry⟩
      cases h : ofEntries name entries with
      | error cause => exact ⟨cause, rfl⟩
      | ok g => exact absurd hentry ((ofEntries_eq_ok_iff_trimmed.1 h).1 entry hmem)
  · exact fun g h => ⟨name_of_ofEntries h, holds_of_ofEntries h⟩

/-- Entries that give a head, an alternative, a part of speech and words again. -/
def repeated : List Entry :=
  [.rule "S" ["A"], .words "A" ["x", "x ", "y"], .rule " S" ["A"], .rule "S" ["B"],
    .words "A" ["y", "z"]]

/-- Entries of which the second and the third one have a blank name. -/
def blanked : List Entry := [.rule "S" ["N"], .words "N" ["man", " "], .words "" ["woman"]]

theorem ofEntries_exact_repeated :
    (∃ g, ofEntries "repeated" repeated = .ok g ∧ g.Holds repeated ∧
      g.alternativesOf "S" = [["A"], ["B"]] ∧ g.wordsOf "A" = ["x", "y", "z"]) ∧
    (Entry.words "N" ["man", " "]).HasBlank ∧
      ofEntries "blanked" blanked = .error (.emptyWord "N") := by
  have hread : ((ofEntries "repeated" repeated).map fun g =>
      (g.alternativesOf "S", g.wordsOf "A")).toOption =
        some ([["A"], ["B"]], ["x", "y", "z"]) := by
    decide +kernel
  have hblank : Blank " " := by decide +kernel
  have hman : ¬ Blank "N" := by decide +kernel
  have hfirst : ∀ earlier ∈ [Entry.rule "S" ["N"]], ¬ earlier.HasBlank := by
    intro earlier hearlier
    rw [List.mem_singleton.1 hearlier]
    rintro (hS | ⟨sym, hsym, hN⟩)
    · exact absurd hS (by decide +kernel)
    · rw [List.mem_singleton.1 hsym] at hN
      exact hman hN
  have hrefused : (Entry.words "N" ["man", " "]).Refused (.emptyWord "N") := by
    have hword : (Entry.words "N" ["man", " "]).Refused (.emptyWord (trim "N")) :=
      .word hman ⟨" ", by simp, hblank⟩
    rwa [show trim "N" = "N" by decide +kernel] at hword
  refine ⟨?_, hrefused.hasBlank, ?_⟩
  · cases hbuilt : ofEntries "repeated" repeated with
    | error cause => rw [hbuilt] at hread; cases hread
    | ok g =>
      rw [hbuilt] at hread
      obtain ⟨-, hholds⟩ := (ofEntries_exact "repeated" repeated).2.2.2 g hbuilt
      exact ⟨g, rfl, hholds, Prod.mk.inj (Option.some.inj hread)⟩
  · exact ((ofEntries_exact "blanked" blanked).2.2.1 _).2
      ⟨[.rule "S" ["N"]], .words "N" ["man", " "], [.words "" ["woman"]], rfl, hfirst, hrefused⟩

end Grammar

end NaturalLanguage
