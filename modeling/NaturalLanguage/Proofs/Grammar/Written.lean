import NaturalLanguage.Grammar.Rows
import NaturalLanguage.Proofs.Grammar.Building
import NaturalLanguage.Proofs.Text.Pieces

/-!
# Grammars that are written in rows and read again

A grammar that was read from rows can be written in rows again, and reading those gives the grammar
back. The proof has two halves that meet at `Writable`, which says that the names of a grammar
survive being written: reading makes only such grammars, and every such grammar is read back from
its rows.

* `Table.foldl_addRow`: a table that is filled row by row.
* `readAlternatives_writeAlternatives`, `readWords_writeWords`: the texts of rows.
* `writable_of_ofRows`, `Writable.ofRows_eq`: the two halves.
* `ofRows_written`: the round trip.
-/

namespace NaturalLanguage

/-- A function that leaves every member of a list as it is leaves the list as it is. -/
theorem map_eq_self {α : Type} {f : α → α} {xs : List α} (h : ∀ x ∈ xs, f x = x) :
    xs.map f = xs :=
  (List.map_congr_left h).trans (List.map_id' xs)

/-- New and distinct values are inserted at the end, as they come. -/
theorem OrderedSet.toList_insertAll_of_nodup {α : Type} [DecidableEq α] {s : OrderedSet α}
    {xs : List α} (h : (s.toList ++ xs).Nodup) : (s.insertAll xs).toList = s.toList ++ xs := by
  induction xs generalizing s with
  | nil => simp
  | cons x xs ih =>
    have hx : ¬ x ∈ s := fun hmem => (List.nodup_append.1 h).2.2 x hmem x (by simp) rfl
    have happend : (s.insert x).toList ++ xs = s.toList ++ x :: xs := by
      rw [toList_insert_of_not_mem hx, List.append_assoc, List.singleton_append]
    rw [insertAll_cons, ih (happend ▸ h), happend]

theorem OrderedSet.insertAll_toList {α : Type} [DecidableEq α] (s : OrderedSet α) :
    (∅ : OrderedSet α).insertAll s.toList = s :=
  OrderedSet.ext (toList_insertAll_of_nodup s.nodup)

/-! ### Tables filled row by row -/

namespace Table

variable {α : Type}

theorem ext_rows {t t' : Table α} (h : t.rows = t'.rows) : t = t' := by
  obtain ⟨rows, hkeys⟩ := t
  obtain ⟨rows', hkeys'⟩ := t'
  obtain rfl : rows = rows' := h
  rfl

theorem ensure_of_mem {t : Table α} {key : String} (h : key ∈ t.keys) : t.ensure key = t := by
  rw [ensure, dif_pos h]

variable [DecidableEq α] {t : Table α} {key : String}

/-- Give a name a row and put values into it. -/
def addRow (t : Table α) (row : String × OrderedSet α) : Table α :=
  row.2.toList.foldl (·.add row.1 ·) (t.ensure row.1)

/-- A key that gets values need not be named before. -/
theorem foldl_add_ensure {values : List α} (hne : values ≠ []) (t : Table α) (key : String) :
    values.foldl (·.add key ·) (t.ensure key) = values.foldl (·.add key ·) t := by
  obtain ⟨value, rest, rfl⟩ := List.exists_cons_of_ne_nil hne
  have hkey : key ∈ (t.ensure key).keys := by simp
  have hadd : (t.ensure key).add key value = t.add key value := by
    refine ext_rows ?_
    simp only [add, ensure_of_mem hkey]
  rw [List.foldl_cons, List.foldl_cons, hadd]

/-- A value of the name with the newest row goes to the end of the table. -/
theorem rows_add_of_rows_eq {before : List (String × OrderedSet α)} {values : OrderedSet α}
    (h : t.rows = before ++ [(key, values)]) (value : α) :
    (t.add key value).rows = before ++ [(key, values.insert value)] := by
  have hkey : key ∈ t.keys := mem_keys.2 ⟨values, by simp [h]⟩
  have hbefore : ∀ row ∈ before, row.1 ≠ key := by
    intro row hrow heq
    have hkeys := t.nodup_keys
    rw [h, List.map_append, List.nodup_append] at hkeys
    exact hkeys.2.2 _ (List.mem_map_of_mem hrow) key (by simp) heq
  -- only the newest row changes
  have hkept : before.map (fun row => if row.1 = key then (row.1, row.2.insert value) else row) =
      before :=
    map_eq_self fun row hrow => if_neg (hbefore row hrow)
  simp only [add, ensure_of_mem hkey, h, List.map_append, hkept]
  simp

theorem rows_foldl_add_of_rows_eq {before : List (String × OrderedSet α)} {values : OrderedSet α}
    (h : t.rows = before ++ [(key, values)]) (added : List α) :
    (added.foldl (·.add key ·) t).rows = before ++ [(key, values.insertAll added)] := by
  induction added generalizing t values with
  | nil => exact h
  | cons value added ih => exact ih (rows_add_of_rows_eq h value)

theorem rows_addRow {row : String × OrderedSet α} (h : ¬ row.1 ∈ t.keys) :
    (t.addRow row).rows = t.rows ++ [row] := by
  have hrow : (t.ensure row.1).rows = t.rows ++ [(row.1, ∅)] := by rw [rows_ensure, if_neg h]
  rw [addRow, rows_foldl_add_of_rows_eq hrow, OrderedSet.insertAll_toList]

theorem rows_foldl_addRow {rows : List (String × OrderedSet α)}
    (h : ((t.rows ++ rows).map Prod.fst).Nodup) : (rows.foldl addRow t).rows = t.rows ++ rows := by
  induction rows generalizing t with
  | nil => simp
  | cons row rows ih =>
    have hrow : ¬ row.1 ∈ t.keys := by
      rw [List.map_append, List.nodup_append] at h
      exact fun hmem => h.2.2 _ hmem row.1 (by simp) rfl
    have happend : (t.addRow row).rows ++ rows = t.rows ++ row :: rows := by
      rw [rows_addRow hrow, List.append_assoc, List.singleton_append]
    rw [List.foldl_cons, ih (happend ▸ h), happend]

/-- A table is what its rows make of the table without rows. -/
theorem foldl_addRow (t : Table α) : t.rows.foldl addRow ∅ = t :=
  ext_rows (rows_foldl_addRow t.nodup_keys)

end Table

namespace Grammar

open Text

/-! ### The texts of rows -/

/-- Alternatives are read as they were written, if their symbols are fields without bars. -/
theorem readAlternatives_writeAlternatives {bodies : List (List Symbol)} (hne : bodies ≠ [])
    (h : ∀ body ∈ bodies, ∀ sym ∈ body, IsField sym ∧ '|' ∉ sym.toList) :
    readAlternatives (writeAlternatives bodies) = bodies := by
  have htexts : bodies.map (" ".intercalate ·) ≠ [] := by simpa using hne
  have hbar : ∀ text ∈ bodies.map (" ".intercalate ·), '|' ∉ text.toList := by
    intro text htext
    obtain ⟨body, hbody, rfl⟩ := List.mem_map.1 htext
    exact not_mem_intercalate (by decide) fun sym hsym => (h body hbody sym hsym).2
  rw [readAlternatives, writeAlternatives,
    map_splitBars_intercalate fields_blank_append fields_append_blank htexts hbar, List.map_map]
  exact map_eq_self fun body hbody => fields_intercalate fun sym hsym => (h body hbody sym hsym).1

/-- Words are read as they were written, if they are trimmed and hold no bars. -/
theorem readWords_writeWords {words : List Word} (hne : words ≠ [])
    (h : ∀ word ∈ words, trim word = word ∧ '|' ∉ word.toList) :
    readWords (writeWords words) = words := by
  rw [readWords, writeWords, map_splitBars_intercalate trim_blank_append trim_append_blank hne
    fun word hword => (h word hword).2]
  exact map_eq_self fun word hword => (h word hword).1

/-! ### The entries of a grammar -/

/-- The entries that give what a grammar holds. -/
def rowEntries (g : Grammar) : List Entry :=
  (g.rules.rows.flatMap fun row => row.2.toList.map (.rule row.1)) ++
    g.lexicon.rows.map fun row => .words row.1 row.2.toList

theorem foldl_insert_rules {rows : List (Symbol × OrderedSet (List Symbol))}
    (hne : ∀ row ∈ rows, row.2.toList ≠ []) (g : Grammar) :
    (rows.flatMap fun row => row.2.toList.map (.rule row.1)).foldl insert g =
      { g with rules := rows.foldl Table.addRow g.rules } := by
  induction rows generalizing g with
  | nil => rfl
  | cons row rows ih =>
    obtain ⟨hrow, hrows⟩ := List.forall_mem_cons.1 hne
    -- the entries of one row add its alternatives under its head
    have hfold : ∀ (bodies : List (List Symbol)) (g : Grammar),
        (bodies.map (.rule row.1)).foldl insert g =
          { g with rules := bodies.foldl (·.add row.1 ·) g.rules } := by
      intro bodies
      induction bodies with
      | nil => exact fun g => rfl
      | cons body bodies ih => exact fun g => ih _
    -- the first alternative names the head, since there is one
    rw [List.flatMap_cons, List.foldl_append, ih hrows, hfold, List.foldl_cons, Table.addRow,
      Table.foldl_add_ensure hrow]

theorem foldl_insert_lists (rows : List (Symbol × OrderedSet Word)) (g : Grammar) :
    (rows.map fun row => .words row.1 row.2.toList).foldl insert g =
      { g with lexicon := rows.foldl Table.addRow g.lexicon } := by
  induction rows generalizing g with
  | nil => rfl
  | cons row rows ih => exact ih _

/-- A grammar is built from the entries that give what it holds. -/
theorem foldl_insert_rowEntries {g : Grammar} (hne : ∀ row ∈ g.rules.rows, row.2.toList ≠ []) :
    g.rowEntries.foldl insert (empty g.name) = g := by
  rw [rowEntries, List.foldl_append, foldl_insert_rules hne, foldl_insert_lists]
  simp only [empty, Table.foldl_addRow]

/-! ### Grammars that can be written -/

/-- A name that reading leaves as it is. -/
def IsName (s : String) : Prop := ¬ Blank s ∧ trim s = s

instance (s : String) : Decidable (IsName s) := inferInstanceAs (Decidable (¬ Blank s ∧ trim s = s))

theorem isName_iff {s : String} : IsName s ↔ s ≠ "" ∧ trim s = s := by
  rw [IsName, ← trim_eq_empty_iff]
  constructor
  · exact fun ⟨hne, htrim⟩ => ⟨htrim ▸ hne, htrim⟩
  · exact fun ⟨hne, htrim⟩ => ⟨htrim.symm ▸ hne, htrim⟩

theorem isName_trim {s : String} (h : ¬ Blank s) : IsName (trim s) := by
  refine ⟨?_, trim_trim s⟩
  rwa [← trim_eq_empty_iff, trim_trim, trim_eq_empty_iff]

theorem isName_of_isField {s : String} (h : IsField s) : IsName s := by
  have htrim := trim_of_forall h.2
  refine ⟨?_, htrim⟩
  rw [← trim_eq_empty_iff, htrim]
  exact h.1

/-- A grammar whose names survive being written in rows: heads, parts of speech and words are names,
symbols are fields, what stands between bars holds no bar, and no row is without a value. -/
structure Writable (g : Grammar) : Prop where
  head {head bodies} : (head, bodies) ∈ g.rules.rows → IsName head
  bodies_ne {head bodies} : (head, bodies) ∈ g.rules.rows → bodies.toList ≠ []
  symbol {head bodies} : (head, bodies) ∈ g.rules.rows → ∀ body ∈ bodies.toList, ∀ sym ∈ body,
    IsField sym ∧ '|' ∉ sym.toList
  category {category words} : (category, words) ∈ g.lexicon.rows → IsName category
  words_ne {category words} : (category, words) ∈ g.lexicon.rows → words.toList ≠ []
  word {category words} : (category, words) ∈ g.lexicon.rows → ∀ word ∈ words.toList,
    IsName word ∧ '|' ∉ word.toList

/-! ### Reading makes grammars that can be written -/

section Reading

/-- Symbols that are read from a text are fields without bars. -/
theorem isField_of_mem_readAlternatives {text : String} {body : List Symbol} {sym : Symbol}
    (hbody : body ∈ readAlternatives text) (hsym : sym ∈ body) :
    IsField sym ∧ '|' ∉ sym.toList := by
  obtain ⟨piece, hpiece, rfl⟩ := List.mem_map.1 hbody
  exact ⟨isField_of_mem_fields hsym, fun hbar =>
    not_mem_of_mem_splitBars hpiece (mem_of_mem_fields hsym hbar)⟩

theorem not_mem_trim {s : String} {c : Char} (h : c ∉ s.toList) : c ∉ (trim s).toList := by
  rw [toList_trim]
  exact fun hc => h (mem_of_mem_trimBy hc)

variable {name : String} {rules lexicon : List Row} {g : Grammar}

/-- What a rule says that is read from a row without blank names. -/
theorem rule_of_mem_entries {head : Symbol} {body : List Symbol}
    (hblank : ∀ entry ∈ rules.flatMap ruleEntries ++ lexicon.map lexiconEntry, ¬ entry.HasBlank)
    (h : .rule head body ∈
      (rules.flatMap ruleEntries ++ lexicon.map lexiconEntry).map Entry.trimmed) :
    IsName head ∧ ∀ sym ∈ body, IsField sym ∧ '|' ∉ sym.toList := by
  obtain ⟨entry, hentry, htrimmed⟩ := List.mem_map.1 h
  have hnames := hblank entry hentry
  simp only [List.mem_append, List.mem_flatMap, ruleEntries, List.mem_map] at hentry
  obtain ⟨row, -, symbols, hsymbols, rfl⟩ | ⟨row, -, rfl⟩ := hentry
  · obtain ⟨rfl, rfl⟩ := Entry.rule.inj htrimmed
    refine ⟨isName_trim fun hhead => hnames (.inl hhead), ?_⟩
    -- symbols are fields of the text, so trimming leaves them as they are
    intro sym hsym
    obtain ⟨field, hfield, rfl⟩ := List.mem_map.1 hsym
    have hkept := isField_of_mem_readAlternatives hsymbols hfield
    rwa [trim_of_forall hkept.1.2]
  · cases htrimmed

/-- What a list of words says that is read from a row without blank names. -/
theorem words_of_mem_entries {category : Symbol} {listed : List Word}
    (hblank : ∀ entry ∈ rules.flatMap ruleEntries ++ lexicon.map lexiconEntry, ¬ entry.HasBlank)
    (h : .words category listed ∈
      (rules.flatMap ruleEntries ++ lexicon.map lexiconEntry).map Entry.trimmed) :
    IsName category ∧ listed ≠ [] ∧ ∀ word ∈ listed, IsName word ∧ '|' ∉ word.toList := by
  obtain ⟨entry, hentry, htrimmed⟩ := List.mem_map.1 h
  have hnames := hblank entry hentry
  simp only [List.mem_append, List.mem_flatMap, ruleEntries, List.mem_map] at hentry
  obtain ⟨row, -, symbols, -, rfl⟩ | ⟨row, -, rfl⟩ := hentry
  · cases htrimmed
  · obtain ⟨rfl, rfl⟩ := Entry.words.inj htrimmed
    obtain ⟨hcategory, hlisted⟩ := not_or.1 hnames
    refine ⟨isName_trim hcategory, by simp [readWords, splitBars_ne_nil], ?_⟩
    intro word hword
    obtain ⟨read, hread, rfl⟩ := List.mem_map.1 hword
    refine ⟨isName_trim fun hblank => hlisted ⟨read, hread, hblank⟩, not_mem_trim ?_⟩
    obtain ⟨piece, hpiece, rfl⟩ := List.mem_map.1 hread
    exact not_mem_trim (not_mem_of_mem_splitBars hpiece)

/-- A row of the rules has its head and its alternatives from entries. -/
theorem rule_of_mem_rows {entries : List Entry} {head : Symbol} {bodies : OrderedSet (List Symbol)}
    (h : (head, bodies) ∈ (entries.foldl insert (empty name)).rules.rows) :
    (∃ body, .rule head body ∈ entries) ∧
      ∀ body, body ∈ bodies.toList ↔ .rule head body ∈ entries := by
  have hkey := Table.contains_iff.2 (Table.mem_keys.2 ⟨bodies, h⟩)
  refine ⟨(isNonterminal_foldl_insert name entries).1 hkey, fun body => ?_⟩
  rw [← mem_alternativesOf_foldl_insert name entries, alternativesOf, Table.get_of_mem_rows h]

/-- A row of the lexicon has its part of speech and its words from entries. -/
theorem words_of_mem_rows {entries : List Entry} {category : Symbol} {words : OrderedSet Word}
    (h : (category, words) ∈ (entries.foldl insert (empty name)).lexicon.rows) :
    (∃ listed, .words category listed ∈ entries) ∧
      ∀ word, word ∈ words.toList ↔ ∃ listed, .words category listed ∈ entries ∧ word ∈ listed := by
  have hkey := Table.contains_iff.2 (Table.mem_keys.2 ⟨words, h⟩)
  refine ⟨(isCategory_foldl_insert name entries).1 hkey, fun word => ?_⟩
  rw [← mem_wordsOf_foldl_insert name entries, wordsOf, Table.get_of_mem_rows h]

/-- A grammar that is read from rows can be written in rows. -/
theorem writable_of_ofRows (h : ofRows name rules lexicon = .ok g) : g.Writable := by
  obtain ⟨hblank, rfl⟩ := ofEntries_eq_ok_iff_trimmed.1 h
  exact {
    head := fun hrow => by
      obtain ⟨⟨body, hbody⟩, -⟩ := rule_of_mem_rows hrow
      exact (rule_of_mem_entries hblank hbody).1
    bodies_ne := fun hrow => by
      obtain ⟨⟨body, hbody⟩, hbodies⟩ := rule_of_mem_rows hrow
      exact List.ne_nil_of_mem ((hbodies body).2 hbody)
    symbol := fun hrow body hbody =>
      (rule_of_mem_entries hblank (((rule_of_mem_rows hrow).2 body).1 hbody)).2
    category := fun hrow => by
      obtain ⟨⟨listed, hlisted⟩, -⟩ := words_of_mem_rows hrow
      exact (words_of_mem_entries hblank hlisted).1
    words_ne := fun hrow => by
      obtain ⟨⟨listed, hlisted⟩, hwords⟩ := words_of_mem_rows hrow
      -- a text between bars has a piece, so some word is listed
      obtain ⟨word, hword⟩ := List.exists_mem_of_ne_nil _ (words_of_mem_entries hblank hlisted).2.1
      exact List.ne_nil_of_mem ((hwords word).2 ⟨listed, hlisted, hword⟩)
    word := fun hrow word hword => by
      obtain ⟨listed, hlisted, hmem⟩ := ((words_of_mem_rows hrow).2 word).1 hword
      exact (words_of_mem_entries hblank hlisted).2.2 word hmem }

end Reading

/-! ### Grammars that can be written are read back -/

namespace Writable

variable {g : Grammar} (h : g.Writable)

include h

/-- The rows of the rules give the alternatives of the grammar. -/
theorem flatMap_ruleEntries : g.ruleRows.flatMap ruleEntries =
    g.rules.rows.flatMap fun row => row.2.toList.map (.rule row.1) := by
  rw [ruleRows, List.flatMap_map]
  refine List.flatMap_congr fun row hrow => ?_
  rw [ruleEntries, readAlternatives_writeAlternatives (h.bodies_ne hrow) (h.symbol hrow)]

/-- The rows of the lexicon give the words of the grammar. -/
theorem map_lexiconEntry : g.lexiconRows.map lexiconEntry =
    g.lexicon.rows.map fun row => .words row.1 row.2.toList := by
  rw [lexiconRows, List.map_map]
  refine List.map_congr_left fun row hrow => ?_
  show Entry.words row.1 (readWords (writeWords row.2.toList)) = _
  rw [readWords_writeWords (h.words_ne hrow) fun word hword =>
    ⟨(h.word hrow word hword).1.2, (h.word hrow word hword).2⟩]

/-- No entry of a grammar that can be written has a blank name or blanks around a name. -/
theorem tidy {entry : Entry} (hentry : entry ∈ g.rowEntries) :
    ¬ entry.HasBlank ∧ entry.trimmed = entry := by
  simp only [rowEntries, List.mem_append, List.mem_flatMap, List.mem_map] at hentry
  obtain ⟨row, hrow, body, hbody, rfl⟩ | ⟨row, hrow, rfl⟩ := hentry
  · have hhead := h.head hrow
    have hsymbol : ∀ sym ∈ body, IsName sym := fun sym hsym =>
      isName_of_isField (h.symbol hrow body hbody sym hsym).1
    constructor
    · rintro (hblank | ⟨sym, hsym, hblank⟩)
      · exact hhead.1 hblank
      · exact (hsymbol sym hsym).1 hblank
    · rw [Entry.trimmed, hhead.2, map_eq_self fun sym hsym => (hsymbol sym hsym).2]
  · have hcategory := h.category hrow
    constructor
    · rintro (hblank | ⟨word, hword, hblank⟩)
      · exact hcategory.1 hblank
      · exact (h.word hrow word hword).1.1 hblank
    · rw [Entry.trimmed, hcategory.2, map_eq_self fun word hword => (h.word hrow word hword).1.2]

/-- A grammar that can be written is read back from its rows. -/
theorem ofRows_eq : ofRows g.name g.ruleRows g.lexiconRows = .ok g := by
  have hentries : g.ruleRows.flatMap ruleEntries ++ g.lexiconRows.map lexiconEntry =
      g.rowEntries := by
    rw [h.flatMap_ruleEntries, h.map_lexiconEntry, rowEntries]
  have htrimmed : g.rowEntries.map Entry.trimmed = g.rowEntries :=
    map_eq_self fun entry hentry => (h.tidy hentry).2
  rw [ofRows, hentries, ofEntries_eq_ok_iff_trimmed, htrimmed]
  exact ⟨fun entry hentry => (h.tidy hentry).1, foldl_insert_rowEntries fun row => h.bodies_ne⟩

end Writable

/-- A grammar that was read from rows is written in rows from which the same grammar is read: it has
the same name, and the same rules and words in the same order. In the notation, alternatives are
read as they were written, if there is one and no symbol is empty or holds a blank or a bar. -/
theorem ofRows_written :
    (∀ (name : String) (rules lexicon : List Row) (g : Grammar),
      ofRows name rules lexicon = .ok g →
        g.name = name ∧ ofRows name g.ruleRows g.lexiconRows = .ok g) ∧
    ∀ bodies : List (List Symbol), bodies ≠ [] →
      (∀ body ∈ bodies, ∀ sym ∈ body, sym ≠ "" ∧ ∀ c ∈ sym.toList, isBlank c = false ∧ c ≠ '|') →
        readAlternatives (writeAlternatives bodies) = bodies := by
  constructor
  · intro name rules lexicon g h
    have hname := name_of_ofEntries h
    exact ⟨hname, hname ▸ (writable_of_ofRows h).ofRows_eq⟩
  · intro bodies hne hsymbols
    refine readAlternatives_writeAlternatives hne fun body hbody sym hsym => ?_
    obtain ⟨hsym, hchars⟩ := hsymbols body hbody sym hsym
    exact ⟨⟨hsym, fun c hc => (hchars c hc).1⟩, fun hbar => (hchars '|' hbar).2 rfl⟩

/-- Rule rows with blanks, an alternative that is repeated, one that is empty, and a head that comes
again. -/
def untidyRules : List Row := [("S", " A  B |A B| "), (" S", "C|A B")]

/-- Lexicon rows with a word of two parts and with words and a part of speech that come again. -/
def untidyLexicon : List Row := [("A", "x|old  x | x"), ("B", "y"), ("A ", "z |x")]

theorem ofRows_written_untidy :
    (∃ g, ofRows "untidy" untidyRules untidyLexicon = .ok g ∧
      g.ruleRows = [("S", "A B |  | C")] ∧ g.lexiconRows = [("A", "x | old  x | z"), ("B", "y")] ∧
      ofRows "untidy" g.ruleRows g.lexiconRows = .ok g) ∧
    readAlternatives (writeAlternatives [["A", "B"], [], ["C"]]) = [["A", "B"], [], ["C"]] := by
  have hread : ((ofRows "untidy" untidyRules untidyLexicon).map fun g =>
      (g.ruleRows, g.lexiconRows)).toOption =
        some ([("S", "A B |  | C")], [("A", "x | old  x | z"), ("B", "y")]) := by
    decide +kernel
  constructor
  · cases hbuilt : ofRows "untidy" untidyRules untidyLexicon with
    | error cause => rw [hbuilt] at hread; cases hread
    | ok g =>
      rw [hbuilt] at hread
      obtain ⟨hrules, hlexicon⟩ := Prod.mk.inj (Option.some.inj hread)
      obtain ⟨-, hagain⟩ := ofRows_written.1 _ _ _ g hbuilt
      exact ⟨g, rfl, hrules, hlexicon, hagain⟩
  · have hletters : (isBlank 'A' = false ∧ isBlank 'B' = false) ∧ isBlank 'C' = false := by decide
    exact ofRows_written.2 _ (by decide) (by simpa using hletters)

end Grammar

end NaturalLanguage
