import NaturalLanguage.Proofs.Grammar.Written
import NaturalLanguage.Proofs.Weighted.Mistakes
import NaturalLanguage.Weighted.Index

/-!
# Probabilistic rows that are written and read again

Rules and words that are written in rows, each with the text of a number from zero to one, are read
back from these rows: the grammar has exactly the given rules and entries, in the same order, with
those that are repeated. The text of a number holds neither brackets nor bars nor blanks, so the
last opening bracket of an alternative is the one in front of its number, whatever brackets a word
holds itself.

* `Numeral`: a number from zero to one with a text for it.
* `item_writeRule`, `item_writeWord`: what one written alternative adds.
* `Given`: what is given for one row; `Given.RulesWritable`, `Given.WordsWritable`: what survives
  being written.
* `ofRows_of_map_item`: rows whose alternatives add the given items.
* `ofRows_given`: the round trip.
-/

namespace NaturalLanguage.WeightedGrammar

open Text Grammar

/-! ### Numbers with their texts -/

/-- A number from zero to one with a text that is read as this number. -/
structure Numeral where
  text : String
  value : Float
  read?_text : Decimal.read? text = some value
  inUnit : InUnit value

namespace Numeral

variable (p : Numeral)

theorem isNumeral {c : Char} (hc : c ∈ p.text.toList) : Decimal.isNumeral c = true :=
  Decimal.isNumeral_of_read? p.read?_text c hc

theorem not_mem_text {c : Char} (hc : Decimal.isNumeral c = false) : c ∉ p.text.toList := by
  intro hmem
  rw [p.isNumeral hmem] at hc
  cases hc

theorem trim_text : trim p.text = p.text :=
  trim_of_forall fun _ hc => Decimal.isBlank_of_isNumeral (p.isNumeral hc)

end Numeral

/-! ### One alternative -/

/-- An item passes its check unchanged if its names are names and its weight is a probability. -/
theorem Item.checked_entry_of_isName {item : Item} (hnames : ∀ name ∈ item.names, IsName name)
    (hweight : InUnit item.weight) : item.entry.checked = .ok item := by
  refine Item.checked_entry ?_
  rw [isClean, Bool.and_eq_true, List.all_eq_true, isProbability_iff]
  exact ⟨fun name hname => decide_eq_true (isName_iff.1 (hnames name hname)), hweight⟩

section Alternative

variable {name text left right : String} (p : Numeral)

/-- An alternative that was written ends with the brackets around its number. -/
theorem brackets_writeWeighted (hne : text ≠ "") (htext : trim text = text) :
    Brackets (trim (writeWeighted text p.text)) (text ++ " ") p.text := by
  have hwritten : writeWeighted text p.text = text ++ (" [" ++ p.text) ++ "]" := by
    simp only [writeWeighted, String.append_assoc]
  -- neither the beginning of the text nor the bracket at the end is blank
  have htrim : trim (writeWeighted text p.text) = writeWeighted text p.text := by
    rw [hwritten]
    exact trim_append_append htext hne (by decide +kernel) (by decide) _
  refine ⟨?_, p.not_mem_text rfl⟩
  rw [htrim, ← String.toList_inj]
  simp [writeWeighted]

theorem not_mem_writeWeighted (htext : '|' ∉ text.toList) :
    '|' ∉ (writeWeighted text p.text).toList := by
  simp [writeWeighted, htext, p.not_mem_text (c := '|') rfl]

/-- A rule is read as it was written. -/
theorem item_writeRule (hname : IsName name) (hleft : IsField left) (hright : IsField right) :
    (Alternative.rule name (writeWeighted (left ++ " " ++ right) p.text)).item =
      .ok (.inl ⟨name, left, right, p.value⟩) := by
  have hne : left ++ " " ++ right ≠ "" := by simp
  have htrim : trim (left ++ " " ++ right) = left ++ " " ++ right :=
    trim_append_append (trim_of_forall hleft.2) hleft.1 (trim_of_forall hright.2) hright.1 " "
  -- the blank in front of the bracket is left to the body
  have hbody : fields (left ++ " " ++ right ++ " ") = [left, right] := by
    rw [fields_append_blank, fields_append_blank_append, hleft.fields_eq, hright.fields_eq]
    rfl
  have hreads : (Alternative.rule name (writeWeighted (left ++ " " ++ right) p.text)).Reads
      (.rule name [left, right] p.value) := by
    rw [← hbody]
    refine .rule (brackets_writeWeighted p hne htrim) ?_
    rw [p.trim_text, p.read?_text]
  have hnames : ∀ n ∈ Item.names (.inl ⟨name, left, right, p.value⟩), IsName n := by
    simpa [Item.names] using ⟨hname, isName_of_isField hleft, isName_of_isField hright⟩
  rw [hreads.item_eq]
  exact Item.checked_entry_of_isName hnames p.inUnit

/-- A word is read as it was written. -/
theorem item_writeWord {word : Word} (hname : IsName name) (hword : IsName word) :
    (Alternative.word name (writeWeighted word p.text)).item =
      .ok (.inr ⟨name, word, p.value⟩) := by
  have hbefore : trim (word ++ " ") = word := by rw [trim_append_blank, hword.2]
  have hreads : (Alternative.word name (writeWeighted word p.text)).Reads
      (.word name word p.value) := by
    conv => rhs; rw [← hbefore]
    refine .word (brackets_writeWeighted p (isName_iff.1 hword).1 hword.2) ?_
    rw [p.trim_text, p.read?_text]
  have hnames : ∀ n ∈ Item.names (.inr ⟨name, word, p.value⟩), IsName n := by
    simpa [Item.names] using ⟨hname, hword⟩
  rw [hreads.item_eq]
  exact Item.checked_entry_of_isName hnames p.inUnit

end Alternative

/-! ### Rows -/

/-- A head with its pairs of symbols, or a category with its words. -/
structure Given (α : Type) where
  name : Symbol
  listed : List (α × Numeral)

namespace Given

/-- The row of a head. -/
def ruleRow (given : Given (Symbol × Symbol)) : Row :=
  WeightedGrammar.ruleRow given.name
    (given.listed.map fun pair => (pair.1.1, pair.1.2, pair.2.text))

/-- The row of a category. -/
def lexiconRow (given : Given Word) : Row :=
  WeightedGrammar.lexiconRow given.name (given.listed.map fun pair => (pair.1, pair.2.text))

/-- The rules of a head. -/
def rules (given : Given (Symbol × Symbol)) : List (BinaryRule Float) :=
  given.listed.map fun pair => ⟨given.name, pair.1.1, pair.1.2, pair.2.value⟩

/-- The entries of a category. -/
def entries (given : Given Word) : List (LexicalEntry Float) :=
  given.listed.map fun pair => ⟨given.name, pair.1, pair.2.value⟩

/-- Rules that survive being written in a row. -/
structure RulesWritable (given : Given (Symbol × Symbol)) : Prop where
  name : IsName given.name
  ne_nil : given.listed ≠ []
  left : ∀ pair ∈ given.listed, IsField pair.1.1 ∧ '|' ∉ pair.1.1.toList
  right : ∀ pair ∈ given.listed, IsField pair.1.2 ∧ '|' ∉ pair.1.2.toList

/-- Words that survive being written in a row. They may hold blanks and brackets. -/
structure WordsWritable (given : Given Word) : Prop where
  name : IsName given.name
  ne_nil : given.listed ≠ []
  word : ∀ pair ∈ given.listed, IsName pair.1 ∧ '|' ∉ pair.1.toList

end Given

/-- An alternative says the same with other blanks around its text. -/
theorem item_rule_congr {name s t : String} (h : trim s = trim t) :
    (Alternative.rule name s).item = (Alternative.rule name t).item := by
  simp only [Alternative.item, Alternative.read, readRule, readWeighted, h]

theorem item_word_congr {name s t : String} (h : trim s = trim t) :
    (Alternative.word name s).item = (Alternative.word name t).item := by
  simp only [Alternative.item, Alternative.read, readWord, readWeighted, h]

/-- A reader that does not count blanks around a text reads the alternatives of a row one by one. -/
theorem map_splitBars_writeWeighted {α β : Type} (read : String → β)
    (hread : ∀ s t, trim s = trim t → read s = read t) {listed : List (α × Numeral)}
    (text : α → String) (hne : listed ≠ []) (hbar : ∀ pair ∈ listed, '|' ∉ (text pair.1).toList) :
    (splitBars (" | ".intercalate
      (listed.map fun pair => writeWeighted (text pair.1) pair.2.text))).map read =
        listed.map fun pair => read (writeWeighted (text pair.1) pair.2.text) := by
  have hbars : ∀ written ∈ listed.map fun pair => writeWeighted (text pair.1) pair.2.text,
      '|' ∉ written.toList := by
    intro written hwritten
    obtain ⟨pair, hpair, rfl⟩ := List.mem_map.1 hwritten
    exact not_mem_writeWeighted pair.2 (hbar pair hpair)
  rw [map_splitBars_intercalate (fun s => hread _ _ (trim_blank_append s))
    (fun s => hread _ _ (trim_append_blank s)) (by simpa using hne) hbars, List.map_map]
  rfl

/-- The alternatives of a row of rules add these rules. -/
theorem Given.RulesWritable.map_item {given : Given (Symbol × Symbol)} (h : given.RulesWritable) :
    (rowAlternatives given.ruleRow).map (fun a => (Alternative.rule a.1 a.2).item) =
      given.rules.map fun rule => .ok (.inl rule) := by
  have hbar : ∀ pair ∈ given.listed, '|' ∉ (pair.1.1 ++ " " ++ pair.1.2).toList := by
    intro pair hpair
    simp [(h.left pair hpair).2, (h.right pair hpair).2]
  have hread := map_splitBars_writeWeighted (fun text => (Alternative.rule given.name text).item)
    (fun _ _ => item_rule_congr) (fun body : Symbol × Symbol => body.1 ++ " " ++ body.2)
    h.ne_nil hbar
  rw [rowAlternatives, Given.ruleRow, WeightedGrammar.ruleRow, Given.rules]
  simp only [List.map_map, Function.comp_def] at hread ⊢
  rw [hread]
  exact List.map_congr_left fun pair hpair =>
    item_writeRule pair.2 h.name (h.left pair hpair).1 (h.right pair hpair).1

/-- The alternatives of a row of words add their entries. -/
theorem Given.WordsWritable.map_item {given : Given Word} (h : given.WordsWritable) :
    (rowAlternatives given.lexiconRow).map (fun a => (Alternative.word a.1 a.2).item) =
      given.entries.map fun entry => .ok (.inr entry) := by
  have hread := map_splitBars_writeWeighted (fun text => (Alternative.word given.name text).item)
    (fun _ _ => item_word_congr) id h.ne_nil fun pair hpair => (h.word pair hpair).2
  rw [rowAlternatives, Given.lexiconRow, WeightedGrammar.lexiconRow, Given.entries]
  simp only [List.map_map, Function.comp_def, id_eq] at hread ⊢
  rw [hread]
  exact List.map_congr_left fun pair hpair => item_writeWord pair.2 h.name (h.word pair hpair).1

/-- Rows whose alternatives add the given items, one each, are the grammar of these items. -/
theorem ofRows_of_map_item {start : Symbol} {rules lexicon : List Row} {items : List Item}
    (h : (alternatives rules lexicon).map Alternative.item = items.map .ok) :
    ofRows start rules lexicon = .ok (ofItems start items) := by
  have hitems : List.Forall₂ (fun a item => a.item = .ok item) (alternatives rules lexicon)
      items := by
    rw [← List.forall₂_eq_eq_eq, List.forall₂_map_left_iff, List.forall₂_map_right_iff] at h
    exact h
  have hmapM := mapM_eq_ok_iff.2 hitems
  have hreadable : ∀ a ∈ alternatives rules lexicon, ∃ entry, a.Reads entry := fun a ha =>
    (Alternative.wellFormed_iff.2 (exists_mapM_eq_ok_iff.1 ⟨items, hmapM⟩ a ha)).exists_reads
  rw [ofRows_eq_mapM_item hreadable, hmapM]
  rfl

section RoundTrip

variable {rules : List (Given (Symbol × Symbol))} {lexicon : List (Given Word)}

/-- All rules and entries that are given. -/
def givenItems (rules : List (Given (Symbol × Symbol))) (lexicon : List (Given Word)) : List Item :=
  (rules.flatMap Given.rules).map Sum.inl ++ (lexicon.flatMap Given.entries).map Sum.inr

theorem rules_ofItems_givenItems (start : Symbol) :
    (ofItems start (givenItems rules lexicon)).rules = rules.flatMap Given.rules := by
  simp [ofItems, givenItems, List.filterMap_append, List.filterMap_map, Function.comp_def]

theorem lexicon_ofItems_givenItems (start : Symbol) :
    (ofItems start (givenItems rules lexicon)).lexicon = lexicon.flatMap Given.entries := by
  simp [ofItems, givenItems, List.filterMap_append, List.filterMap_map, Function.comp_def]

/-- The categories of a word are those that list it, as often as they list it. -/
theorem categories_of_lexicon_eq {g : WeightedGrammar Float}
    (h : g.lexicon = lexicon.flatMap Given.entries) (word : Word) :
    g.categories word = lexicon.flatMap fun given =>
      (given.listed.filter (·.1 = word)).map fun pair => (given.name, pair.2.value) := by
  simp only [categories, h, List.filter_flatMap, List.map_flatMap, Given.entries, List.filter_map,
    List.map_map, Function.comp_def]
  rfl

/-- The alternatives of all rows add the given rules and entries. -/
theorem map_item_alternatives (hrules : ∀ given ∈ rules, given.RulesWritable)
    (hlexicon : ∀ given ∈ lexicon, given.WordsWritable) :
    (alternatives (rules.map Given.ruleRow) (lexicon.map Given.lexiconRow)).map Alternative.item =
      (givenItems rules lexicon).map .ok := by
  have hrule : (rules.map Given.ruleRow).flatMap (fun row =>
      (rowAlternatives row).map fun a => (Alternative.rule a.1 a.2).item) =
        rules.flatMap fun given => given.rules.map fun rule => .ok (.inl rule) := by
    rw [List.flatMap_map]
    exact List.flatMap_congr fun given hgiven => (hrules given hgiven).map_item
  have hword : (lexicon.map Given.lexiconRow).flatMap (fun row =>
      (rowAlternatives row).map fun a => (Alternative.word a.1 a.2).item) =
        lexicon.flatMap fun given => given.entries.map fun entry => .ok (.inr entry) := by
    rw [List.flatMap_map]
    exact List.flatMap_congr fun given hgiven => (hlexicon given hgiven).map_item
  simp only [alternatives, givenItems, List.map_append, List.map_map, List.map_flatMap,
    Function.comp_def, hrule, hword]

/-- Rules and words that are written in rows are read back: the grammar has exactly the given rules
in their order, with repeated ones, and every word has exactly the given categories in their order,
with their numbers. The index of the words agrees. -/
theorem ofRows_given (start : Symbol) (hrules : ∀ given ∈ rules, given.RulesWritable)
    (hlexicon : ∀ given ∈ lexicon, given.WordsWritable) :
    ∃ g, ofRows start (rules.map Given.ruleRow) (lexicon.map Given.lexiconRow) = .ok g ∧
      g.start = start ∧ g.rules = rules.flatMap Given.rules ∧
      ∀ word, g.categories word = (lexicon.flatMap fun given =>
          (given.listed.filter (·.1 = word)).map fun pair => (given.name, pair.2.value)) ∧
        g.wordIndex.getD word [] = g.categories word := by
  refine ⟨ofItems start (givenItems rules lexicon),
    ofRows_of_map_item (map_item_alternatives hrules hlexicon), rfl,
    rules_ofItems_givenItems start, fun word => ⟨?_, getD_wordIndex _ word⟩⟩
  exact categories_of_lexicon_eq (lexicon_ofItems_givenItems start) word

end RoundTrip

/-- One half. -/
def Numeral.half : Numeral where
  text := "0.5"
  value := (Decimal.read? "0.5").get (by decide +kernel)
  read?_text := (Option.some_get _).symm
  inUnit := isProbability_iff.1 (by decide +kernel)

/-- One quarter, with a sign and an exponent. -/
def Numeral.quarter : Numeral where
  text := "+2.5E-1"
  value := (Decimal.read? "+2.5E-1").get (by decide +kernel)
  read?_text := (Option.some_get _).symm
  inUnit := isProbability_iff.1 (by decide +kernel)

/-- Rules of which one is repeated. -/
def bracketedRules : List (Given (Symbol × Symbol)) :=
  [⟨"S", [(("[", "N]"), .half), (("N", "N"), .quarter)]⟩, ⟨"S", [(("N", "N"), .quarter)]⟩]

/-- Words with blanks and brackets, one of which looks like a word with a number. -/
def bracketedWords : List (Given Word) :=
  [⟨"N", [("x [0.3]", .half), ("] [[", .half), ("x [0.3]", .quarter)]⟩,
    ⟨"the N", [("x [0.3]", .half)]⟩]

theorem ofRows_given_bracketed :
    bracketedRules.map Given.ruleRow =
        [("S", "[ N] [0.5] | N N [+2.5E-1]"), ("S", "N N [+2.5E-1]")] ∧
      bracketedWords.map Given.lexiconRow =
        [("N", "x [0.3] [0.5] | ] [[ [0.5] | x [0.3] [+2.5E-1]"), ("the N", "x [0.3] [0.5]")] ∧
      ∃ g, ofRows "S" (bracketedRules.map Given.ruleRow) (bracketedWords.map Given.lexiconRow) =
          .ok g ∧
        g.rules = [⟨"S", "[", "N]", Numeral.half.value⟩, ⟨"S", "N", "N", Numeral.quarter.value⟩,
          ⟨"S", "N", "N", Numeral.quarter.value⟩] ∧
        g.categories "x [0.3]" = [("N", Numeral.half.value), ("N", Numeral.quarter.value),
          ("the N", Numeral.half.value)] := by
  have hsymbols : ∀ sym ∈ ["[", "N]", "N"], IsField sym ∧ '|' ∉ sym.toList := by decide +kernel
  have hwords : ∀ word ∈ ["x [0.3]", "] [["], IsName word ∧ '|' ∉ word.toList := by decide +kernel
  have hnames : ∀ name ∈ ["S", "N", "the N"], IsName name := by decide +kernel
  have hrules : ∀ given ∈ bracketedRules, given.RulesWritable := by
    simp only [List.forall_mem_cons, List.not_mem_nil, false_imp_iff, forall_const, and_true]
      at hsymbols hnames
    obtain ⟨hopening, hclosing, hN⟩ := hsymbols
    refine List.forall_mem_cons.2 ⟨⟨hnames.1, by simp, ?_, ?_⟩,
      List.forall_mem_singleton.2 ⟨hnames.1, by simp, ?_, ?_⟩⟩
    · exact List.forall_mem_cons.2 ⟨hopening, List.forall_mem_singleton.2 hN⟩
    · exact List.forall_mem_cons.2 ⟨hclosing, List.forall_mem_singleton.2 hN⟩
    · exact List.forall_mem_singleton.2 hN
    · exact List.forall_mem_singleton.2 hN
  have hlexicon : ∀ given ∈ bracketedWords, given.WordsWritable := by
    simp only [List.forall_mem_cons, List.not_mem_nil, false_imp_iff, forall_const, and_true]
      at hwords hnames
    obtain ⟨hx, hbrackets⟩ := hwords
    refine List.forall_mem_cons.2 ⟨⟨hnames.2.1, by simp, ?_⟩,
      List.forall_mem_singleton.2 ⟨hnames.2.2, by simp, ?_⟩⟩
    · exact List.forall_mem_cons.2 ⟨hx, List.forall_mem_cons.2 ⟨hbrackets,
        List.forall_mem_singleton.2 hx⟩⟩
    · exact List.forall_mem_singleton.2 hx
  obtain ⟨g, hg, -, hgrules, hgwords⟩ := ofRows_given "S" hrules hlexicon
  refine ⟨by decide +kernel, by decide +kernel, g, hg, hgrules, ?_⟩
  exact (hgwords "x [0.3]").1.trans rfl

end NaturalLanguage.WeightedGrammar
