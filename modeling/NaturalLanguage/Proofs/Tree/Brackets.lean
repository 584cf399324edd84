import NaturalLanguage.Proofs.Chart.Termination
import NaturalLanguage.Proofs.Text.Pieces
import NaturalLanguage.Tree.Brackets

/-!
# Bracketed trees can be read

The bracketed form does not say whether a pair of brackets stands for a leaf, for a node without
children or for a node with children. If labels and words hold neither blanks nor brackets, what
follows the label tells them apart: the bracket that closes, or a blank and then the word or the
bracket that opens the first child. So the bracketed form of a tree ends where its brackets are
closed, and it determines the tree.

* `IsBare`: trees whose labels and words can stand between brackets.
* `brackets_append_injective`: a bracketed tree and the text behind it.
* `Chart.IsParse.isBare`: the trees of parses, if the symbols of the grammar and the words are bare.
* `brackets_injective`: bracketed trees, and the parses of a sentence, differ if the trees differ.
-/

namespace NaturalLanguage

namespace Tree

/-! ### Names between brackets -/

/-- A name that can stand between brackets: it is not empty and holds neither blanks nor
brackets. -/
def BareName (name : String) : Prop :=
  Text.IsField name ∧ '[' ∉ name.toList ∧ ']' ∉ name.toList

instance (name : String) : Decidable (BareName name) :=
  inferInstanceAs (Decidable (Text.IsField name ∧ '[' ∉ name.toList ∧ ']' ∉ name.toList))

/-- A tree whose labels and words can all stand between brackets. -/
def IsBare (t : Tree) : Prop := ∀ name ∈ t.labels ++ t.leaves, BareName name

instance (t : Tree) : Decidable t.IsBare := List.decidableBAll BareName (t.labels ++ t.leaves)

theorem isBare_iff {t : Tree} :
    t.IsBare ↔ (∀ label ∈ t.labels, BareName label) ∧ ∀ word ∈ t.leaves, BareName word := by
  simp only [IsBare, List.forall_mem_append]

theorem isBare_leaf {category : Symbol} {word : Word} :
    (leaf category word).IsBare ↔ BareName category ∧ BareName word := by
  simp [isBare_iff, mem_labels_leaf]

theorem isBare_node {head : Symbol} {children : List Tree} :
    (node head children).IsBare ↔ BareName head ∧ ∀ t ∈ children, t.IsBare := by
  simp only [isBare_iff, mem_labels_node, leaves_node, List.mem_flatMap]
  grind

/-- The characters that can stand behind a label: a blank, or the bracket that closes. -/
def endsName (c : Char) : Bool := c == ' ' || c == ']'

theorem BareName.endsName_eq_false {name : String} (h : BareName name) :
    ∀ c ∈ name.toList, endsName c = false := by
  obtain ⟨⟨-, hblank⟩, -, hclose⟩ := h
  intro c hc
  rw [endsName, Bool.or_eq_false_iff, beq_eq_false_iff_ne, beq_eq_false_iff_ne]
  refine ⟨?_, ?_⟩
  · rintro rfl
    exact absurd (hblank ' ' hc) (by decide)
  · rintro rfl
    exact hclose hc

/-- What follows the first of two bare names differs from what follows the second one if only one
of them is the end of a bracketed form. -/
theorem BareName.append_inj {name other : String} {more rest : List Char} (h : BareName name)
    (hother : BareName other) (hmore : more.head?.any endsName = true)
    (hrest : rest.head?.any endsName = true) (heq : name.toList ++ more = other.toList ++ rest) :
    name = other ∧ more = rest := by
  obtain ⟨hnames, hends⟩ := Text.append_inj_of_separator h.endsName_eq_false
    hother.endsName_eq_false hmore hrest heq
  exact ⟨String.toList_inj.1 hnames, hends⟩

/-- A bare name is no bracketed form. -/
theorem BareName.append_ne {name : String} (h : BareName name) (more rest : List Char) :
    name.toList ++ more ≠ '[' :: rest := by
  obtain ⟨⟨hne, -⟩, hopen, -⟩ := h
  intro heq
  cases hname : name.toList with
  | nil => exact hne (String.toList_eq_nil_iff.1 hname)
  | cons c cs =>
    rw [hname, List.cons_append] at heq
    exact hopen (hname ▸ List.mem_cons.2 (.inl (List.cons.inj heq).1.symm))

/-! ### The characters of a bracketed form -/

section Characters

variable (category head : Symbol) (word : Word) (t : Tree) (ts : List Tree) (more : List Char)

theorem toList_brackets_leaf_append :
    (leaf category word).brackets.toList ++ more =
      '[' :: (category.toList ++ ' ' :: (word.toList ++ ']' :: more)) := by
  simp

theorem toList_brackets_node_append :
    (node head ts).brackets.toList ++ more =
      '[' :: (head.toList ++ ((bracketsAll ts).toList ++ ']' :: more)) := by
  simp

theorem toList_bracketsAll_cons_append :
    (bracketsAll (t :: ts)).toList ++ more =
      ' ' :: (t.brackets.toList ++ ((bracketsAll ts).toList ++ more)) := by
  simp [bracketsAll]

/-- A bracketed form begins with a bracket. -/
theorem exists_toList_brackets : ∃ rest, t.brackets.toList = '[' :: rest := by
  cases t <;> simp

/-- A label is followed by a blank or by the bracket that closes. -/
theorem head?_bracketsAll : ((bracketsAll ts).toList ++ ']' :: more).head?.any endsName = true := by
  cases ts <;> simp [bracketsAll, endsName]

end Characters

/-- The brackets of a leaf hold a word and those of a node do not. -/
theorem word_append_ne {word : Word} (hword : BareName word) (ts : List Tree)
    (more rest : List Char) :
    ' ' :: (word.toList ++ more) ≠ (bracketsAll ts).toList ++ ']' :: rest := by
  intro h
  cases ts with
  | nil => simp [bracketsAll] at h
  | cons t ts =>
    obtain ⟨inner, hopen⟩ := t.exists_toList_brackets
    rw [toList_bracketsAll_cons_append, hopen, List.cons_append] at h
    exact hword.append_ne _ _ (List.cons.inj h).2

/-! ### Reading a bracketed form -/

mutual
/-- A bracketed tree in front of a text determines the tree and where its bracketed form ends. -/
theorem brackets_append_injective : ∀ (s t : Tree) {more rest : List Char}, s.IsBare → t.IsBare →
    s.brackets.toList ++ more = t.brackets.toList ++ rest → s = t ∧ more = rest
  | .leaf category word, .leaf category' word', more, rest => by
    intro hs ht h
    obtain ⟨hcategory, hword⟩ := isBare_leaf.1 hs
    obtain ⟨hcategory', hword'⟩ := isBare_leaf.1 ht
    rw [toList_brackets_leaf_append, toList_brackets_leaf_append] at h
    obtain ⟨rfl, hwords⟩ := hcategory.append_inj hcategory' rfl rfl (List.cons.inj h).2
    obtain ⟨rfl, hrest⟩ := hword.append_inj hword' rfl rfl (List.cons.inj hwords).2
    exact ⟨rfl, (List.cons.inj hrest).2⟩
  | .leaf category word, .node head children, more, rest => by
    intro hs ht h
    obtain ⟨hcategory, hword⟩ := isBare_leaf.1 hs
    rw [toList_brackets_leaf_append, toList_brackets_node_append] at h
    -- behind the same label stand a word on one side and children on the other
    obtain ⟨-, hinner⟩ := hcategory.append_inj (isBare_node.1 ht).1 rfl
      (head?_bracketsAll children rest) (List.cons.inj h).2
    exact absurd hinner (word_append_ne hword children _ rest)
  | .node head children, .leaf category word, more, rest => by
    intro hs ht h
    obtain ⟨hcategory, hword⟩ := isBare_leaf.1 ht
    rw [toList_brackets_leaf_append, toList_brackets_node_append] at h
    obtain ⟨-, hinner⟩ := (isBare_node.1 hs).1.append_inj hcategory
      (head?_bracketsAll children more) rfl (List.cons.inj h).2
    exact absurd hinner.symm (word_append_ne hword children _ more)
  | .node head children, .node head' children', more, rest => by
    intro hs ht h
    obtain ⟨hhead, hchildren⟩ := isBare_node.1 hs
    obtain ⟨hhead', hchildren'⟩ := isBare_node.1 ht
    rw [toList_brackets_node_append, toList_brackets_node_append] at h
    obtain ⟨rfl, hinner⟩ := hhead.append_inj hhead' (head?_bracketsAll children more)
      (head?_bracketsAll children' rest) (List.cons.inj h).2
    obtain ⟨rfl, hrest⟩ := bracketsAll_append_injective children children' hchildren hchildren'
      hinner
    exact ⟨rfl, hrest⟩

/-- The children of a node end at the bracket that closes the node. -/
theorem bracketsAll_append_injective : ∀ (ss ts : List Tree) {more rest : List Char},
    (∀ s ∈ ss, s.IsBare) → (∀ t ∈ ts, t.IsBare) →
    (bracketsAll ss).toList ++ ']' :: more = (bracketsAll ts).toList ++ ']' :: rest →
      ss = ts ∧ more = rest
  | [], [], more, rest => fun _ _ h => ⟨rfl, (List.cons.inj h).2⟩
  | [], t :: ts, more, rest => by
    intro _ _ h
    rw [toList_bracketsAll_cons_append] at h
    exact absurd (List.cons.inj h).1 (by decide)
  | s :: ss, [], more, rest => by
    intro _ _ h
    rw [toList_bracketsAll_cons_append] at h
    exact absurd (List.cons.inj h).1 (by decide)
  | s :: ss, t :: ts, more, rest => by
    intro hforest hforest' h
    obtain ⟨hs, hss⟩ := List.forall_mem_cons.1 hforest
    obtain ⟨ht, hts⟩ := List.forall_mem_cons.1 hforest'
    rw [toList_bracketsAll_cons_append, toList_bracketsAll_cons_append] at h
    obtain ⟨rfl, hsiblings⟩ := brackets_append_injective s t hs ht (List.cons.inj h).2
    obtain ⟨rfl, hrest⟩ := bracketsAll_append_injective ss ts hss hts hsiblings
    exact ⟨rfl, hrest⟩
end

/-! ### The trees of parses -/

/-- Every label but the one of the root is in the body of a rule that the tree uses. -/
theorem mem_labels_cases {t : Tree} {sym : Symbol} (h : sym ∈ t.labels) :
    sym = t.label ∨ ∃ rule ∈ t.rules, sym ∈ rule.2 := by
  induction t using Tree.induction with
  | leaf category word => exact .inl (mem_labels_leaf.1 h)
  | node head children ih =>
    obtain rfl | ⟨t, ht, hsym⟩ := mem_labels_node.1 h
    · exact .inl rfl
    · right
      obtain rfl | ⟨rule, hrule, hbody⟩ := ih t ht hsym
      · exact ⟨_, List.mem_cons_self, List.mem_map_of_mem ht⟩
      · exact ⟨rule, List.mem_cons_of_mem _ (mem_rulesAll.2 ⟨t, ht, hrule⟩), hbody⟩

end Tree

namespace Chart

open NaturalLanguage.Tree

variable {g : Grammar} {words : List Word} {start : Symbol}

/-- If the start symbol, the symbols of all rules and the words of a sentence can stand between
brackets, so can the labels and words of all its parses. -/
theorem IsParse.isBare {t : Tree} (hstart : BareName start)
    (hbody : ∀ head, ∀ body ∈ g.alternativesOf head, ∀ sym ∈ body, BareName sym)
    (hwords : ∀ word ∈ words, BareName word) (h : IsParse g words start t) : t.IsBare := by
  obtain ⟨⟨children, rfl⟩, rfl, ht⟩ := h
  refine isBare_iff.2 ⟨?_, hwords⟩
  intro sym hsym
  obtain rfl | ⟨rule, hrule, hsym⟩ := mem_labels_cases hsym
  · exact hstart
  · -- the seeded rule has the start symbol as its body
    obtain hrule | rfl := ht.mem_rules hrule
    · exact hbody rule.1 rule.2 hrule sym hsym
    · rw [List.mem_singleton.1 hsym]
      exact hstart

end Chart

/-- The bracketed form of a tree whose labels and words are not empty and hold neither blanks nor
brackets determines the tree. So the parses of a sentence differ in their bracketed forms if the
start symbol, the symbols of the rules and the words are such names. -/
theorem Tree.brackets_injective :
    (∀ s t : Tree, s.IsBare → t.IsBare → s.brackets = t.brackets → s = t) ∧
      ∀ (g : Grammar) (words : List Word) (start : Symbol), BareName start →
        (∀ head, ∀ body ∈ g.alternativesOf head, ∀ sym ∈ body, BareName sym) →
        (∀ word ∈ words, BareName word) →
        ∀ limit run, Chart.Run.parseWithin limit g words start = .ok run →
          ((run.chart.completeParses start).map (·.tree.brackets)).Nodup := by
  have hinjective : ∀ s t : Tree, s.IsBare → t.IsBare → s.brackets = t.brackets → s = t := by
    intro s t hs ht h
    have hnothing : s.brackets.toList ++ [] = t.brackets.toList ++ [] := by rw [h]
    exact (brackets_append_injective s t hs ht hnothing).1
  refine ⟨hinjective, ?_⟩
  intro g words start hstart hbody hwords limit run hparse
  obtain ⟨run', hparse', h, hagenda⟩ := Chart.Run.exists_of_parseWithin (by rw [hparse]; nofun)
  obtain rfl : run = run' := Except.ok.inj (hparse.symm.trans hparse')
  have hbare : ∀ t ∈ (run.chart.completeParses start).map Edge.tree, t.IsBare := by
    intro t ht
    exact ((h.mem_trees_iff hagenda).1 ht).isBare hstart hbody hwords
  have hnodup : (((run.chart.completeParses start).map Edge.tree).map brackets).Nodup := by
    refine List.Nodup.map_on ?_ (h.nodup_trees hagenda)
    intro s hs t ht heq
    exact hinjective s t (hbare s hs) (hbare t ht) heq
  rwa [List.map_map] at hnodup

theorem Tree.brackets_injective_leftRecursive :
    (node "S" [leaf "A" "b"]).brackets ≠ (node "S" [node "A" [node "b" []]]).brackets ∧
      node "S" (["a", "b"].map (leaf "A")) = node "S" [leaf "A" "a", leaf "A" "b"] ∧
      ∃ run, Chart.Run.parseWithin 16 Chart.Run.leftRecursive ["a", "a"] "S" = .ok run ∧
        (run.chart.completeParses "S").length = 4 ∧
        ((run.chart.completeParses "S").map (·.tree.brackets)).Nodup := by
  obtain ⟨htrees, hparses⟩ := brackets_injective
  refine ⟨?_, ?_, ?_⟩
  · intro h
    exact absurd (htrees _ _ (by decide) (by decide) h) (by decide)
  · exact htrees _ _ (by decide) (by decide) rfl
  · have hlength : ((Chart.Run.parseWithin 16 Chart.Run.leftRecursive ["a", "a"] "S").map fun run =>
        (run.chart.completeParses "S").length).toOption = some 4 := by
      decide +kernel
    have hbody : ∀ head, ∀ body ∈ Chart.Run.leftRecursive.alternativesOf head,
        ∀ sym ∈ body, BareName sym := by
      have hrules : ∀ rule ∈ Chart.Run.leftRecursive.ruleList, ∀ sym ∈ rule.2, BareName sym := by
        rw [Chart.Run.ruleList_leftRecursive]
        decide
      intro head body hbody
      exact hrules (head, body) (Grammar.mem_ruleList_iff.2 hbody)
    obtain ⟨run, hparse, hfour⟩ := Chart.Run.exists_of_toOption_map hlength
    exact ⟨run, hparse, hfour, hparses Chart.Run.leftRecursive ["a", "a"] "S" (by decide) hbody
      (by decide) 16 run hparse⟩

end NaturalLanguage
