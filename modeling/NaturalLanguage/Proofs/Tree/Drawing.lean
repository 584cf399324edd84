import NaturalLanguage.Proofs.Text.Quoting
import NaturalLanguage.Tree.Indented

/-!
# Drawn trees can be read

The first row of a tree ends its label with a blank before the word or with the end of the row. If
labels hold no blanks, this tells leaves from nodes. Whether another child follows is told by the
next row: a child begins with the indent of its parent and a branch, and nothing that comes behind
the last child has as much indent. The branch says which strokes the other rows of the child have,
so a drawing in front of rows with less indent determines the tree and where its drawing ends.

* `draw_eq`, `drawAll_eq`: drawings in one pass have the rows of drawings row by row.
* `LessIndented`: texts that can stand behind a drawing.
* `draw_append_injective`: a drawing and the text behind it.
* `drawing_injective`: a drawing determines the tree, whichever characters are hidden by quoting.
-/

namespace NaturalLanguage.Tree

/-! ### Rows and one pass -/

mutual
/-- In one pass a tree is drawn in its rows, the indent in front of all but the first. -/
theorem draw_eq : ∀ (t : Tree) (indent : String),
    t.draw Text.quote indent = String.join ((hang "" indent t.rows).map (· ++ "\n"))
  | .leaf category word, indent => by simp [draw, hang, String.join_cons]
  | .node head children, indent => by
    rw [draw, rows_node, hang_cons, List.map_cons, String.join_cons, drawAll_eq children indent]
    simp

theorem drawAll_eq : ∀ (ts : List Tree) (indent : String),
    drawAll Text.quote indent ts =
      String.join (((rowsAll ts).map (indent ++ ·)).map (· ++ "\n"))
  | [], indent => rfl
  | t :: ts, indent => by
    rw [drawAll, rowsAll, List.map_append, List.map_append, String.join_append,
      drawAll_eq ts indent, draw_eq t (indent.push (trunk ts.isEmpty)), hangChild_eq_hang]
    cases hrows : t.rows with
    | nil => exact absurd hrows t.rows_ne_nil
    | cons row rows =>
      simp [String.join_cons, String.append_assoc, Function.comp_def, ← String.append_singleton]
end

/-- Without an indent, a tree with quoted words is drawn as it is row by row. -/
theorem drawing_eq_draw (t : Tree) : t.drawing = t.draw Text.quote "" := by
  rw [draw_eq, drawing]
  cases t.rows with
  | nil => rfl
  | cons row rows => simp

/-! ### What can stand behind a drawing -/

/-- A text that has less indent than the lower rows of a drawing: it does not go on behind the
indent. -/
def LessIndented (indent : String) (more : List Char) : Prop :=
  ∀ c, ¬ indent.toList ++ [c] <+: more

theorem lessIndented_nil (indent : String) : LessIndented indent [] := by
  intro c h
  simp at h

section Reading

variable {quoted : Word → String} {indent : String} {more rest : List Char}

theorem toList_draw_leaf_append (category : Symbol) (word : Word) :
    ((leaf category word).draw quoted indent).toList ++ more =
      '─' :: ' ' :: (category.toList ++ ' ' :: ((quoted word).toList ++ '\n' :: more)) := by
  simp [draw]

theorem toList_draw_node_append (head : Symbol) (ts : List Tree) :
    ((node head ts).draw quoted indent).toList ++ more =
      '─' :: ' ' :: (head.toList ++ '\n' :: ((drawAll quoted indent ts).toList ++ more)) := by
  simp [draw]

theorem toList_drawAll_cons_append (t : Tree) (ts : List Tree) :
    (drawAll quoted indent (t :: ts)).toList ++ more =
      indent.toList ++ branch ts.isEmpty ::
        ((t.draw quoted (indent.push (trunk ts.isEmpty))).toList ++
          ((drawAll quoted indent ts).toList ++ more)) := by
  simp [drawAll]

/-- Children can not stand where less indent is needed. -/
theorem LessIndented.ne_drawAll (h : LessIndented indent more) (t : Tree) (ts : List Tree) :
    more ≠ (drawAll quoted indent (t :: ts)).toList ++ rest := by
  rintro rfl
  refine h (branch ts.isEmpty) ?_
  rw [toList_drawAll_cons_append, List.prefix_append_right_inj, List.prefix_cons_inj]
  exact List.nil_prefix

/-- Behind a child stand its siblings, or what stands behind the parent. Both have less indent than
the lower rows of the child. -/
theorem LessIndented.siblings (h : LessIndented indent more) (ts : List Tree) :
    LessIndented (indent.push (trunk ts.isEmpty)) ((drawAll quoted indent ts).toList ++ more) := by
  intro c hprefix
  rw [String.toList_push] at hprefix
  cases ts with
  | nil =>
    -- the text behind the parent does not even go on behind the indent of the parent
    exact h (trunk true) ((List.prefix_append _ _).trans hprefix)
  | cons t ts =>
    -- behind the indent of the parent stands the branch of the next sibling and no trunk
    rw [toList_drawAll_cons_append, List.append_assoc, List.prefix_append_right_inj,
      List.singleton_append, List.isEmpty_cons] at hprefix
    have hne : ∀ b, trunk false ≠ branch b := by decide
    exact hne ts.isEmpty (List.cons_prefix_cons.1 hprefix).1

/-- A label ends at the first blank, which begins a word or ends the row. -/
theorem label_append_injective {label other : Symbol}
    (hlabel : ∀ c ∈ label.toList, Text.isBlank c = false)
    (hother : ∀ c ∈ other.toList, Text.isBlank c = false)
    (hmore : more.head?.any Text.isBlank = true) (hrest : rest.head?.any Text.isBlank = true)
    (h : '─' :: ' ' :: (label.toList ++ more) = '─' :: ' ' :: (other.toList ++ rest)) :
    label = other ∧ more = rest := by
  obtain ⟨hlabels, hends⟩ := Text.append_inj_of_separator hlabel hother hmore hrest
    (List.cons.inj (List.cons.inj h).2).2
  exact ⟨String.toList_inj.1 hlabels, hends⟩

end Reading

/-! ### Reading a drawing -/

/-- A tree whose labels hold no blanks. -/
def LabelsUnblank (t : Tree) : Prop :=
  ∀ label ∈ t.labels, ∀ c ∈ label.toList, Text.isBlank c = false

instance (t : Tree) : Decidable t.LabelsUnblank :=
  @List.decidableBAll _ (fun label : Symbol => ∀ c ∈ label.toList, Text.isBlank c = false)
    (fun label => List.decidableBAll (fun c => Text.isBlank c = false) label.toList) t.labels

theorem labelsUnblank_leaf {category : Symbol} {word : Word} :
    (leaf category word).LabelsUnblank ↔ ∀ c ∈ category.toList, Text.isBlank c = false := by
  simp [LabelsUnblank, mem_labels_leaf]

theorem labelsUnblank_node {head : Symbol} {children : List Tree} :
    (node head children).LabelsUnblank ↔
      (∀ c ∈ head.toList, Text.isBlank c = false) ∧ ∀ t ∈ children, t.LabelsUnblank := by
  simp only [LabelsUnblank, mem_labels_node]
  grind

/-- Quoted words have an end of their own: what begins with one determines the word and where it
ends. -/
def SelfDelimiting (quoted : Word → String) : Prop :=
  ∀ (v w : Word) (more rest : List Char),
    (quoted v).toList ++ more = (quoted w).toList ++ rest → v = w ∧ more = rest

mutual
/-- If quoted words have an end of their own, a drawing in front of a text with less indent
determines the tree and where its drawing ends. -/
theorem draw_append_injective {quoted : Word → String} (hquoted : SelfDelimiting quoted) :
    ∀ (s t : Tree) {indent : String} {more rest : List Char}, s.LabelsUnblank →
    t.LabelsUnblank → LessIndented indent more → LessIndented indent rest →
    (s.draw quoted indent).toList ++ more = (t.draw quoted indent).toList ++ rest →
      s = t ∧ more = rest
  | .leaf category word, .leaf category' word', indent, more, rest => by
    intro hs ht _ _ h
    rw [toList_draw_leaf_append, toList_draw_leaf_append] at h
    obtain ⟨rfl, hwords⟩ := label_append_injective (labelsUnblank_leaf.1 hs)
      (labelsUnblank_leaf.1 ht) rfl rfl h
    obtain ⟨rfl, hends⟩ := hquoted word word' _ _ (List.cons.inj hwords).2
    exact ⟨rfl, (List.cons.inj hends).2⟩
  | .leaf category word, .node head children, indent, more, rest => by
    intro hs ht _ _ h
    rw [toList_draw_leaf_append, toList_draw_node_append] at h
    obtain ⟨-, hends⟩ := label_append_injective (labelsUnblank_leaf.1 hs)
      (labelsUnblank_node.1 ht).1 rfl rfl h
    exact absurd (List.cons.inj hends).1 (by decide)
  | .node head children, .leaf category word, indent, more, rest => by
    intro hs ht _ _ h
    rw [toList_draw_leaf_append, toList_draw_node_append] at h
    obtain ⟨-, hends⟩ := label_append_injective (labelsUnblank_node.1 hs).1
      (labelsUnblank_leaf.1 ht) rfl rfl h
    exact absurd (List.cons.inj hends).1 (by decide)
  | .node head children, .node head' children', indent, more, rest => by
    intro hs ht hmore hrest h
    obtain ⟨hhead, hchildren⟩ := labelsUnblank_node.1 hs
    obtain ⟨hhead', hchildren'⟩ := labelsUnblank_node.1 ht
    rw [toList_draw_node_append, toList_draw_node_append] at h
    obtain ⟨rfl, hbelow⟩ := label_append_injective hhead hhead' rfl rfl h
    obtain ⟨rfl, hends⟩ := drawAll_append_injective hquoted children children' hchildren hchildren'
      hmore hrest (List.cons.inj hbelow).2
    exact ⟨rfl, hends⟩

/-- The children of a node end where the indent does. -/
theorem drawAll_append_injective {quoted : Word → String} (hquoted : SelfDelimiting quoted) :
    ∀ (ss ts : List Tree) {indent : String} {more rest : List Char},
    (∀ s ∈ ss, s.LabelsUnblank) → (∀ t ∈ ts, t.LabelsUnblank) →
    LessIndented indent more → LessIndented indent rest →
    (drawAll quoted indent ss).toList ++ more = (drawAll quoted indent ts).toList ++ rest →
      ss = ts ∧ more = rest
  | [], [], indent, more, rest => fun _ _ _ _ h => ⟨rfl, h⟩
  | [], t :: ts, indent, more, rest => fun _ _ hmore _ h => absurd h (hmore.ne_drawAll t ts)
  | s :: ss, [], indent, more, rest => fun _ _ _ hrest h =>
    absurd h.symm (hrest.ne_drawAll s ss)
  | s :: ss, t :: ts, indent, more, rest => by
    intro hforest hforest' hmore hrest h
    obtain ⟨hs, hss⟩ := List.forall_mem_cons.1 hforest
    obtain ⟨ht, hts⟩ := List.forall_mem_cons.1 hforest'
    rw [toList_drawAll_cons_append, toList_drawAll_cons_append] at h
    obtain ⟨hbranch, hchild⟩ := List.cons.inj (List.append_cancel_left h)
    -- the branches say whether siblings follow, and so the trunks are the same
    have hmore' : LessIndented (indent.push (trunk ss.isEmpty))
        ((drawAll quoted indent ss).toList ++ more) := hmore.siblings ss
    have hrest' : LessIndented (indent.push (trunk ss.isEmpty))
        ((drawAll quoted indent ts).toList ++ rest) :=
      branch_injective hbranch ▸ hrest.siblings ts
    rw [← branch_injective hbranch] at hchild
    obtain ⟨rfl, hsiblings⟩ := draw_append_injective hquoted s t hs ht hmore' hrest' hchild
    obtain ⟨rfl, hends⟩ := drawAll_append_injective hquoted ss ts hss hts hmore hrest hsiblings
    exact ⟨rfl, hends⟩
end

/-- The drawing of a tree whose labels hold no blanks determines the tree, whatever its words are.
This remains so if quoting hides any other characters besides quotes and backslashes; the drawing
itself hides those without a shape. -/
theorem drawing_injective :
    (∀ s t : Tree, s.LabelsUnblank → t.LabelsUnblank → s.drawing = t.drawing → s = t) ∧
      (∀ (hidden : Char → Bool) (s t : Tree), s.LabelsUnblank → t.LabelsUnblank →
        s.draw (Text.quoteWith hidden) "" = t.draw (Text.quoteWith hidden) "" → s = t) ∧
      ∀ t : Tree, t.drawing = t.draw (Text.quoteWith Text.isShapeless) "" := by
  have hinjective : ∀ (hidden : Char → Bool) (s t : Tree), s.LabelsUnblank → t.LabelsUnblank →
      s.draw (Text.quoteWith hidden) "" = t.draw (Text.quoteWith hidden) "" → s = t := by
    intro hidden s t hs ht h
    have hquoted : SelfDelimiting (Text.quoteWith hidden) := fun _ _ _ _ heq =>
      Text.quoteWith_append_injective hidden heq
    exact (draw_append_injective hquoted s t hs ht (lessIndented_nil "") (lessIndented_nil "")
      (by rw [h])).1
  have hdrawing : ∀ t : Tree, t.drawing = t.draw (Text.quoteWith Text.isShapeless) "" := by
    intro t
    rw [drawing_eq_draw, Text.quote_eq_quoteWith]
  refine ⟨?_, hinjective, hdrawing⟩
  intro s t hs ht h
  rw [hdrawing, hdrawing] at h
  exact hinjective Text.isShapeless s t hs ht h

/-- A tree with strokes as labels and a word that looks like the end of a row. -/
def strokes : Tree := node "S" [node "├─" [node "╰" []], leaf "│" "b\"\n├─ A"]

theorem drawing_injective_strokes :
    strokes.drawing ≠ (node "S" [node "├─" [], node "╰" [], leaf "│" "b\"\n├─ A"]).drawing ∧
      strokes.draw (Text.quoteWith fun _ => false) "" ≠
        (node "S" [node "├─" [node "╰" []], leaf "│" "b", node "A" []]).draw
          (Text.quoteWith fun _ => false) "" ∧
      strokes = node "S" [node "├─" (["╰"].map (node · [])), leaf "│" "b\"\n├─ A"] := by
  obtain ⟨hdrawing, hhidden, -⟩ := drawing_injective
  refine ⟨?_, ?_, ?_⟩
  · intro h
    exact absurd (hdrawing strokes _ (by decide) (by decide) h) (by decide)
  · intro h
    exact absurd (hhidden (fun _ => false) strokes _ (by decide) (by decide) h) (by decide)
  · exact hdrawing strokes _ (by decide) (by decide) rfl

end NaturalLanguage.Tree
