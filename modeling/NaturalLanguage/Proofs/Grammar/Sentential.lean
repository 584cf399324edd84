import Mathlib.Logic.Relation
import NaturalLanguage.Grammar.Derivation

/-!
# Sentential forms

A sentential form is a sequence of words and of symbols that are still to be rewritten. A symbol is
rewritten into one of its alternatives, or into a word that is accepted for it. Any symbol without
rules and words stands for itself, so the steps are not those of a `ContextFreeGrammar`, which has
finitely many rules.

* `Rewrites`, `Yields`: one step, and any number of steps.
* `Yields.append`: forms that stand side by side are rewritten independently.
* `yields_leaves`: the label of a derivation tree yields the leaves of the tree.
* `Yields.not_mem`: a symbol that no alternative mentions does not appear.
-/

namespace NaturalLanguage.Grammar

/-- One item of a sentential form. -/
inductive FormItem where
  | word (word : Word)
  | symbol (sym : Symbol)

/-- The form in which all symbols of a list are still to be rewritten. -/
def symbolForm (syms : List Symbol) : List FormItem := syms.map .symbol

/-- The form of a sentence. -/
def wordForm (words : List Word) : List FormItem := words.map .word

/-- One symbol of a form is rewritten. -/
inductive Rewrites (g : Grammar) : List FormItem → List FormItem → Prop
  | rule {head : Symbol} {body : List Symbol} (before after : List FormItem) :
      body ∈ g.alternativesOf head →
      Rewrites g (before ++ .symbol head :: after) (before ++ (symbolForm body ++ after))
  | word {sym : Symbol} {word : Word} (before after : List FormItem) : g.accepts sym word = true →
      Rewrites g (before ++ .symbol sym :: after) (before ++ .word word :: after)

/-- A form is rewritten any number of times. -/
def Yields (g : Grammar) : List FormItem → List FormItem → Prop :=
  Relation.ReflTransGen (Rewrites g)

variable {g : Grammar} {form form' other other' : List FormItem} {sym : Symbol}

@[simp] theorem symbolForm_cons (sym : Symbol) (syms : List Symbol) :
    symbolForm (sym :: syms) = .symbol sym :: symbolForm syms := rfl

@[simp] theorem symbolForm_append (syms more : List Symbol) :
    symbolForm (syms ++ more) = symbolForm syms ++ symbolForm more :=
  List.map_append

@[simp] theorem wordForm_append (words more : List Word) :
    wordForm (words ++ more) = wordForm words ++ wordForm more :=
  List.map_append

/-! ### Forms side by side -/

theorem Rewrites.append_left (h : Rewrites g form form') (left : List FormItem) :
    Rewrites g (left ++ form) (left ++ form') := by
  cases h with
  | rule before after hbody =>
    rw [← List.append_assoc, ← List.append_assoc]
    exact .rule (left ++ before) after hbody
  | word before after haccepts =>
    rw [← List.append_assoc, ← List.append_assoc]
    exact .word (left ++ before) after haccepts

theorem Rewrites.append_right (h : Rewrites g form form') (right : List FormItem) :
    Rewrites g (form ++ right) (form' ++ right) := by
  cases h with
  | rule before after hbody =>
    rw [List.append_assoc, List.append_assoc, List.append_assoc]
    exact .rule before (after ++ right) hbody
  | word before after haccepts =>
    rw [List.append_assoc, List.append_assoc]
    exact .word before (after ++ right) haccepts

namespace Yields

theorem trans (h : Yields g form form') (h' : Yields g form' other) : Yields g form other :=
  Relation.ReflTransGen.trans h h'

/-- Forms that stand side by side are rewritten independently. -/
theorem append (h : Yields g form form') (hother : Yields g other other') :
    Yields g (form ++ other) (form' ++ other') := by
  have hleft : Yields g (form ++ other) (form' ++ other) := by
    induction h with
    | refl => exact .refl
    | tail _ hstep ih => exact ih.tail (hstep.append_right other)
  have hright : Yields g (form' ++ other) (form' ++ other') := by
    induction hother with
    | refl => exact .refl
    | tail _ hstep ih => exact ih.tail (hstep.append_left form')
  exact hleft.trans hright

/-- A symbol that is not in a form, and that no alternative mentions, does not appear in what the
form yields. -/
theorem not_mem (h : Yields g form form') (hunused : ∀ head, ∀ body ∈ g.alternativesOf head,
    sym ∉ body) (hform : .symbol sym ∉ form) : .symbol sym ∉ form' := by
  induction h with
  | refl => exact hform
  | tail _ hstep ih =>
    cases hstep with
    | @rule head body before after hbody =>
      -- only the symbols of an alternative are new
      simp only [List.mem_append, List.mem_cons, not_or] at ih ⊢
      refine ⟨ih.1, ?_, ih.2.2⟩
      intro hmem
      obtain ⟨part, hpart, ⟨⟩⟩ := List.mem_map.1 hmem
      exact hunused head body hbody hpart
    | word before after haccepts =>
      simp only [List.mem_append, List.mem_cons, not_or] at ih ⊢
      exact ⟨ih.1, nofun, ih.2.2⟩

end Yields

theorem yields_body {head : Symbol} {body : List Symbol} (h : body ∈ g.alternativesOf head) :
    Yields g (symbolForm [head]) (symbolForm body) := by
  have hstep := Rewrites.rule [] [] h
  rw [List.nil_append, List.nil_append, List.append_nil] at hstep
  exact .single hstep

/-! ### Derivation trees -/

/-- If every tree of a list has a label that yields its leaves, the labels of the list yield all the
leaves. -/
theorem yields_leaves_of_forall {ts : List Tree}
    (h : ∀ t ∈ ts, Yields g (symbolForm [t.label]) (wordForm t.leaves)) :
    Yields g (symbolForm (ts.map Tree.label)) (wordForm (Tree.leavesAll ts)) := by
  induction ts with
  | nil => exact .refl
  | cons t ts ih =>
    obtain ⟨ht, hts⟩ := List.forall_mem_cons.1 h
    have happend := ht.append (ih hts)
    rw [← symbolForm_append, ← wordForm_append] at happend
    exact happend

/-- The label of a derivation tree yields the leaves of the tree. -/
theorem yields_leaves {t : Tree} (h : g.derives t = true) :
    Yields g (symbolForm [t.label]) (wordForm t.leaves) := by
  induction t using Tree.induction with
  | leaf category word => exact .single (.word [] [] h)
  | node head children ih =>
    obtain ⟨hbody, hchildren⟩ := derives_node.1 h
    have hleaves := yields_leaves_of_forall fun t ht => ih t ht (hchildren t ht)
    rw [Tree.leaves]
    exact (yields_body hbody).trans hleaves

end NaturalLanguage.Grammar
