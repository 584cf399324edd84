import NaturalLanguage.Proofs.Chart.Moments
import NaturalLanguage.Proofs.Chart.Termination
import NaturalLanguage.Proofs.Grammar.Sentential

/-!
# Every edge is asked for by the words before it

An edge knows its own span only. That its head is possible after the words before the span follows
from the edges that led to it: the start symbol yields these words followed by the body of the edge
and by what is still expected around it, and every prediction continues this sentential form.

* `Derivable.exists_yields_body`: the start symbol yields the words before a derivable edge followed
  by the body of the edge.
* `Justified`, `Derivable.justified`: the same for the head, if it is not the head of the seed.
* `edges_justified`: at every moment of a parse the stored edges are justified, and symbols that
  cannot begin a sentential form have no parses.
-/

namespace NaturalLanguage.Chart

open Edge Grammar

variable {g : Grammar} {words : List Word} {start : Symbol} {e : Edge}

/-! ### The form around an edge -/

/-- The words that a derivable edge has found are yielded by the symbols of its body that it has
found. -/
theorem Derivable.yields_found (hseed : SeedUnused g) (hstart : start ≠ Run.seedHead)
    (h : Derivable g words start e) :
    Yields g (symbolForm (e.found.map labelOf)) (wordForm e.leaves) := by
  have hlabels : (e.found.map treeFound).map Tree.label = e.found.map labelOf := by
    simp
  have hleaves : Tree.leavesAll (e.found.map treeFound) = e.leaves := by
    rw [← leaves_tree, tree_eq, Tree.leaves]
  rw [← hlabels, ← hleaves]
  apply yields_leaves_of_forall
  intro t ht
  exact yields_leaves (h.of_mem_trees hseed hstart ht).1

/-- If the start symbol yields the words before an edge followed by the body of the edge, it yields
the words up to the stop of the edge followed by the symbols that the edge expects. -/
theorem Derivable.yields_expects (hseed : SeedUnused g) (hstart : start ≠ Run.seedHead)
    (h : Derivable g words start e) {rest : List Symbol}
    (hbody : Yields g (symbolForm [start]) (wordForm (words.take e.start) ++
      symbolForm (e.found.map labelOf ++ e.expects ++ rest))) :
    Yields g (symbolForm [start])
      (wordForm (words.take e.stop) ++ symbolForm (e.expects ++ rest)) := by
  refine hbody.trans ?_
  rw [h.take_stop, wordForm_append, List.append_assoc (e.found.map labelOf), symbolForm_append,
    List.append_assoc]
  have hfound := (h.yields_found hseed hstart).append (.refl (a := symbolForm (e.expects ++ rest)))
  exact Yields.append .refl hfound

/-- The start symbol yields the words before a derivable edge, followed by the body of the edge and
some other symbols. -/
theorem Derivable.exists_yields_body (hseed : SeedUnused g) (hstart : start ≠ Run.seedHead)
    (h : Derivable g words start e) :
    ∃ rest, Yields g (symbolForm [start]) (wordForm (words.take e.start) ++
      symbolForm (e.found.map labelOf ++ e.expects ++ rest)) := by
  induction h with
  | seed => exact ⟨[], .refl⟩
  | @predict e sym body h hnext hbody ih =>
    obtain ⟨rest, hrest⟩ := ih
    obtain ⟨expected, hexpected⟩ := next?_eq_some_iff.1 hnext
    have hyields := h.yields_expects hseed hstart hrest
    refine ⟨expected ++ rest, hyields.trans (Yields.append .refl ?_)⟩
    -- the expected symbol is rewritten, what follows it stays
    have happend := (yields_body hbody).append (.refl (a := symbolForm (expected ++ rest)))
    rw [← symbolForm_append, ← symbolForm_append] at happend
    rw [hexpected]
    exact happend
  | scan _ hnext _ _ ih =>
    obtain ⟨rest, hrest⟩ := ih
    refine ⟨rest, ?_⟩
    rw [labels_advance hnext]
    exact hrest
  | complete _ _ _ _ hnext ih _ =>
    obtain ⟨rest, hrest⟩ := ih
    refine ⟨rest, ?_⟩
    rw [labels_advance hnext]
    exact hrest

/-! ### Justified edges -/

/-- The start symbol yields the words before an edge followed by the head of the edge and some
other symbols. -/
def Justified (g : Grammar) (words : List Word) (start : Symbol) (e : Edge) : Prop :=
  ∃ rest, Yields g (symbolForm [start])
    (wordForm (words.take e.start) ++ symbolForm (e.head :: rest))

/-- A derivable edge is justified, unless its head is the head of the seed. -/
theorem Derivable.justified (hseed : SeedUnused g) (hstart : start ≠ Run.seedHead)
    (h : Derivable g words start e) (hhead : e.head ≠ Run.seedHead) :
    Justified g words start e := by
  induction h with
  | seed => exact absurd rfl hhead
  | @predict e sym body h hnext _ _ =>
    obtain ⟨rest, hrest⟩ := h.exists_yields_body hseed hstart
    obtain ⟨expected, hexpected⟩ := next?_eq_some_iff.1 hnext
    have hyields := h.yields_expects hseed hstart hrest
    rw [hexpected] at hyields
    exact ⟨expected ++ rest, hyields⟩
  -- an advance changes neither the start nor the head
  | scan _ _ _ _ ih => exact ih hhead
  | complete _ _ _ _ _ ih _ => exact ih hhead

/-- Suppose that no rule mentions the head of the seed, and that the start symbol is another one.
At every moment of a parse, be it one that ends or not, every stored edge is justified unless its
head is the head of the seed. If a parse ends, no other symbol has parses over the whole sentence
unless the start symbol yields a form that begins with it. -/
theorem edges_justified {g : Grammar} {start : Symbol} (hseed : SeedUnused g)
    (hstart : start ≠ Run.seedHead) (words : List Word) :
    (∀ m : Moment, m.Passes g words start → ∀ e, m.run.chart.contains e = true →
      e.head ≠ Run.seedHead → Justified g words start e) ∧
    ∀ limit run, Run.parseWithin limit g words start = .ok run →
      Moment.Passes g words start ⟨words.length, run, [], none⟩ ∧
      ∀ sym, sym ≠ Run.seedHead →
        (∀ rest, ¬ Yields g (symbolForm [start]) (symbolForm (sym :: rest))) →
        run.chart.completeParses sym = [] := by
  have hjustified : ∀ m : Moment, m.Passes g words start → ∀ e, m.run.chart.contains e = true →
      e.head ≠ Run.seedHead → Justified g words start e := by
    intro m hm e hstored hhead
    exact (hm.sound.supported hstored).derivable.justified hseed hstart hhead
  refine ⟨hjustified, ?_⟩
  intro limit run hparse
  have hpasses := (Moment.passes_of_parseWithin hparse).1
  refine ⟨hpasses, ?_⟩
  intro sym hsym hnone
  rw [List.eq_nil_iff_forall_not_mem]
  intro e he
  have hsound := hpasses.sound
  obtain ⟨hstored, -, hbegin, rfl, -⟩ :=
    (Chart.mem_completeParses_iff hsound.aligned hsound.size).1 he
  obtain ⟨rest, hrest⟩ := hjustified _ hpasses e hstored hsym
  -- nothing stands before an edge that begins with the sentence
  rw [hbegin] at hrest
  exact hnone rest hrest

/-- A grammar in which no other symbol asks for `B`, although `B` derives the same word as `S`. -/
def unasked : Grammar :=
  [.rule "S" ["a"], .rule "B" ["a"]].foldl Grammar.insert (.empty "unasked")

theorem not_mem_unasked {sym : Symbol} (hsym : sym ≠ "a") :
    ∀ head, ∀ body ∈ unasked.alternativesOf head, sym ∉ body := by
  intro head body hbody
  have hrules : unasked.ruleList = [("S", ["a"]), ("B", ["a"])] := by decide
  rw [← mem_ruleList_iff, hrules] at hbody
  simp only [List.mem_cons, Prod.mk.injEq, List.not_mem_nil, or_false] at hbody
  rcases hbody with ⟨-, rfl⟩ | ⟨-, rfl⟩ <;> exact fun hmem => hsym (List.mem_singleton.1 hmem)

theorem not_yields_unasked {sym : Symbol} (ha : sym ≠ "a") (hS : sym ≠ "S")
    (form : List FormItem) : ¬ Yields unasked (symbolForm ["S"]) (.symbol sym :: form) := by
  intro hyields
  have hform : FormItem.symbol sym ∉ symbolForm ["S"] := fun hmem =>
    hS (FormItem.symbol.inj (List.mem_singleton.1 hmem))
  exact hyields.not_mem (not_mem_unasked ha) hform List.mem_cons_self

theorem parseWithin_unasked : ∃ run, Run.parseWithin 8 unasked ["a"] "S" = .ok run ∧
    (run.chart.completeParses "S").length = 1 ∧
    (run.chart.completeParses Run.seedHead).length = 1 := by
  have hparses : ((Run.parseWithin 8 unasked ["a"] "S").map fun run =>
      ((run.chart.completeParses "S").length,
        (run.chart.completeParses Run.seedHead).length)).toOption = some (1, 1) := by
    decide +kernel
  obtain ⟨run, hparse, hlengths⟩ := Run.exists_of_toOption_map hparses
  exact ⟨run, hparse, Prod.mk.inj hlengths⟩

theorem edges_justified_unasked :
    (SeedUnused unasked ∧ "S" ≠ Run.seedHead) ∧
      ∃ run, Run.parseWithin 8 unasked ["a"] "S" = .ok run ∧
        Moment.Passes unasked ["a"] "S" ⟨1, run, [], none⟩ ∧
        (∀ e, run.chart.contains e = true → e.head ≠ Run.seedHead →
          Justified unasked ["a"] "S" e) ∧
        "B" ≠ Run.seedHead ∧
        (∀ rest, ¬ Yields unasked (symbolForm ["S"]) (symbolForm ("B" :: rest))) ∧
        run.chart.completeParses "B" = [] ∧ run.chart.completeParses "S" ≠ [] := by
  have hseed : SeedUnused unasked := not_mem_unasked (by decide)
  have hstart : "S" ≠ Run.seedHead := by decide
  have hB : "B" ≠ Run.seedHead := by decide
  have hnone : ∀ rest, ¬ Yields unasked (symbolForm ["S"]) (symbolForm ("B" :: rest)) :=
    fun rest => not_yields_unasked (by decide) (by decide) (symbolForm rest)
  obtain ⟨run, hparse, hS, -⟩ := parseWithin_unasked
  obtain ⟨hmoments, hruns⟩ := edges_justified hseed hstart ["a"]
  obtain ⟨hpasses, hempty⟩ := hruns 8 run hparse
  exact ⟨⟨hseed, hstart⟩, run, hparse, hpasses, hmoments _ hpasses, hB, hnone,
    hempty "B" hB hnone, List.ne_nil_of_length_eq_add_one hS⟩

/-- The seed itself is finished over the whole sentence, although its head is in no sentential
form. -/
theorem unasked_parses_seed :
    (SeedUnused unasked ∧ "S" ≠ Run.seedHead) ∧
      (∀ form, ¬ Yields unasked (symbolForm ["S"]) (.symbol Run.seedHead :: form)) ∧
      ∃ run, Run.parseWithin 8 unasked ["a"] "S" = .ok run ∧
        run.chart.completeParses Run.seedHead ≠ [] := by
  obtain ⟨run, hparse, -, hseed⟩ := parseWithin_unasked
  refine ⟨⟨not_mem_unasked (by decide), by decide⟩, ?_, run, hparse, ?_⟩
  · exact not_yields_unasked (by decide) (by decide)
  · exact List.ne_nil_of_length_eq_add_one hseed

end NaturalLanguage.Chart
