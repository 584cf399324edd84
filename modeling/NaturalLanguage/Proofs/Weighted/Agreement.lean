import NaturalLanguage.Proofs.Chart.Termination
import NaturalLanguage.Proofs.Weighted.Optimal

/-!
# The two parsers agree

The entries of a probabilistic grammar also build a grammar without probabilities, and a chart for
it finds the same derivation trees as the table of best derivations ranges over. The two ways to
parse differ for symbols that no entry defines: a chart takes them for words that are spelled like
them, the table does not. So no word of the sentence may be spelled like such a symbol. A sentence
has two words at least, because a chart looks for rules only, and the table takes single words from
the lexicon.

* `WeightedGrammar.Unweights.derives_iff`: the derivation trees of the two grammars.
* `WeightedGrammar.Unweights.not_cyclic`: a chart for such a grammar is filled in the end.
* `Chart.isParse_iff_derivesSpan`: the parses of a sentence.
* `Chart.trees_exact_best`: the trees of the chart, and the best of them in the table.
-/

namespace NaturalLanguage

open Chart

namespace WeightedGrammar

variable {W : Type} {g : WeightedGrammar W} {plain : Grammar} {words : List Word}

/-- Symbols in rules that are neither heads nor parts of speech are not spelled like any of the
words. -/
def LiteralsUnused (g : WeightedGrammar W) (words : List Word) : Prop :=
  ∀ rule ∈ g.rules, ∀ sym ∈ [rule.left, rule.right],
    (∀ other ∈ g.rules, other.head ≠ sym) → (∀ entry ∈ g.lexicon, entry.category ≠ sym) →
      sym ∉ words

/-- No rule mentions the head of the seed. -/
def SeedUnused (g : WeightedGrammar W) : Prop :=
  ∀ rule ∈ g.rules, Run.seedHead ∉ [rule.left, rule.right]

instance : Decidable (g.LiteralsUnused words) :=
  inferInstanceAs (Decidable (∀ rule ∈ g.rules, ∀ sym ∈ [rule.left, rule.right],
    (∀ other ∈ g.rules, other.head ≠ sym) → (∀ entry ∈ g.lexicon, entry.category ≠ sym) →
      sym ∉ words))

instance : Decidable g.SeedUnused :=
  inferInstanceAs (Decidable (∀ rule ∈ g.rules, Run.seedHead ∉ [rule.left, rule.right]))

namespace Unweights

/-- Only the words of the lexicon are accepted where a rule expects a symbol. -/
theorem accepts_iff (h : g.Unweights plain) (hliterals : g.LiteralsUnused words)
    {rule : BinaryRule W} (hrule : rule ∈ g.rules) {sym : Symbol}
    (hsym : sym ∈ [rule.left, rule.right]) {word : Word} (hword : word ∈ words) :
    plain.accepts sym word = true ↔ ∃ weight, ⟨sym, word, weight⟩ ∈ g.lexicon := by
  rw [Grammar.accepts, Bool.or_eq_true, Grammar.isA_iff, h.mem_wordsOf]
  refine or_iff_left ?_
  intro hliteral
  rw [Bool.and_eq_true, Grammar.isLiteral, Bool.and_eq_true, Bool.not_eq_true', Bool.not_eq_true',
    beq_iff_eq] at hliteral
  obtain ⟨⟨hnonterminal, hcategory⟩, rfl⟩ := hliteral
  rw [← Bool.not_eq_true, h.isNonterminal] at hnonterminal
  rw [← Bool.not_eq_true, h.isCategory] at hcategory
  exact hliterals rule hrule sym hsym (fun other hother heq => hnonterminal ⟨other, hother, heq⟩)
    (fun entry hentry heq => hcategory ⟨entry, hentry, heq⟩) hword

/-- A tree over words of the sentence is a derivation tree of both grammars or of neither, if it is
a node or stands where a rule expects it. -/
theorem derives_iff (h : g.Unweights plain) (hliterals : g.LiteralsUnused words) {t : Tree}
    (hleaves : t.leaves ⊆ words)
    (hplace : (∃ head children, t = .node head children) ∨
      ∃ rule ∈ g.rules, t.label ∈ [rule.left, rule.right]) :
    plain.derives t = true ↔ g.Derives t := by
  induction t using Tree.induction with
  | leaf category word =>
    obtain ⟨rule, hrule, hlabel⟩ : ∃ rule ∈ g.rules, category ∈ [rule.left, rule.right] :=
      hplace.resolve_left (by rintro ⟨_, _, ⟨⟩⟩)
    have hword : word ∈ words := hleaves List.mem_cons_self
    -- where a rule expects it, a leaf is accepted through the lexicon only
    rw [Grammar.derives_leaf, h.accepts_iff hliterals hrule hlabel hword]
    constructor
    · rintro ⟨weight, hentry⟩
      exact .leaf hentry
    · rintro ⟨hentry⟩
      exact ⟨_, hentry⟩
  | node head children ih =>
    have hchild : ∀ child ∈ children, child.leaves ⊆ words := fun child hmem word hword =>
      hleaves (by rw [Tree.leaves_node]; exact List.mem_flatMap.2 ⟨child, hmem, hword⟩)
    rw [Grammar.derives_node, h.mem_alternativesOf]
    constructor
    · -- the labels of the children are the two symbols of a rule, so there are two children
      rintro ⟨⟨⟨_, left, right, weight⟩, hrule, rfl, hlabels⟩, hchildren⟩
      obtain ⟨first, others, rfl, rfl, hlabels⟩ := List.map_eq_cons_iff.1 hlabels
      obtain ⟨second, rest, rfl, rfl, hnil⟩ := List.map_eq_cons_iff.1 hlabels
      obtain rfl := List.map_eq_nil_iff.1 hnil
      rw [List.forall_mem_cons, List.forall_mem_singleton] at hchildren
      have hfirst := ih first (by simp) (hchild first (by simp)) (.inr ⟨_, hrule, by simp⟩)
      have hsecond := ih second (by simp) (hchild second (by simp)) (.inr ⟨_, hrule, by simp⟩)
      exact .node hrule (hfirst.1 hchildren.1) (hsecond.1 hchildren.2)
    · intro hderives
      cases hderives with
      | @node _ first second weight hrule hfirst hsecond =>
        refine ⟨⟨_, hrule, rfl, rfl⟩, ?_⟩
        rw [List.forall_mem_cons, List.forall_mem_singleton]
        exact ⟨(ih first (by simp) (hchild first (by simp)) (.inr ⟨_, hrule, by simp⟩)).2 hfirst,
          (ih second (by simp) (hchild second (by simp)) (.inr ⟨_, hrule, by simp⟩)).2 hsecond⟩

/-- All symbols have words. -/
theorem not_nullable (h : g.Unweights plain) (sym : Symbol) : ¬ plain.Nullable sym := by
  intro hnullable
  induction hnullable with
  | intro hbody _ ih =>
    obtain ⟨rule, -, -, rfl⟩ := h.mem_alternativesOf.1 hbody
    exact ih rule.left List.mem_cons_self

/-- No part has all the words of a constituent. -/
theorem not_cyclic (h : g.Unweights plain) : ¬ plain.Cyclic := by
  -- any rank will do, because the other symbol of a rule would have to be without words
  refine Grammar.not_cyclic_of_rank (fun _ => 0) ?_
  rintro head part ⟨-, before, after, hbody, hother⟩
  obtain ⟨rule, -, -, hlabels⟩ := h.mem_alternativesOf.1 hbody
  have hlength : (before ++ after).length = 1 := by
    have := congrArg List.length hlabels
    simp only [List.length_append, List.length_cons, List.length_nil] at this ⊢
    omega
  obtain ⟨other, hmem⟩ := List.exists_mem_of_length_pos (by omega : 0 < (before ++ after).length)
  exact absurd (hother other hmem) (h.not_nullable other)

theorem seedUnused (h : g.Unweights plain) (hseed : g.SeedUnused) : Chart.SeedUnused plain := by
  intro head body hbody
  obtain ⟨rule, hrule, -, rfl⟩ := h.mem_alternativesOf.1 hbody
  exact hseed rule hrule

end Unweights

end WeightedGrammar

namespace Chart

open BestTable

variable {W : Type} {g : WeightedGrammar W} {plain : Grammar} {words : List Word} {start : Symbol}

/-- The parses of a sentence are the derivation trees that the table ranges over. -/
theorem isParse_iff_derivesSpan (h : g.Unweights plain) (hwords : 2 ≤ words.length)
    (hliterals : g.LiteralsUnused words) (hseed : g.SeedUnused) (hstart : start ≠ Run.seedHead)
    {t : Tree} :
    IsParse plain words start t ↔ g.DerivesSpan words start 0 words.length t := by
  rw [isParse_iff (h.seedUnused hseed) hstart]
  constructor
  · rintro ⟨⟨children, rfl⟩, hleaves, hderives⟩
    refine ⟨(h.derives_iff hliterals ?_ (.inl ⟨_, _, rfl⟩)).1 hderives, rfl, by omega, ?_⟩
    · rw [hleaves]
      exact List.Subset.refl _
    · rw [hleaves, List.drop_zero, List.take_length]
  · intro hspan
    have hleaves : t.leaves = words := by
      rw [hspan.leaves, List.drop_zero, List.take_length]
    rcases hspan.cases with
      ⟨hone, -⟩ | ⟨size, left, right, weight, first, second, -, -, -, -, -, rfl⟩
    · omega
    · refine ⟨⟨_, rfl⟩, hleaves, (h.derives_iff hliterals ?_ (.inl ⟨_, _, rfl⟩)).2 hspan.derives⟩
      rw [hleaves]
      exact List.Subset.refl _

/-- Some number of dispatches suffices to parse any sentence with the grammar without weights. -/
theorem exists_parseWithin_ne (h : g.Unweights plain) (hseed : g.SeedUnused)
    (hstart : start ≠ Run.seedHead) (words : List Word) :
    ∃ least, ∀ limit ≥ least, Run.parseWithin limit plain words start ≠ .error .limitReached := by
  obtain ⟨least, hclose⟩ :=
    Run.exists_closeWithin_ne h.not_cyclic (h.seedUnused hseed) hstart words
  exact ⟨least, fun limit hlimit => Run.parseWithin_ne (hclose limit hlimit)⟩

/-- The entries of a built probabilistic grammar build a grammar without probabilities, and parsing
with it ends. Let a sentence have two words at least, no word that is spelled like a symbol of a
rule that is neither a head nor a part of speech, and let the head of the seed be neither the start
symbol nor in the body of a rule. Then the trees of the parses, each found once, are exactly the
derivation trees of the start symbol over the sentence. The best weight in the table is the greatest
one of these trees, up to the sign of zero, or zero if there are none, and the best tree, if there
is one, is one of them and has exactly this weight. -/
theorem trees_exact_best {top : Symbol} {entries : List WeightedGrammar.Entry}
    {g : WeightedGrammar Float} (h : WeightedGrammar.ofEntries top entries = .ok g)
    (hwords : 2 ≤ words.length) (hliterals : g.LiteralsUnused words) (hseed : g.SeedUnused)
    (hstart : start ≠ Run.seedHead) (name : String) :
    ∃ plain, Grammar.ofEntries name (entries.map WeightedGrammar.Entry.unweighted) = .ok plain ∧
      ∃ least, ∀ limit ≥ least, ∃ run, Run.parseWithin limit plain words start = .ok run ∧
        run.agenda = [] ∧
        let trees := (run.chart.completeParses start).map Edge.tree
        let t := ofWords g words
        trees.Nodup ∧
        (∀ tree, tree ∈ trees ↔ g.DerivesSpan words start 0 words.length tree) ∧
        (∀ tree ∈ trees, ∃ w, g.treeWeight tree = some w ∧ w ≤ t.best start) ∧
        ((∃ tree ∈ trees, ∃ w, g.treeWeight tree = some w ∧ (w == t.best start) = true) ∨
          trees = [] ∧ t.best start = 0) ∧
        ∀ tree, t.bestTree? start = some tree →
          tree ∈ trees ∧ g.treeWeight tree = some (t.best start) := by
  have hg := WeightedGrammar.bounded_of_ofEntries h
  obtain ⟨plain, hplain, hunweights⟩ := WeightedGrammar.exists_unweighted h name
  obtain ⟨least, hleast⟩ := exists_parseWithin_ne hunweights hseed hstart words
  refine ⟨plain, hplain, least, fun limit hlimit => ?_⟩
  obtain ⟨run, hparse, hreachable, hagenda⟩ := Run.exists_of_parseWithin (hleast limit hlimit)
  have htrees : ∀ tree, tree ∈ (run.chart.completeParses start).map Edge.tree ↔
      g.DerivesSpan words start 0 words.length tree := fun tree =>
    (hreachable.mem_trees_iff hagenda).trans
      (isParse_iff_derivesSpan hunweights hwords hliterals hseed hstart)
  refine ⟨run, hparse, hagenda, hreachable.nodup_trees hagenda, htrees, ?_, ?_, ?_⟩
  · intro tree htree
    exact exists_treeWeight_le hg ((htrees tree).1 htree)
  · rcases exists_treeWeight_beq hg words start 0 words.length with
      ⟨tree, w, htree, hw, hbeq⟩ | ⟨hnone, hzero⟩
    · exact .inl ⟨tree, (htrees tree).2 htree, w, hw, hbeq⟩
    · refine .inr ⟨List.eq_nil_iff_forall_not_mem.2 fun tree htree => ?_, hzero⟩
      exact hnone tree ((htrees tree).1 htree)
  · intro tree htree
    obtain ⟨hderives, hweight, -⟩ := derivesSpan_of_tree? hg htree
    exact ⟨(htrees tree).2 hderives, hweight⟩

theorem trees_exact_best_tied :
    (WeightedGrammar.ofEntries "S" (tiedItems.map WeightedGrammar.Item.entry) = .ok tied ∧
        2 ≤ ["a", "a", "a"].length ∧ tied.LiteralsUnused ["a", "a", "a"] ∧ tied.SeedUnused ∧
        "S" ≠ Run.seedHead) ∧
      ∃ plain, Grammar.ofEntries "tied" ((tiedItems.map WeightedGrammar.Item.entry).map
          WeightedGrammar.Entry.unweighted) = .ok plain ∧
        ∃ least, ∀ limit ≥ least, ∃ run,
          Run.parseWithin limit plain ["a", "a", "a"] "S" = .ok run ∧ run.agenda = [] ∧
          let trees := (run.chart.completeParses "S").map Edge.tree
          let t := ofWords tied ["a", "a", "a"]
          (∀ tree, tree ∈ trees ↔ tied.DerivesSpan ["a", "a", "a"] "S" 0 3 tree) ∧
            ∃ tree ∈ trees, t.bestTree? "S" = some tree ∧
              tied.treeWeight tree = some (t.best "S") := by
  have hliterals : tied.LiteralsUnused ["a", "a", "a"] := by decide +kernel
  have hseed : tied.SeedUnused := by decide +kernel
  have hstart : "S" ≠ Run.seedHead := by decide
  have hbest : ((ofWords tied ["a", "a", "a"]).bestTree? "S").isSome = true := by decide +kernel
  obtain ⟨tree, htree⟩ := Option.isSome_iff_exists.1 hbest
  refine ⟨⟨ofEntries_tied, by decide, hliterals, hseed, hstart⟩, ?_⟩
  obtain ⟨plain, hplain, least, hleast⟩ :=
    trees_exact_best ofEntries_tied (by decide) hliterals hseed hstart "tied"
  refine ⟨plain, hplain, least, fun limit hlimit => ?_⟩
  obtain ⟨run, hparse, hagenda, -, htrees, -, -, hbesttree⟩ := hleast limit hlimit
  obtain ⟨hmem, hweight⟩ := hbesttree tree htree
  exact ⟨run, hparse, hagenda, htrees, tree, hmem, htree, hweight⟩

end Chart

end NaturalLanguage
