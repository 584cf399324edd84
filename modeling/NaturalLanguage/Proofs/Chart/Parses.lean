import Mathlib.Data.List.Nodup
import NaturalLanguage.Proofs.Chart.Saturation
import NaturalLanguage.Proofs.Chart.Trees

/-!
# The parses of a sentence are its derivation trees

The finished edges of the start symbol over the whole sentence carry pairwise distinct trees, and
these are the derivation trees of the start symbol over the words. Derivation trees here may use
the rule of the seed at the beginning of the sentence. A grammar whose rules mention the head of
the seed can therefore get parses with a constituent that none of its rules builds.

* `IsParse`: derivation trees of the start symbol over a whole sentence.
* `parses_exact`: the trees of the parses are those trees, each once.
* `rules_of_parses`: when a parse uses a rule that is not in the grammar.
-/

namespace NaturalLanguage.Chart

open Edge

/-- A derivation tree of `start` over all of `words`, in which the seed may be rewritten at the
beginning. -/
def IsParse (g : Grammar) (words : List Word) (start : Symbol) (t : Tree) : Prop :=
  (∃ children, t = .node start children) ∧ t.leaves = words ∧ DerivesFrom g start 0 t

variable {g : Grammar} {words : List Word} {start : Symbol} {run : Run}

/-- The parses in a finished chart are the finished derivable edges of the start symbol over the
whole sentence. -/
theorem Run.Reachable.mem_completeParses_iff
    (h : Run.Reachable g words start words.length run) (hagenda : run.agenda = []) {e : Edge} :
    e ∈ run.chart.completeParses start ↔ Derivable g words start e ∧ e.stop = words.length ∧
      e.start = 0 ∧ e.head = start ∧ e.isComplete = true := by
  have hinv := h.invariant
  rw [Chart.mem_completeParses_iff hinv.aligned hinv.size, h.contains_iff hagenda]

/-- The tree of a parse is a derivation tree over the whole sentence. -/
theorem Derivable.isParse {e : Edge} (h : Derivable g words start e) (hstop : e.stop = words.length)
    (hstart : e.start = 0) (hhead : e.head = start) (hcomplete : e.isComplete = true) :
    IsParse g words start e.tree := by
  refine ⟨⟨e.found.map treeFound, ?_⟩, ?_, ?_⟩
  · rw [tree_eq, hhead]
  · have hwords := h.take_stop
    rw [hstop, hstart, List.take_length, List.take_zero, List.nil_append] at hwords
    rw [leaves_tree, ← hwords]
  · have htree := h.derivesFrom_tree hcomplete
    rwa [hstart] at htree

/-- Every derivation tree over the whole sentence is the tree of a parse. -/
theorem IsParse.exists_derivable {t : Tree} (h : IsParse g words start t) :
    ∃ e, Derivable g words start e ∧ e.stop = words.length ∧ e.start = 0 ∧ e.head = start ∧
      e.isComplete = true ∧ e.tree = t := by
  obtain ⟨⟨children, rfl⟩, hleaves, ht⟩ := h
  have hwords : words.drop 0 = (Tree.node start children).leaves ++ [] := by
    rw [hleaves, List.append_nil, List.drop_zero]
  refine ⟨_, Derivable.of_itemOf _ .seed rfl ht hwords _ rfl, ?_, rfl, rfl, rfl, ?_⟩
  · change 0 + (Tree.node start children).leaves.length = words.length
    rw [hleaves, Nat.zero_add]
  · exact treeFound_itemOf (.node start children) 0

/-- The trees of the parses in a finished chart. -/
theorem Run.Reachable.mem_trees_iff (h : Run.Reachable g words start words.length run)
    (hagenda : run.agenda = []) {t : Tree} :
    t ∈ (run.chart.completeParses start).map Edge.tree ↔ IsParse g words start t := by
  rw [List.mem_map]
  constructor
  · rintro ⟨e, he, rfl⟩
    obtain ⟨he, hstop, hstart, hhead, hcomplete⟩ := (h.mem_completeParses_iff hagenda).1 he
    exact he.isParse hstop hstart hhead hcomplete
  · intro ht
    obtain ⟨e, he, hstop, hstart, hhead, hcomplete, htree⟩ := ht.exists_derivable
    exact ⟨e, (h.mem_completeParses_iff hagenda).2 ⟨he, hstop, hstart, hhead, hcomplete⟩, htree⟩

/-- Different parses in a finished chart have different trees. -/
theorem Run.Reachable.nodup_trees (h : Run.Reachable g words start words.length run)
    (hagenda : run.agenda = []) : ((run.chart.completeParses start).map Edge.tree).Nodup := by
  refine List.Nodup.map_on ?_ (nodup_completeParses _ _)
  intro d hd e he htree
  obtain ⟨hd, -, hdstart, -, hdcomplete⟩ := (h.mem_completeParses_iff hagenda).1 hd
  obtain ⟨he, -, hestart, -, hecomplete⟩ := (h.mem_completeParses_iff hagenda).1 he
  -- both edges are the item of the one tree at the beginning of the sentence
  have hitem : Found.part d = Found.part e := by
    rw [← hd.itemOf_tree hdcomplete, ← he.itemOf_tree hecomplete, hdstart, hestart, htree]
  exact Found.part.inj hitem

/-- If no rule mentions the head of the seed, the parses are the derivation trees of the
grammar. -/
theorem isParse_iff (hseed : SeedUnused g) (hstart : start ≠ Run.seedHead) {t : Tree} :
    IsParse g words start t ↔
      (∃ children, t = .node start children) ∧ t.leaves = words ∧ g.derives t = true := by
  refine and_congr_right ?_
  rintro ⟨children, rfl⟩
  rw [derivesFrom_iff_derives hseed (.node start children) 0 hstart]

/-- If no rule mentions the head of the seed, no node of a derivation tree with another label is
labelled with it. -/
theorem rule_fst_ne_of_derives (hseed : SeedUnused g) {t : Tree} (h : g.derives t = true)
    (hlabel : t.label ≠ Run.seedHead) {rule : Symbol × List Symbol} (hrule : rule ∈ t.rules) :
    rule.1 ≠ Run.seedHead := by
  induction t using Tree.induction with
  | leaf category word => cases hrule
  | node head children ih =>
    obtain ⟨hbody, hchildren⟩ := Grammar.derives_node.1 h
    rw [Tree.rules, List.mem_cons, Tree.mem_rulesAll] at hrule
    rcases hrule with rfl | ⟨t, ht, hrule⟩
    · exact hlabel
    · refine ih t ht (hchildren t ht) ?_ hrule
      intro heq
      exact hseed head _ hbody (heq ▸ List.mem_map_of_mem ht)

/-- The trees of the parses are pairwise distinct and are exactly the derivation trees of the start
symbol over the sentence, where the seed may be rewritten at the beginning. If no rule mentions the
head of the seed, and the start symbol is another one, they are exactly the derivation trees of the
grammar, and none of their nodes is labelled with the head of the seed. -/
theorem parses_exact {limit : Nat} {g : Grammar} {words : List Word} {start : Symbol}
    (hlimit : Run.parseWithin limit g words start ≠ .error .limitReached) :
    ∃ run, Run.parseWithin limit g words start = .ok run ∧
      ((run.chart.completeParses start).map Edge.tree).Nodup ∧
      (∀ t, t ∈ (run.chart.completeParses start).map Edge.tree ↔ IsParse g words start t) ∧
      (SeedUnused g → start ≠ Run.seedHead → ∀ t,
        (t ∈ (run.chart.completeParses start).map Edge.tree ↔
          (∃ children, t = .node start children) ∧ t.leaves = words ∧ g.derives t = true) ∧
        (t ∈ (run.chart.completeParses start).map Edge.tree →
          ∀ rule ∈ t.rules, rule.1 ≠ Run.seedHead)) := by
  obtain ⟨run, hparse, h, hagenda⟩ := Run.exists_of_parseWithin hlimit
  refine ⟨run, hparse, h.nodup_trees hagenda, fun t => h.mem_trees_iff hagenda, ?_⟩
  intro hseed hstart t
  rw [h.mem_trees_iff hagenda, isParse_iff hseed hstart]
  refine ⟨Iff.rfl, ?_⟩
  rintro ⟨⟨children, rfl⟩, -, ht⟩ rule hrule
  exact rule_fst_ne_of_derives hseed ht hstart hrule

/-- A grammar with a rule that mentions the head of the seed. -/
def seedMention : Grammar :=
  [.rule "S" ["S_", "b"], .rule "S" ["a"]].foldl Grammar.insert (.empty "seed mention")

theorem parseWithin_seedMention_ne :
    Run.parseWithin 8 seedMention ["a", "b"] "S" ≠ .error .limitReached :=
  Run.ne_limitReached_of_isOk (by decide +kernel)

theorem parses_exact_seedMention :
    Run.parseWithin 8 seedMention ["a", "b"] "S" ≠ .error .limitReached ∧
      ∃ run, Run.parseWithin 8 seedMention ["a", "b"] "S" = .ok run ∧
        ((run.chart.completeParses "S").map Edge.tree).Nodup ∧
        ∀ t, t ∈ (run.chart.completeParses "S").map Edge.tree ↔
          IsParse seedMention ["a", "b"] "S" t := by
  obtain ⟨run, hparse, hnodup, htrees, -⟩ := parses_exact parseWithin_seedMention_ne
  exact ⟨parseWithin_seedMention_ne, run, hparse, hnodup, htrees⟩

/-! ### Rules that the grammar does not have -/

/-- A derivation tree over a sentence uses a rule that is not in the grammar exactly if it rewrites
the head of the seed into the start symbol and the grammar has no such rule. -/
theorem IsParse.exists_rule_not_mem_iff {t : Tree} (h : IsParse g words start t) :
    (∃ rule ∈ t.rules, rule.2 ∉ g.alternativesOf rule.1) ↔
      [start] ∉ g.alternativesOf Run.seedHead ∧ (Run.seedHead, [start]) ∈ t.rules := by
  constructor
  · rintro ⟨rule, hrule, hmem⟩
    rcases h.2.2.mem_rules hrule with hmem' | rfl
    · exact absurd hmem' hmem
    · exact ⟨hmem, hrule⟩
  · rintro ⟨hmem, hrule⟩
    exact ⟨_, hrule, hmem⟩

/-- Every rule that a parse of a sentence uses is in the grammar or rewrites the head of the seed
into the start symbol. Some parse uses a rule that is not in the grammar exactly if the grammar has
no such rule, but some derivation tree over the sentence rewrites the seed at the beginning. This
never happens when no rule mentions the head of the seed and the start symbol is another one. -/
theorem rules_of_parses {limit : Nat} {g : Grammar} {words : List Word} {start : Symbol}
    (hlimit : Run.parseWithin limit g words start ≠ .error .limitReached) :
    ∃ run, Run.parseWithin limit g words start = .ok run ∧
      (∀ e ∈ run.chart.completeParses start, ∀ rule ∈ e.tree.rules,
        rule.2 ∈ g.alternativesOf rule.1 ∨ rule = (Run.seedHead, [start])) ∧
      ((∃ e ∈ run.chart.completeParses start, ∃ rule ∈ e.tree.rules,
          rule.2 ∉ g.alternativesOf rule.1) ↔
        [start] ∉ g.alternativesOf Run.seedHead ∧
          ∃ t, IsParse g words start t ∧ (Run.seedHead, [start]) ∈ t.rules) ∧
      (SeedUnused g → start ≠ Run.seedHead → ∀ e ∈ run.chart.completeParses start,
        ∀ rule ∈ e.tree.rules, rule.2 ∈ g.alternativesOf rule.1) := by
  obtain ⟨run, hparse, h, hagenda⟩ := Run.exists_of_parseWithin hlimit
  have hmem : ∀ e ∈ run.chart.completeParses start, IsParse g words start e.tree := fun e he =>
    (h.mem_trees_iff hagenda).1 (List.mem_map_of_mem he)
  refine ⟨run, hparse, ?_, ⟨?_, ?_⟩, ?_⟩
  · intro e he rule hrule
    exact (hmem e he).2.2.mem_rules hrule
  · rintro ⟨e, he, hrule⟩
    obtain ⟨hseed, hrule⟩ := (hmem e he).exists_rule_not_mem_iff.1 hrule
    exact ⟨hseed, e.tree, hmem e he, hrule⟩
  · rintro ⟨hseed, t, ht, hrule⟩
    obtain ⟨e, he, rfl⟩ := List.mem_map.1 ((h.mem_trees_iff hagenda).2 ht)
    exact ⟨e, he, ht.exists_rule_not_mem_iff.2 ⟨hseed, hrule⟩⟩
  · intro hseed hstart e he rule hrule
    have htree := (isParse_iff hseed hstart).1 (hmem e he)
    exact Tree.mem_alternativesOf_of_derives htree.2.2 hrule

theorem rules_of_parses_seedMention :
    Run.parseWithin 8 seedMention ["a", "b"] "S" ≠ .error .limitReached ∧
      ∃ run, Run.parseWithin 8 seedMention ["a", "b"] "S" = .ok run ∧
        (∀ e ∈ run.chart.completeParses "S", ∀ rule ∈ e.tree.rules,
          rule.2 ∈ seedMention.alternativesOf rule.1 ∨ rule = (Run.seedHead, ["S"])) ∧
        ((∃ e ∈ run.chart.completeParses "S", ∃ rule ∈ e.tree.rules,
            rule.2 ∉ seedMention.alternativesOf rule.1) ↔
          ["S"] ∉ seedMention.alternativesOf Run.seedHead ∧
            ∃ t, IsParse seedMention ["a", "b"] "S" t ∧ (Run.seedHead, ["S"]) ∈ t.rules) := by
  obtain ⟨run, hparse, hrules, hiff, -⟩ := rules_of_parses parseWithin_seedMention_ne
  exact ⟨parseWithin_seedMention_ne, run, hparse, hrules, hiff⟩

/-- The parse of `a b` takes `a` for a sentence and that sentence for the seed, which is what the
rule `S_ b` asks for, although no rule of the grammar rewrites the head of the seed. -/
theorem seedMention_parse_uses_seed :
    "S" ≠ Run.seedHead ∧ ∃ run, Run.parseWithin 8 seedMention ["a", "b"] "S" = .ok run ∧
      ∃ e ∈ run.chart.completeParses "S", ∃ rule ∈ e.tree.rules,
        rule.2 ∉ seedMention.alternativesOf rule.1 := by
  have htrees : ((Run.parseWithin 8 seedMention ["a", "b"] "S").map fun run =>
      (run.chart.completeParses "S").map Edge.tree).toOption =
        some [.node "S" [.node "S_" [.node "S" [.leaf "a" "a"]], .leaf "b" "b"]] := by
    decide +kernel
  refine ⟨by decide, ?_⟩
  cases hparse : Run.parseWithin 8 seedMention ["a", "b"] "S" with
  | error cause => rw [hparse] at htrees; cases htrees
  | ok run =>
    rw [hparse] at htrees
    have hmem := List.mem_singleton_self
      (Tree.node "S" [.node "S_" [.node "S" [.leaf "a" "a"]], .leaf "b" "b"])
    rw [← Option.some.inj htrees] at hmem
    obtain ⟨e, he, htree⟩ := List.mem_map.1 hmem
    refine ⟨run, rfl, e, he, ("S_", ["S"]), ?_, by decide⟩
    rw [htree]
    decide

end NaturalLanguage.Chart
