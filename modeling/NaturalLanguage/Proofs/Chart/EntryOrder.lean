import NaturalLanguage.Proofs.Chart.Termination
import NaturalLanguage.Proofs.Grammar.Entries

/-!
# Charts do not depend on the order of entries

The alternatives of a grammar are predicted in the order in which they were given, so the order
decides in which order edges are stored, and whether an empty part is finished before or after the
edges that wait for it. It does not decide which edges are stored: these are the derivable edges,
and derivability only asks which alternatives and words there are. Whether a parse ends does not
depend on the order either, since it ends exactly if there are finitely many derivable edges.

* `Grammar.SameEntries`: the same rules and words, in any order; `Grammar.sameEntries_of_perm`.
* `derivable_congr`: the same edges are derivable.
* `Run.exists_parseWithin_iff_finite`: when a parse ends.
* `parses_perm`: the slots and the parses are permutations of each other.
-/

namespace NaturalLanguage

namespace Grammar

/-! ### Grammars with the same rules and words -/

/-- Two grammars with the same rules and the same words, whatever their order. -/
structure SameEntries (g g' : Grammar) : Prop where
  /-- The same symbols have rules. -/
  heads (sym : Symbol) : g.isNonterminal sym = g'.isNonterminal sym
  /-- Every head has the same alternatives. -/
  alternatives (head : Symbol) (body : List Symbol) :
    body ∈ g.alternativesOf head ↔ body ∈ g'.alternativesOf head
  /-- The same symbols are parts of speech. -/
  categories (sym : Symbol) : g.isCategory sym = g'.isCategory sym
  /-- Every part of speech lists the same words. -/
  words (category : Symbol) (word : Word) :
    word ∈ g.wordsOf category ↔ word ∈ g'.wordsOf category

/-- Grammars built from the same entries in another order have the same rules and words. -/
theorem sameEntries_of_perm (name name' : String) {entries entries' : List Entry}
    (h : entries.Perm entries') :
    SameEntries (entries.foldl insert (empty name)) (entries'.foldl insert (empty name')) where
  heads sym := by
    rw [Bool.eq_iff_iff, isNonterminal_foldl_insert, isNonterminal_foldl_insert]
    simp only [h.mem_iff]
  alternatives head body := by
    rw [mem_alternativesOf_foldl_insert, mem_alternativesOf_foldl_insert, h.mem_iff]
  categories sym := by
    rw [Bool.eq_iff_iff, isCategory_foldl_insert, isCategory_foldl_insert]
    simp only [h.mem_iff]
  words category word := by
    rw [mem_wordsOf_foldl_insert, mem_wordsOf_foldl_insert]
    simp only [h.mem_iff]

namespace SameEntries

variable {g g' : Grammar}

theorem symm (h : SameEntries g g') : SameEntries g' g where
  heads sym := (h.heads sym).symm
  alternatives head body := (h.alternatives head body).symm
  categories sym := (h.categories sym).symm
  words category word := (h.words category word).symm

/-- The same words are accepted where a symbol is expected. -/
theorem accepts_eq (h : SameEntries g g') (sym : Symbol) (word : Word) :
    g.accepts sym word = g'.accepts sym word := by
  have hwords : g.isA word sym = g'.isA word sym := by
    rw [Bool.eq_iff_iff, isA_iff, isA_iff]
    exact h.words sym word
  have hliteral : g.isLiteral sym = g'.isLiteral sym := by
    rw [isLiteral, isLiteral, h.heads, h.categories]
  rw [accepts, accepts, hwords, hliteral]

end SameEntries

end Grammar

namespace Chart

variable {g g' : Grammar} {words : List Word} {start : Symbol} {e : Edge}

/-! ### The same edges are derivable -/

theorem Derivable.of_sameEntries (h : g.SameEntries g') (he : Derivable g words start e) :
    Derivable g' words start e := by
  induction he with
  | seed => exact .seed
  | predict _ hnext hbody ih => exact .predict ih hnext ((h.alternatives _ _).1 hbody)
  | scan _ hnext hword haccepts ih =>
    rw [h.accepts_eq] at haccepts
    exact .scan ih hnext hword haccepts
  | complete _ _ hpart hstop hnext ih ihpart => exact .complete ih ihpart hpart hstop hnext

/-- Grammars with the same rules and words have the same derivable edges. -/
theorem derivable_congr (h : g.SameEntries g') :
    Derivable g words start e ↔ Derivable g' words start e :=
  ⟨.of_sameEntries h, .of_sameEntries h.symm⟩

/-! ### What a parse that ends has stored -/

namespace Run

variable {limit : Nat} {run run' : Run}

/-- A parse that ends is in a reachable state without pending edges. -/
theorem reachable_of_parseWithin (h : parseWithin limit g words start = .ok run) :
    Reachable g words start words.length run ∧ run.agenda = [] := by
  have hlimit : parseWithin limit g words start ≠ .error .limitReached := by
    rw [h]
    nofun
  obtain ⟨run', hparse, hreachable, hagenda⟩ := exists_of_parseWithin hlimit
  obtain rfl : run' = run := Except.ok.inj (hparse.symm.trans h)
  exact ⟨hreachable, hagenda⟩

/-- A slot of a finished parse holds the derivable edges that stop there. -/
theorem mem_edgesAt_iff_of_parseWithin (h : parseWithin limit g words start = .ok run)
    (position : Nat) :
    e ∈ run.chart.edgesAt position ↔ Derivable g words start e ∧ e.stop = position := by
  obtain ⟨hreachable, hagenda⟩ := reachable_of_parseWithin h
  rw [mem_edgesAt_iff hreachable.invariant.aligned, hreachable.contains_iff hagenda]

/-- A parse ends exactly if there are finitely many derivable edges. -/
theorem exists_parseWithin_iff_finite :
    (∃ limit run, parseWithin limit g words start = .ok run) ↔
      {e | Derivable g words start e}.Finite := by
  constructor
  · rintro ⟨limit, run, h⟩
    obtain ⟨hreachable, hagenda⟩ := reachable_of_parseWithin h
    -- the chart of the run lists them all
    refine (List.finite_toSet run.chart.edges).subset ?_
    intro e he
    exact (hreachable.mem_edges_iff hagenda).2 he
  · intro hfinite
    obtain ⟨least, hclose⟩ := exists_closeWithin_ne_of_finite hfinite
    obtain ⟨run, hparse, -, -⟩ := exists_of_parseWithin (parseWithin_ne (hclose least le_rfl))
    exact ⟨least, run, hparse⟩

/-- Corresponding slots of two finished parses are permutations of each other. -/
theorem edgesAt_perm (h : g.SameEntries g') {limit' : Nat}
    (hparse : parseWithin limit g words start = .ok run)
    (hparse' : parseWithin limit' g' words start = .ok run') (position : Nat) :
    (run.chart.edgesAt position).Perm (run'.chart.edgesAt position) := by
  -- no slot holds an edge twice, so it is enough that the slots have the same members
  rw [List.perm_ext_iff_of_nodup (nodup_edgesAt _ _) (nodup_edgesAt _ _)]
  intro e
  rw [mem_edgesAt_iff_of_parseWithin hparse, mem_edgesAt_iff_of_parseWithin hparse',
    derivable_congr h]

end Run

/-! ### The order of entries -/

/-- For two grammars with the same rules and words, given in any order, the parse of a sentence
ends for both or for neither. If it ends, the two charts have the same number of slots,
corresponding slots hold the same edges, each once, and so do the two lists of parses. -/
theorem parses_perm {g g' : Grammar} (h : g.SameEntries g') (words : List Word) (start : Symbol) :
    ((∃ limit run, Run.parseWithin limit g words start = .ok run) ↔
      ∃ limit run, Run.parseWithin limit g' words start = .ok run) ∧
    ∀ limit limit' run run', Run.parseWithin limit g words start = .ok run →
      Run.parseWithin limit' g' words start = .ok run' →
      run.chart.size = run'.chart.size ∧
      (∀ position, (run.chart.edgesAt position).Perm (run'.chart.edgesAt position)) ∧
      (run.chart.completeParses start).Perm (run'.chart.completeParses start) := by
  refine ⟨?_, ?_⟩
  · have hderivable : {e | Derivable g words start e} = {e | Derivable g' words start e} :=
      Set.ext fun e => derivable_congr h
    rw [Run.exists_parseWithin_iff_finite, Run.exists_parseWithin_iff_finite, hderivable]
  · intro limit limit' run run' hparse hparse'
    have hsize : run.chart.size = run'.chart.size := by
      rw [(Run.reachable_of_parseWithin hparse).1.invariant.size,
        (Run.reachable_of_parseWithin hparse').1.invariant.size]
    have hslots := Run.edgesAt_perm h hparse hparse'
    refine ⟨hsize, hslots, ?_⟩
    -- the parses are selected from the last slot by a condition on the edge alone
    rw [completeParses_eq, completeParses_eq, hsize]
    exact (hslots _).filter _

/-- A grammar whose rules are given from the start symbol down. -/
def topDown : Grammar :=
  [.rule "S" ["X", "A"], .rule "S" ["N"], .rule "X" [], .rule "A" ["X", "N"], .words "N" ["a"],
    .words "N" ["b"]].foldl Grammar.insert (.empty "top down")

/-- The same rules and words in another order. -/
def bottomUp : Grammar :=
  [.words "N" ["b"], .words "N" ["a"], .rule "A" ["X", "N"], .rule "X" [], .rule "S" ["N"],
    .rule "S" ["X", "A"]].foldl Grammar.insert (.empty "bottom up")

/-- The first slots of the two charts are permutations of each other, but different lists. -/
theorem parses_perm_bottomUp :
    topDown.SameEntries bottomUp ∧ ∃ run run',
      Run.parseWithin 16 topDown ["b"] "S" = .ok run ∧
      Run.parseWithin 16 bottomUp ["b"] "S" = .ok run' ∧
      run.chart.edgesAt 0 ≠ run'.chart.edgesAt 0 ∧
      (∀ position, (run.chart.edgesAt position).Perm (run'.chart.edgesAt position)) ∧
      (run.chart.completeParses "S").Perm (run'.chart.completeParses "S") ∧
      (run.chart.completeParses "S").length = 2 := by
  have hsame : topDown.SameEntries bottomUp :=
    Grammar.sameEntries_of_perm "top down" "bottom up" (by decide)
  have htopDown : ((Run.parseWithin 16 topDown ["b"] "S").map fun run =>
      ((run.chart.edgesAt 0).map Edge.expects, (run.chart.completeParses "S").length)).toOption =
        some ([["S"], ["X", "A"], ["N"], [], ["A"], ["X", "N"], ["N"]], 2) := by
    decide +kernel
  have hbottomUp : ((Run.parseWithin 16 bottomUp ["b"] "S").map fun run =>
      (run.chart.edgesAt 0).map Edge.expects).toOption =
        some [["S"], ["N"], ["X", "A"], [], ["A"], ["X", "N"], ["N"]] := by
    decide +kernel
  obtain ⟨run, hparse, hread⟩ := Run.exists_of_toOption_map htopDown
  obtain ⟨run', hparse', hread'⟩ := Run.exists_of_toOption_map hbottomUp
  obtain ⟨hslot, hlength⟩ := Prod.mk.inj hread
  obtain ⟨-, hslots, hparses⟩ := (parses_perm hsame ["b"] "S").2 16 16 run run' hparse hparse'
  refine ⟨hsame, run, run', hparse, hparse', ?_, hslots, hparses, hlength⟩
  intro heq
  rw [heq, hread'] at hslot
  exact absurd hslot (by decide)

end Chart

end NaturalLanguage
