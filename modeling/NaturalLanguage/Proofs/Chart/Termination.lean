import Mathlib.Data.Finset.Card
import NaturalLanguage.Proofs.Chart.Parses
import NaturalLanguage.Proofs.Grammar.Cyclic

/-!
# Parsing ends for grammars that are not cyclic

Edges carry trees, so the agenda empties only if finitely many trees can be found. In a grammar
that is not cyclic they are finitely many, and then so are the derivable edges. Every dispatch takes
one edge from the agenda, and an edge enters the agenda only once: the pending edges and those that
are still missing become fewer with every dispatch.

* `finite_derivable`: there are finitely many derivable edges.
* `Run.dispatchesLeft`: the pending edges and those that are still missing from a finite set.
* `Run.Reachable.closeWithin_ne`, `Run.exists_closeWithin_ne_of_finite`: as many dispatches suffice
  to close a slot.
* `Run.exists_limit`: some limit suffices for all slots of a parse.
-/

namespace NaturalLanguage.Chart

open Edge

variable {g : Grammar} {words : List Word} {start : Symbol}

/-! ### Finitely many derivable edges -/

/-- The words that a derivable edge has found are words of the sentence. -/
theorem Derivable.leaves_sublist {e : Edge} (h : Derivable g words start e) :
    e.leaves.Sublist words := by
  have htake : e.leaves.Sublist (words.take e.stop) := by
    rw [h.take_stop]
    exact List.sublist_append_right _ _
  exact htake.trans (List.take_sublist _ _)

/-- If no rule mentions the head of the seed, the trees that a derivable edge has found are
derivation trees of the grammar over words of the sentence. -/
theorem Derivable.of_mem_trees (hseed : SeedUnused g) (hstart : start ≠ Run.seedHead)
    {e : Edge} (h : Derivable g words start e) {t : Tree} (ht : t ∈ e.found.map treeFound) :
    g.derives t = true ∧ t.label ∈ e.found.map labelOf ++ e.expects ∧ t.leaves.Sublist words := by
  have hbody : Run.seedHead ∉ e.found.map labelOf ++ e.expects := by
    rcases h.seededRule with hbody | ⟨-, -, hbody⟩
    · exact hseed _ _ hbody
    · rw [hbody, List.mem_singleton]
      exact hstart.symm
  have hlabels : ∀ u ∈ e.found.map treeFound, u.label ∈ e.found.map labelOf ++ e.expects := by
    intro u hu
    obtain ⟨item, hitem, rfl⟩ := List.mem_map.1 hu
    rw [label_treeFound]
    exact List.mem_append_left _ (List.mem_map_of_mem hitem)
  -- the labels are symbols of the body, so the seed is not rewritten below them
  have hderives := (derivesAllFrom_iff_derives hseed _ _ fun u hu heq =>
    hbody (heq ▸ hlabels u hu)).1 h.derivesAllFrom_found
  refine ⟨hderives t ht, hlabels t ht, ?_⟩
  have htree := Grammar.leaves_sublist e.head ht
  rw [← tree_eq, leaves_tree] at htree
  exact htree.trans h.leaves_sublist

/-- An edge over trees that follow one another: the edge of `rule` that has found `trees`. -/
def edgeOver (rule : Symbol × List Symbol) (start stop : Nat) (trees : List Tree) : Edge :=
  ⟨start, stop, rule.1, itemsOf start trees, rule.2.drop trees.length⟩

/-- A derivable edge is given by its rule, its span and the trees that it has found. -/
theorem Derivable.edgeOver_eq {e : Edge} (h : Derivable g words start e) :
    edgeOver (e.head, e.found.map labelOf ++ e.expects) e.start e.stop (e.found.map treeFound) =
      e := by
  have hexpects : (e.found.map labelOf ++ e.expects).drop (e.found.map treeFound).length =
      e.expects := by
    rw [List.length_map, ← List.length_map (f := labelOf), List.drop_left]
  rw [edgeOver, h.itemsOf_found, hexpects, eta]

/-- If the grammar is not cyclic and no rule mentions the head of the seed, there are finitely many
derivable edges. -/
theorem finite_derivable (hcyclic : ¬ g.Cyclic) (hseed : SeedUnused g)
    (hstart : start ≠ Run.seedHead) (words : List Word) :
    {e | Derivable g words start e}.Finite := by
  -- an edge has one of finitely many rules, two positions, and some of finitely many trees
  have hfinite : (⋃ rule ∈ {rule | rule ∈ (Run.seedHead, [start]) :: g.ruleList},
      ⋃ first ∈ Set.Iic words.length, ⋃ last ∈ Set.Iic words.length,
        edgeOver rule first last '' {trees | trees.length ≤ rule.2.length ∧ ∀ t ∈ trees,
          t ∈ {t | g.derives t = true ∧ t.label ∈ rule.2 ∧ t.leaves.Sublist words}}).Finite :=
    (List.finite_toSet _).biUnion fun rule _ => (Set.finite_Iic _).biUnion fun first _ =>
      (Set.finite_Iic _).biUnion fun last _ =>
        (Grammar.finite_lists (Grammar.finite_derives hcyclic words rule.2) _).image _
  refine hfinite.subset ?_
  intro e he
  replace he : Derivable g words start e := he
  have hrule : (e.head, e.found.map labelOf ++ e.expects) ∈
      (Run.seedHead, [start]) :: g.ruleList := by
    rcases he.seededRule with hbody | ⟨-, hhead, hbody⟩
    · exact List.mem_cons_of_mem _ (Grammar.mem_ruleList_iff.2 hbody)
    · exact List.mem_cons.2 (.inl (Prod.ext hhead hbody))
  simp only [Set.mem_iUnion]
  refine ⟨_, hrule, e.start, Nat.le_trans he.start_le_stop he.stop_le_length, e.stop,
    he.stop_le_length, e.found.map treeFound, ⟨?_, ?_⟩, he.edgeOver_eq⟩
  · simp
  · intro t ht
    exact he.of_mem_trees hseed hstart ht

/-! ### Dispatches that are left -/

namespace Run

/-- The edges of a finite set that a run has not stored. -/
def missing (run : Run) (edges : Finset Edge) : Finset Edge :=
  edges.filter fun e => run.chart.contains e = false

/-- The pending edges and those that are still missing: every one of them is dispatched at most
once. -/
def dispatchesLeft (run : Run) (edges : Finset Edge) : Nat :=
  run.agenda.length + (run.missing edges).card

variable {edges : Finset Edge} {position : Nat} {run run' : Run} {fresh : List Edge}

/-- Storing edges moves them from the missing ones to the pending ones. -/
theorem Stores.dispatchesLeft_eq (h : Stores run fresh run') (hfresh : ∀ e ∈ fresh, e ∈ edges) :
    run'.dispatchesLeft edges = run.dispatchesLeft edges := by
  have hsubset : fresh.toFinset ⊆ run.missing edges := by
    intro e he
    rw [List.mem_toFinset] at he
    exact Finset.mem_filter.2 ⟨hfresh e he, h.new he⟩
  have hmissing : run'.missing edges = run.missing edges \ fresh.toFinset := by
    ext e
    simp only [missing, Finset.mem_sdiff, Finset.mem_filter, List.mem_toFinset,
      ← Bool.not_eq_true, h.contains_iff, not_or, and_assoc]
  have hcard := Finset.card_sdiff_add_card_eq_card hsubset
  rw [List.toFinset_card_of_nodup h.nodup, ← hmissing] at hcard
  rw [dispatchesLeft, dispatchesLeft, h.agenda, List.length_append]
  omega

/-- Taking an edge from the agenda leaves one dispatch less. -/
theorem dispatchesLeft_take {e : Edge} {before after : List Edge}
    (h : run.agenda = before ++ e :: after) :
    run.dispatchesLeft edges =
      ({ run with agenda := before ++ after } : Run).dispatchesLeft edges + 1 := by
  rw [dispatchesLeft, dispatchesLeft, h]
  simp only [missing, List.length_append, List.length_cons]
  omega

/-- A reachable state leaves at most as many dispatches as there are derivable edges. -/
theorem Reachable.dispatchesLeft_le (hedges : ∀ e, Derivable g words start e → e ∈ edges)
    (h : Reachable g words start position run) : run.dispatchesLeft edges ≤ edges.card := by
  -- what a step stores is derivable, so it was missing before
  have hfresh : ∀ {position run run' fresh}, Stores run fresh run' →
      Invariant g words start position run' → ∀ e ∈ fresh, e ∈ edges := by
    intro position run run' fresh hstores hinv e he
    exact hedges e (hinv.derivable (hstores.contains_iff.2 (.inr he)))
  induction h with
  | seed hadd =>
    obtain ⟨fresh, hstores, hinv⟩ := exists_of_add_seed hadd
    rw [hstores.dispatchesLeft_eq (hfresh hstores hinv), dispatchesLeft, Run.start,
      List.length_nil, Nat.zero_add]
    exact Finset.card_filter_le _ _
  | dispatch h hagenda hdispatch ih =>
    obtain ⟨fresh, hstores, hinv⟩ := h.invariant.exists_of_dispatch hagenda hdispatch
    rw [hstores.dispatchesLeft_eq (hfresh hstores hinv)]
    rw [dispatchesLeft_take hagenda] at ih
    exact Nat.le_of_succ_le ih
  | scan h hagenda hword hscan ih =>
    obtain ⟨fresh, hstores, hinv⟩ := h.invariant.exists_of_scan hagenda hword hscan
    rw [hstores.dispatchesLeft_eq (hfresh hstores hinv)]
    exact ih

/-- A slot is closed within the number of dispatches that are left. -/
theorem Reachable.closeWithin_ne (hedges : ∀ e, Derivable g words start e → e ∈ edges)
    {limit : Nat} (h : Reachable g words start position run)
    (hlimit : run.dispatchesLeft edges ≤ limit) :
    run.closeWithin g limit ≠ .error .limitReached := by
  induction limit generalizing run with
  | zero =>
    have hagenda : run.agenda = [] := by
      rw [dispatchesLeft] at hlimit
      exact List.length_eq_zero_iff.1 (by omega)
    rw [closeWithin_of_agenda_nil hagenda]
    nofun
  | succ limit ih =>
    cases hagenda : run.agenda with
    | nil =>
      rw [closeWithin_of_agenda_nil hagenda]
      nofun
    | cons e rest =>
      obtain ⟨fresh, next, hstores, hnext, hclose⟩ := exists_next h hagenda
      rw [hclose]
      apply ih hnext
      have hfresh : ∀ d ∈ fresh, d ∈ edges := fun d hd =>
        hedges d (hnext.invariant.derivable (hstores.contains_iff.2 (.inr hd)))
      have hfirst : run.agenda = [] ++ e :: rest := hagenda
      rw [dispatchesLeft_take hfirst, List.nil_append] at hlimit
      rw [hstores.dispatchesLeft_eq hfresh]
      omega

/-- If there are finitely many derivable edges, some number of dispatches suffices to close the slot
of every reachable state. -/
theorem exists_closeWithin_ne_of_finite (hfinite : {e | Derivable g words start e}.Finite) :
    ∃ least, ∀ limit ≥ least, ∀ position run, Reachable g words start position run →
      run.closeWithin g limit ≠ .error .limitReached := by
  obtain ⟨edges, hedges⟩ := hfinite.exists_finset
  have hmem : ∀ e, Derivable g words start e → e ∈ edges := fun e he => (hedges e).2 he
  refine ⟨edges.card, ?_⟩
  intro limit hlimit position run h
  exact h.closeWithin_ne hmem (Nat.le_trans (h.dispatchesLeft_le hmem) hlimit)

/-- For a grammar that is not cyclic, and whose rules do not mention the head of the seed, some
number of dispatches suffices to close the slot of every reachable state. -/
theorem exists_closeWithin_ne (hcyclic : ¬ g.Cyclic) (hseed : SeedUnused g)
    (hstart : start ≠ seedHead) (words : List Word) :
    ∃ least, ∀ limit ≥ least, ∀ position run, Reachable g words start position run →
      run.closeWithin g limit ≠ .error .limitReached :=
  exists_closeWithin_ne_of_finite (finite_derivable hcyclic hseed hstart words)

/-- For a grammar that is not cyclic, and whose rules do not mention the head of the seed, some
number of dispatches suffices: it closes the slot of every reachable state, also if the edges were
dispatched in another order so far, and with it or more of them the parse of the sentence ends. -/
theorem exists_limit {g : Grammar} {start : Symbol} (hcyclic : ¬ g.Cyclic) (hseed : SeedUnused g)
    (hstart : start ≠ seedHead) (words : List Word) :
    ∃ least, ∀ limit ≥ least,
      (∀ position run, Reachable g words start position run →
        ∃ closed, run.closeWithin g limit = .ok closed ∧ closed.agenda = []) ∧
      ∃ run, parseWithin limit g words start = .ok run ∧ run.agenda = [] := by
  obtain ⟨least, hleast⟩ := exists_closeWithin_ne hcyclic hseed hstart words
  refine ⟨least, ?_⟩
  intro limit hlimit
  have hclose := hleast limit hlimit
  refine ⟨?_, ?_⟩
  · intro position run h
    obtain ⟨closed, hclosed, -, hagenda⟩ := exists_of_closeWithin h (hclose position run h)
    exact ⟨closed, hclosed, hagenda⟩
  · obtain ⟨run, hparse, -, hagenda⟩ := exists_of_parseWithin (parseWithin_ne hclose)
    exact ⟨run, hparse, hagenda⟩

/-- A grammar with left recursion, an empty alternative and an ambiguous `E`. -/
def leftRecursive : Grammar :=
  [.rule "S" ["S", "a"], .rule "S" ["E", "E"], .rule "E" [], .rule "E" ["a"]].foldl Grammar.insert
    (.empty "left recursive")

theorem ruleList_leftRecursive : leftRecursive.ruleList =
    [("S", ["S", "a"]), ("S", ["E", "E"]), ("E", []), ("E", ["a"])] := by
  decide

/-- An `S` inside an `S` leaves the word `a` over, and an `E` has no parts but words. -/
theorem not_cyclic_leftRecursive : ¬ leftRecursive.Cyclic := by
  have ha : ¬ leftRecursive.Nullable "a" := by
    rintro ⟨hbody, -⟩
    rw [← Grammar.mem_ruleList_iff, ruleList_leftRecursive] at hbody
    simp at hbody
  refine Grammar.not_cyclic_of_rank (fun sym => if sym = "S" then 1 else 0) ?_
  rintro head part ⟨hpart, before, after, hbody, hother⟩
  have hmem : part ∈ before ++ part :: after := by simp
  rw [← Grammar.mem_ruleList_iff, ruleList_leftRecursive] at hbody
  rw [← Grammar.mem_nonterminals_iff] at hpart
  have hparts : part = "S" ∨ part = "E" := by
    simpa [show leftRecursive.nonterminals = ["S", "E"] by decide] using hpart
  simp only [List.mem_cons, Prod.mk.injEq, List.not_mem_nil, or_false] at hbody
  rcases hbody with ⟨rfl, hbody⟩ | ⟨rfl, hbody⟩ | ⟨rfl, hbody⟩ | ⟨rfl, hbody⟩
  · rcases hparts with rfl | rfl
    · have hrest : "a" ∈ before ++ "S" :: after := by simp [hbody]
      rw [List.mem_append, List.mem_cons] at hrest
      refine absurd (hother "a" (List.mem_append.2 ?_)) ha
      exact hrest.imp_right fun hrest => hrest.resolve_left (by decide)
    · decide
  · rw [hbody] at hmem
    obtain rfl : part = "E" := by simpa using hmem
    decide
  · rw [hbody] at hmem
    cases hmem
  · rw [hbody] at hmem
    obtain rfl : part = "a" := by simpa using hmem
    exact absurd hparts (by decide)

theorem exists_limit_leftRecursive :
    (¬ leftRecursive.Cyclic ∧ SeedUnused leftRecursive ∧ "S" ≠ seedHead) ∧
      ∃ least, ∀ limit ≥ least,
        (∀ position run, Reachable leftRecursive ["a", "a"] "S" position run →
          ∃ closed, run.closeWithin leftRecursive limit = .ok closed ∧ closed.agenda = []) ∧
        ∃ run, parseWithin limit leftRecursive ["a", "a"] "S" = .ok run ∧ run.agenda = [] := by
  have hseed : SeedUnused leftRecursive := by
    intro head body hbody
    rw [← Grammar.mem_ruleList_iff, ruleList_leftRecursive] at hbody
    simp only [List.mem_cons, Prod.mk.injEq, List.not_mem_nil, or_false] at hbody
    rcases hbody with ⟨-, rfl⟩ | ⟨-, rfl⟩ | ⟨-, rfl⟩ | ⟨-, rfl⟩ <;> decide
  have hstart : "S" ≠ seedHead := by decide
  exact ⟨⟨not_cyclic_leftRecursive, hseed, hstart⟩,
    exists_limit not_cyclic_leftRecursive hseed hstart ["a", "a"]⟩

end Run

end NaturalLanguage.Chart
