import NaturalLanguage.Proofs.Sampling.Passes
import NaturalLanguage.Proofs.Sampling.Sentence
import NaturalLanguage.Sampling.Draft

/-!
# Drafts end as the words of random trees

The symbols of a draft are taken off in the order in which a random tree is drawn: from the root
down and from left to right. So after some steps, whatever is drawn, the symbol that came first is
gone, its words are those of the random tree that the same draws give, and the other pending symbols
are left as they were. Random trees are finite, so every draft ends.

Below the free rewrites, a symbol is replaced by symbols of less height. So its depth together with
its height never passes the number of free rewrites together with the greatest height.

* `Draft.exists_steps_randomTree`: the steps that take off one symbol.
* `Draft.Bounded.steps`: how deep the pending symbols are.
* `draft_ends`: drafts end as random sentences, with symbols that are never too deep.
-/

namespace NaturalLanguage

namespace Grammar

variable {g : Grammar} {heights : Heights} {free : Nat} {sym : Symbol} {σ : Type} [DrawSource σ]

/-- Nothing is below a symbol with rules if there are no options for it. -/
theorem randomTree_of_choose_none {s s' : σ} (hsym : g.isNonterminal sym = true)
    (hchoose : DrawSource.choose (g.options heights free sym) s = (none, s')) :
    g.randomTree heights free sym s = (.node sym [], s') := by
  rw [randomTree, dif_pos hsym]
  simp only [bind, StateT.bind, hchoose]
  rfl

/-- The random trees of the chosen option are below a symbol with rules. -/
theorem randomTree_of_choose_some {s s' : σ}
    {body : { body // body ∈ g.options heights free sym }} (hsym : g.isNonterminal sym = true)
    (hchoose : DrawSource.choose (g.options heights free sym) s = (some body, s')) :
    g.randomTree heights free sym s =
      (.node sym (body.1.mapM (g.randomTree heights (free - 1)) s').1,
        (body.1.mapM (g.randomTree heights (free - 1)) s').2) := by
  have hparts : body.1.attach.mapM (fun part => g.randomTree heights (free - 1) part.1) =
      (body.1.mapM (g.randomTree heights (free - 1)) : StateM σ (List Tree)) := by
    rw [List.mapM_subtype (g := g.randomTree heights (free - 1)) fun _ _ => rfl,
      List.unattach_attach]
  rw [randomTree, dif_pos hsym, ← hparts]
  simp only [bind, StateT.bind, hchoose]
  rfl

theorem randomTree_of_not_isNonterminal (hsym : g.isNonterminal sym = false) :
    g.randomTree heights free sym = (g.randomLeaf sym : StateM σ Tree) := by
  rw [randomTree, dif_neg (by rw [hsym]; decide)]

/-- The options with as many free rewrites as are left at some depth. -/
theorem options_sub (g : Grammar) (heights : Heights) (maxDepth depth : Nat) (sym : Symbol) :
    g.options heights (maxDepth - depth) sym =
      if depth < maxDepth then g.alternativesOf sym else g.shallowest heights sym := by
  unfold options
  by_cases hdepth : depth < maxDepth
  · rw [if_neg (Nat.sub_ne_zero_of_lt hdepth), if_pos hdepth]
  · rw [if_pos (Nat.sub_eq_zero_of_le (Nat.le_of_not_lt hdepth)), if_neg hdepth]

/-- Tables that list the same heights give the same shallowest alternatives. -/
theorem shallowest_congr {other : Heights} (h : ∀ sym, heights.lookup sym = other.lookup sym) :
    g.shallowest heights sym = g.shallowest other sym := by
  rw [shallowest, shallowest, h, bodyHeight_congr h]

end Grammar

namespace Draft

variable {g : Grammar} {heights : Heights} {maxDepth depth : Nat} {sym : Symbol}
  {rest : List (Symbol × Nat)} {words : List Word} {σ : Type} [DrawSource σ]

/-! ### Steps -/

/-- A symbol with rules is dropped if there are no options for it. -/
theorem step_of_choose_none {items : List (List Symbol)} {s s' : σ}
    (hsym : g.isNonterminal sym = true)
    (hitems : g.options heights (maxDepth - depth) sym = items)
    (hchoose : DrawSource.choose items s = (none, s')) :
    step g heights maxDepth ⟨(sym, depth) :: rest, words⟩ s = (⟨rest, words⟩, s') := by
  -- the type of a choice mentions the items, so these are replaced all at once
  rw [Grammar.options_sub] at hitems
  subst hitems
  simp only [step, if_pos hsym, bind, StateT.bind, hchoose]
  rfl

/-- A symbol with rules is replaced by the symbols of the chosen option. -/
theorem step_of_choose_some {items : List (List Symbol)} {body : { body // body ∈ items }}
    {s s' : σ} (hsym : g.isNonterminal sym = true)
    (hitems : g.options heights (maxDepth - depth) sym = items)
    (hchoose : DrawSource.choose items s = (some body, s')) :
    step g heights maxDepth ⟨(sym, depth) :: rest, words⟩ s =
      (⟨body.1.map (·, depth + 1) ++ rest, words⟩, s') := by
  rw [Grammar.options_sub] at hitems
  subst hitems
  simp only [step, if_pos hsym, bind, StateT.bind, hchoose]
  rfl

/-- A part of speech or a literal is taken off like a random leaf. -/
theorem step_of_not_isNonterminal (hsym : g.isNonterminal sym = false) (s : σ) :
    step g heights maxDepth ⟨(sym, depth) :: rest, words⟩ s =
      (⟨rest, words ++ (g.randomLeaf sym s).1.leaves⟩, (g.randomLeaf sym s).2) := by
  rw [Grammar.randomLeaf]
  simp only [step, hsym, Bool.false_eq_true, if_false]
  split
  · simp only [bind, StateT.bind]
    rcases DrawSource.choose (g.wordsOf sym) s with ⟨none | word, s'⟩
    · simp only [pure, StateT.pure, Tree.leaves_node, List.flatMap_nil, List.append_nil]
    · rfl
  · rfl

theorem steps_succ (count : Nat) (draft : Draft) (s : σ) :
    steps g heights maxDepth (count + 1) draft s =
      steps g heights maxDepth count (step g heights maxDepth draft s).1
        (step g heights maxDepth draft s).2 :=
  rfl

theorem steps_add (first second : Nat) (draft : Draft) (s : σ) :
    steps g heights maxDepth (first + second) draft s =
      steps g heights maxDepth second (steps g heights maxDepth first draft s).1
        (steps g heights maxDepth first draft s).2 := by
  induction first generalizing draft s with
  | zero => rw [Nat.zero_add]; rfl
  | succ first ih =>
    rw [Nat.succ_add, steps_succ, steps_succ, ih]

/-- If every pending symbol of a body can be taken off like its random tree, all of them can be. -/
theorem exists_steps_mapM {body : List Symbol}
    (h : ∀ part ∈ body, ∀ rest words (s : σ), ∃ count,
      steps g heights maxDepth count ⟨(part, depth) :: rest, words⟩ s =
        (⟨rest, words ++ (g.randomTree heights free part s).1.leaves⟩,
          (g.randomTree heights free part s).2)) (words : List Word) (s : σ) :
    ∃ count, steps g heights maxDepth count ⟨body.map (·, depth) ++ rest, words⟩ s =
      (⟨rest, words ++ (body.mapM (g.randomTree heights free) s).1.flatMap Tree.leaves⟩,
        (body.mapM (g.randomTree heights free) s).2) := by
  induction body generalizing words s with
  | nil =>
    refine ⟨0, ?_⟩
    change ((⟨rest, words⟩ : Draft), s) = (⟨rest, words ++ []⟩, s)
    rw [List.append_nil]
  | cons part body ih =>
    obtain ⟨hpart, hbody⟩ := List.forall_mem_cons.1 h
    obtain ⟨first, hfirst⟩ := hpart (body.map (·, depth) ++ rest) words s
    obtain ⟨second, hsecond⟩ := ih hbody (words ++ (g.randomTree heights free part s).1.leaves)
      (g.randomTree heights free part s).2
    refine ⟨first + second, ?_⟩
    rw [steps_add, List.map_cons, List.cons_append, hfirst, hsecond, List.append_assoc,
      List.mapM_cons]
    rfl

/-- The first pending symbol is taken off like its random tree, and the others are left as they
are. -/
theorem exists_steps_randomTree (g : Grammar) (heights : Heights) (maxDepth depth : Nat)
    (sym : Symbol) (rest : List (Symbol × Nat)) (words : List Word) (s : σ) :
    ∃ count, steps g heights maxDepth count ⟨(sym, depth) :: rest, words⟩ s =
      (⟨rest, words ++ (g.randomTree heights (maxDepth - depth) sym s).1.leaves⟩,
        (g.randomTree heights (maxDepth - depth) sym s).2) := by
  generalize hfree : maxDepth - depth = free
  -- what is pending besides and what was written so far is arbitrary, so that the steps for the
  -- symbols of a body follow one another
  induction free, sym using Grammar.randomTree.induct g heights
    generalizing depth rest words s with
  | case1 free sym hsym ih =>
    subst hfree
    have hnext : maxDepth - (depth + 1) = maxDepth - depth - 1 := by omega
    -- the step and the random tree make the same choice
    rcases hchoose : DrawSource.choose (g.options heights (maxDepth - depth) sym) s with
      ⟨none | body, s'⟩
    · refine ⟨1, ?_⟩
      rw [steps_succ, step_of_choose_none hsym rfl hchoose,
        Grammar.randomTree_of_choose_none hsym hchoose, Tree.leaves_node, List.flatMap_nil,
        List.append_nil]
      rfl
    · obtain ⟨count, hcount⟩ := exists_steps_mapM
        (fun part hpart rest words s => ih body.1 body.2 part hpart (depth + 1) rest words s hnext)
        words s'
      refine ⟨count + 1, ?_⟩
      rw [steps_succ, step_of_choose_some hsym rfl hchoose,
        Grammar.randomTree_of_choose_some hsym hchoose, Tree.leaves_node]
      exact hcount
  | case2 free sym hsym =>
    rw [Grammar.randomTree_of_not_isNonterminal (Bool.eq_false_iff.2 hsym)]
    exact ⟨1, step_of_not_isNonterminal (Bool.eq_false_iff.2 hsym) s⟩

/-- Every draft ends as the words of its random tree. -/
theorem exists_steps_first (g : Grammar) (heights : Heights) (maxDepth : Nat) (start : Symbol)
    (s : σ) :
    ∃ count, steps g heights maxDepth count (first start) s =
      (⟨[], (g.randomTree heights maxDepth start s).1.leaves⟩,
        (g.randomTree heights maxDepth start s).2) :=
  exists_steps_randomTree g heights maxDepth 0 start [] [] s

/-! ### Heights -/

/-- A step depends on the listed heights only, not on the order in which they are listed. -/
theorem step_congr {other : Heights} (h : ∀ sym, heights.lookup sym = other.lookup sym)
    (draft : Draft) (s : σ) :
    step g heights maxDepth draft s = step g other maxDepth draft s := by
  obtain ⟨_ | ⟨⟨sym, depth⟩, rest⟩, words⟩ := draft
  · rfl
  by_cases hsym : g.isNonterminal sym = true
  · have hoptions : g.options other (maxDepth - depth) sym =
        g.options heights (maxDepth - depth) sym := by
      rw [Grammar.options, Grammar.options, Grammar.shallowest_congr h]
    rcases hchoose : DrawSource.choose (g.options heights (maxDepth - depth) sym) s with
      ⟨none | body, s'⟩
    · rw [step_of_choose_none hsym rfl hchoose, step_of_choose_none hsym hoptions hchoose]
    · rw [step_of_choose_some hsym rfl hchoose, step_of_choose_some hsym hoptions hchoose]
  · rw [step_of_not_isNonterminal (Bool.eq_false_iff.2 hsym),
      step_of_not_isNonterminal (Bool.eq_false_iff.2 hsym)]

theorem steps_congr {other : Heights} (h : ∀ sym, heights.lookup sym = other.lookup sym)
    (count : Nat) (draft : Draft) (s : σ) :
    steps g heights maxDepth count draft s = steps g other maxDepth count draft s := by
  induction count generalizing draft s with
  | zero => rfl
  | succ count ih => rw [steps_succ, steps_succ, step_congr h, ih]

/-- The greatest height of a table, zero if it lists none. -/
def greatestHeight (heights : Heights) : Nat := (heights.map Prod.snd).max?.getD 0

theorem rank_le_greatestHeight (g : Grammar) (heights : Heights) (sym : Symbol) :
    g.rank heights sym ≤ greatestHeight heights := by
  unfold Grammar.rank
  split
  · cases hlookup : heights.lookup sym with
    | none => exact Nat.zero_le _
    | some height =>
      obtain ⟨before, after, rfl, -⟩ := List.lookup_eq_some_iff.1 hlookup
      exact List.le_max?_getD_of_mem (List.mem_map.2 ⟨(sym, height), by simp, rfl⟩)
  · exact Nat.zero_le _

/-- The depth of every pending symbol together with its height is at most the number of free
rewrites together with the greatest height. -/
def Bounded (g : Grammar) (heights : Heights) (maxDepth : Nat) (draft : Draft) : Prop :=
  ∀ item ∈ draft.pending, item.2 + g.rank heights item.1 ≤ maxDepth + greatestHeight heights

theorem bounded_first (g : Grammar) (heights : Heights) (maxDepth : Nat) (start : Symbol) :
    (first start).Bounded g heights maxDepth := by
  intro item hitem
  obtain rfl := List.mem_singleton.1 hitem
  have := rank_le_greatestHeight g heights start
  change 0 + g.rank heights start ≤ _
  omega

/-- The symbols of an option are not too deep, one rewrite below. -/
theorem add_rank_le_of_mem_options {body : List Symbol} {part : Symbol}
    (hsym : g.isNonterminal sym = true)
    (h : depth + g.rank heights sym ≤ maxDepth + greatestHeight heights)
    (hbody : body ∈ g.options heights (maxDepth - depth) sym) (hpart : part ∈ body) :
    depth + 1 + g.rank heights part ≤ maxDepth + greatestHeight heights := by
  rw [Grammar.options_sub] at hbody
  split at hbody
  · have := rank_le_greatestHeight g heights part
    omega
  · -- the shallowest alternatives lead to symbols of less height
    have := Grammar.rank_lt_of_mem_shallowest hsym hbody hpart
    omega

/-- No step takes a symbol too deep. -/
theorem Bounded.step {draft : Draft} (h : draft.Bounded g heights maxDepth) (s : σ) :
    (Draft.step g heights maxDepth draft s).1.Bounded g heights maxDepth := by
  obtain ⟨_ | ⟨⟨sym, depth⟩, rest⟩, words⟩ := draft
  · exact h
  obtain ⟨hfirst, hrest⟩ := List.forall_mem_cons.1 h
  by_cases hsym : g.isNonterminal sym = true
  · rcases hchoose : DrawSource.choose (g.options heights (maxDepth - depth) sym) s with
      ⟨none | body, s'⟩
    · rw [step_of_choose_none hsym rfl hchoose]
      exact hrest
    · rw [step_of_choose_some hsym rfl hchoose]
      intro item hitem
      rcases List.mem_append.1 hitem with hitem | hitem
      · obtain ⟨part, hpart, rfl⟩ := List.mem_map.1 hitem
        exact add_rank_le_of_mem_options hsym hfirst body.2 hpart
      · exact hrest item hitem
  · rw [step_of_not_isNonterminal (Bool.eq_false_iff.2 hsym)]
    exact hrest

/-- No symbol is ever too deep. -/
theorem Bounded.steps {draft : Draft} (h : draft.Bounded g heights maxDepth) (count : Nat) (s : σ) :
    (Draft.steps g heights maxDepth count draft s).1.Bounded g heights maxDepth := by
  induction count generalizing draft s with
  | zero => exact h
  | succ count ih => exact ih (h.step s) _

end Draft

/-! ### Drafts end -/

/-- The passes over the rules come to an end, with at most one pass more than there are heads, and
with the heights that the rounds find. With these heights every draft ends, whatever is drawn, as
the random sentence that the same draws give; and no symbol is ever pending at a depth that is
greater than the number of free rewrites together with the greatest of these heights. -/
theorem draft_ends (g : Grammar) (start : Symbol) (maxDepth : Nat) :
    ∃ heights, g.settleWithin (g.nonterminals.length + 1) [] = some heights ∧
      (∀ sym, heights.lookup sym = g.heights.lookup sym) ∧
      ∀ {σ : Type} [DrawSource σ] (s : σ),
        (∃ count, (Draft.first start).steps g heights maxDepth count s =
          (⟨[], (g.randomSentence start maxDepth s).1⟩,
            (g.randomSentence start maxDepth s).2)) ∧
        ∀ count, ∀ item ∈ ((Draft.first start).steps g heights maxDepth count s).1.pending,
          item.2 ≤ maxDepth + Draft.greatestHeight heights := by
  obtain ⟨heights, hsettle, hlookup⟩ := g.exists_settleWithin
  refine ⟨heights, hsettle, hlookup, ?_⟩
  intro σ _ s
  refine ⟨?_, ?_⟩
  · obtain ⟨count, hcount⟩ := Draft.exists_steps_first g g.heights maxDepth start s
    exact ⟨count, (Draft.steps_congr hlookup count _ s).trans hcount⟩
  · intro count item hitem
    have hbounded := (Draft.bounded_first g heights maxDepth start).steps count s
    exact Nat.le_trans (Nat.le_add_right _ _) (hbounded item hitem)

theorem draft_ends_joined :
    Grammar.joined.settleWithin 2 [] = some [("S", 1)] ∧
      ("N", 1) ∈ ((Draft.first "S").steps Grammar.joined [("S", 1)] 0 1
        (Cycle.mk #[0] 0)).1.pending ∧
      1 ≤ 0 + Draft.greatestHeight [("S", 1)] ∧
      ∃ count, (Draft.first "S").steps Grammar.joined [("S", 1)] 0 count (Cycle.mk #[0] 0) =
        (⟨[], ["dog", "runs"]⟩, (Grammar.joined.randomSentence "S" 0 (Cycle.mk #[0] 0)).2) := by
  have hsettle : Grammar.joined.settleWithin 2 [] = some [("S", 1)] := by decide
  have hpending : ("N", 1) ∈ ((Draft.first "S").steps Grammar.joined [("S", 1)] 0 1
      (Cycle.mk #[0] 0)).1.pending := by
    decide +kernel
  have hsentence : (Grammar.joined.randomSentence "S" 0 (Cycle.mk #[0] 0)).1 = ["dog", "runs"] := by
    cbv
  obtain ⟨heights, hheights, -, hends⟩ := draft_ends Grammar.joined "S" 0
  obtain rfl : heights = [("S", 1)] := Option.some.inj (hheights.symm.trans hsettle)
  obtain ⟨hend, hdepth⟩ := hends (Cycle.mk #[0] 0)
  rw [hsentence] at hend
  exact ⟨hsettle, hpending, hdepth 1 _ hpending, hend⟩

end NaturalLanguage
