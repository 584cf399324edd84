import NaturalLanguage.Grammar.Derivation
import NaturalLanguage.Proofs.Chart.Closure

/-!
# Trees and the edges that carry them

A finished edge carries a tree, and a tree over the words from some position on is carried by one
edge only. The trees of derivable edges are derivation trees of the grammar in which the seed may
be rewritten as well, at the beginning of the sentence, and every such tree that a derivable edge
waits for is carried by a derivable edge.

* `DerivesFrom`: derivation trees whose words begin at a position, the seed included.
* `itemOf`: the item that a tree is found as; `Derivable.itemOf_tree` says that a finished
  derivable edge is the item of its tree, and `treeFound_itemOf` the converse.
* `Derivable.derivesFrom_tree`: the trees of derivable edges are derivation trees.
* `Derivable.of_itemOf`: the edges of derivation trees are derivable.
* `derivesFrom_iff_derives`: without the seed in the rules, derivation trees are those of the
  grammar.
-/

namespace NaturalLanguage

namespace Tree

mutual
/-- The rules that the nodes of a tree use: the head of a node with the labels of its children. -/
def rules : Tree → List (Symbol × List Symbol)
  | .leaf _ _ => []
  | .node head children => (head, children.map label) :: rulesAll children

/-- The rules that several trees use. -/
def rulesAll : List Tree → List (Symbol × List Symbol)
  | [] => []
  | t :: ts => t.rules ++ rulesAll ts
end

theorem mem_rulesAll {rule : Symbol × List Symbol} {ts : List Tree} :
    rule ∈ rulesAll ts ↔ ∃ t ∈ ts, rule ∈ t.rules := by
  induction ts with
  | nil => simp [rulesAll]
  | cons t ts ih => simp [rulesAll, ih]

/-- A derivation tree uses rules of the grammar only. -/
theorem mem_alternativesOf_of_derives {g : Grammar} {t : Tree} (h : g.derives t = true)
    {rule : Symbol × List Symbol} (hrule : rule ∈ t.rules) : rule.2 ∈ g.alternativesOf rule.1 := by
  induction t using Tree.induction with
  | leaf category word => cases hrule
  | node head children ih =>
    obtain ⟨hbody, hchildren⟩ := Grammar.derives_node.1 h
    rw [rules, List.mem_cons, mem_rulesAll] at hrule
    rcases hrule with rfl | ⟨t, ht, hrule⟩
    · exact hbody
    · exact ih t ht (hchildren t ht) hrule

end Tree

namespace Chart

open Edge

/-! ### Derivation trees with the seed -/

section Derivation

variable (g : Grammar) (start : Symbol)

mutual
/-- A tree whose words begin at `position` is a derivation tree: words are accepted, and every node
has a body that its head may have where the node begins. -/
def DerivesFrom : Nat → Tree → Prop
  | _, .leaf category word => g.accepts category word = true
  | position, .node head children =>
    SeededRule g start position head (children.map Tree.label) ∧ DerivesAllFrom position children

/-- Trees that follow one another from `position` on are derivation trees. -/
def DerivesAllFrom : Nat → List Tree → Prop
  | _, [] => True
  | position, t :: ts =>
    DerivesFrom position t ∧ DerivesAllFrom (position + t.leaves.length) ts
end

end Derivation

variable {g : Grammar} {words : List Word} {start : Symbol}

theorem derivesAllFrom_append {ts us : List Tree} {position : Nat} :
    DerivesAllFrom g start position (ts ++ us) ↔ DerivesAllFrom g start position ts ∧
      DerivesAllFrom g start (position + (Tree.leavesAll ts).length) us := by
  induction ts generalizing position with
  | nil => simp [DerivesAllFrom, Tree.leavesAll]
  | cons t ts ih =>
    simp only [List.cons_append, DerivesAllFrom, Tree.leavesAll, List.length_append, ih, and_assoc,
      Nat.add_assoc]

/-- Each of several derivation trees is a derivation tree where it begins. -/
theorem DerivesAllFrom.exists_of_mem {ts : List Tree} {position : Nat}
    (h : DerivesAllFrom g start position ts) {t : Tree} (ht : t ∈ ts) :
    ∃ position', DerivesFrom g start position' t := by
  induction ts generalizing position with
  | nil => cases ht
  | cons u ts ih =>
    obtain ⟨hu, hts⟩ := h
    rcases List.mem_cons.1 ht with rfl | ht
    · exact ⟨position, hu⟩
    · exact ih hts ht

/-- A derivation tree uses rules of the grammar and the rule of the seed only. -/
theorem DerivesFrom.mem_rules {t : Tree} {position : Nat} (h : DerivesFrom g start position t)
    {rule : Symbol × List Symbol} (hrule : rule ∈ t.rules) :
    rule.2 ∈ g.alternativesOf rule.1 ∨ rule = (Run.seedHead, [start]) := by
  induction t using Tree.induction generalizing position with
  | leaf category word => cases hrule
  | node head children ih =>
    obtain ⟨hbody, hchildren⟩ := h
    rw [Tree.rules, List.mem_cons, Tree.mem_rulesAll] at hrule
    rcases hrule with rfl | ⟨t, ht, hrule⟩
    · rcases hbody with hbody | ⟨-, hhead, hbody⟩
      · exact .inl hbody
      · exact .inr (Prod.ext hhead hbody)
    · obtain ⟨position', ht'⟩ := hchildren.exists_of_mem ht
      exact ih t ht ht' hrule

mutual
/-- If no rule mentions the head of the seed, a tree with another label is a derivation tree exactly
if it is one of the grammar. -/
theorem derivesFrom_iff_derives (hseed : SeedUnused g) :
    ∀ (t : Tree) (position : Nat), t.label ≠ Run.seedHead →
      (DerivesFrom g start position t ↔ g.derives t = true)
  | .leaf category word, _, _ => Iff.rfl
  | .node head children, position, hlabel => by
    have hbody : SeededRule g start position head (children.map Tree.label) ↔
        children.map Tree.label ∈ g.alternativesOf head :=
      or_iff_left fun h => hlabel h.2.1
    rw [DerivesFrom, Grammar.derives_node, hbody]
    refine and_congr_right fun hmem => ?_
    -- the labels of the children are a body, which does not mention the head of the seed
    apply derivesAllFrom_iff_derives hseed
    intro t ht heq
    exact hseed head _ hmem (heq ▸ List.mem_map_of_mem ht)

theorem derivesAllFrom_iff_derives (hseed : SeedUnused g) :
    ∀ (ts : List Tree) (position : Nat), (∀ t ∈ ts, t.label ≠ Run.seedHead) →
      (DerivesAllFrom g start position ts ↔ ∀ t ∈ ts, g.derives t = true)
  | [], _, _ => by simp [DerivesAllFrom]
  | t :: ts, position, hlabels => by
    obtain ⟨hlabel, hlabels⟩ := List.forall_mem_cons.1 hlabels
    rw [DerivesAllFrom, derivesFrom_iff_derives hseed t position hlabel,
      derivesAllFrom_iff_derives hseed ts _ hlabels, List.forall_mem_cons]
end

mutual
/-- A derivation tree of the grammar is a derivation tree wherever its words begin. -/
theorem derivesFrom_of_derives :
    ∀ (t : Tree), g.derives t = true → ∀ position, DerivesFrom g start position t
  | .leaf category word, h, _ => h
  | .node head children, h, position => by
    obtain ⟨hbody, hchildren⟩ := Grammar.derives_node.1 h
    exact ⟨.inl hbody, derivesAllFrom_of_derives children hchildren position⟩

theorem derivesAllFrom_of_derives :
    ∀ (ts : List Tree), (∀ t ∈ ts, g.derives t = true) →
      ∀ position, DerivesAllFrom g start position ts
  | [], _, _ => trivial
  | t :: ts, h, position => by
    obtain ⟨ht, hts⟩ := List.forall_mem_cons.1 h
    exact ⟨derivesFrom_of_derives t ht position, derivesAllFrom_of_derives ts hts _⟩
end

/-! ### The item of a tree -/

mutual
/-- The item that a tree is found as if its words begin at `position`. -/
def itemOf (position : Nat) : Tree → Found Edge
  | .leaf category word => .word category word
  | .node head children =>
    .part ⟨position, position + (Tree.leavesAll children).length, head,
      itemsOf position children, []⟩

/-- The items that trees are found as if their words follow one another from `position` on. -/
def itemsOf (position : Nat) : List Tree → List (Found Edge)
  | [] => []
  | t :: ts => itemOf position t :: itemsOf (position + t.leaves.length) ts
end

theorem itemsOf_append (ts us : List Tree) (position : Nat) :
    itemsOf position (ts ++ us) =
      itemsOf position ts ++ itemsOf (position + (Tree.leavesAll ts).length) us := by
  induction ts generalizing position with
  | nil => simp [itemsOf, Tree.leavesAll]
  | cons t ts ih =>
    simp only [List.cons_append, itemsOf, Tree.leavesAll, List.length_append, ih, Nat.add_assoc]

@[simp] theorem labelOf_itemOf (position : Nat) (t : Tree) :
    labelOf (itemOf position t) = t.label := by
  cases t <;> rfl

@[simp] theorem label_treeFound (item : Found Edge) : (treeFound item).label = labelOf item := by
  cases item with
  | word category word => rfl
  | part e => rw [treeFound, tree_eq]; rfl

mutual
/-- The item of a tree carries the tree. -/
theorem treeFound_itemOf : ∀ (t : Tree) (position : Nat), treeFound (itemOf position t) = t
  | .leaf category word, _ => rfl
  | .node head children, position => by
    rw [itemOf, treeFound, tree, treeAll_itemsOf children]

theorem treeAll_itemsOf : ∀ (ts : List Tree) (position : Nat), treeAll (itemsOf position ts) = ts
  | [], _ => rfl
  | t :: ts, position => by
    rw [itemsOf, treeAll, treeFound_itemOf t, treeAll_itemsOf ts]
end

namespace Derivable

variable {e : Edge}

/-- The words of the trees that an edge has found end where the edge stops. -/
theorem start_add_length (h : Derivable g words start e) :
    e.start + (Tree.leavesAll (e.found.map treeFound)).length = e.stop := by
  rw [h.stop_eq, ← leaves_tree, tree_eq, Tree.leaves]

private theorem itemOf_tree_of_found (h : Derivable g words start e)
    (hcomplete : e.isComplete = true)
    (hfound : itemsOf e.start (e.found.map treeFound) = e.found) :
    itemOf e.start e.tree = .part e := by
  rw [tree_eq, itemOf, h.start_add_length, hfound, ← isComplete_iff.1 hcomplete, eta]

/-- What a derivable edge has found is determined by the trees. -/
theorem itemsOf_found (h : Derivable g words start e) :
    itemsOf e.start (e.found.map treeFound) = e.found := by
  induction h with
  | seed => rfl
  | predict => rfl
  | scan h _ _ _ ih =>
    rw [start_advance, found_advance, List.map_append, itemsOf_append, ih, h.start_add_length]
    rfl
  | complete h hpart hcomplete hstop _ ih ihpart =>
    rw [start_advance, found_advance, List.map_append, itemsOf_append, ih, h.start_add_length,
      hstop, List.map_singleton, itemsOf, treeFound, itemOf_tree_of_found hpart hcomplete ihpart,
      itemsOf]

/-- A finished derivable edge is the item of its tree. -/
theorem itemOf_tree (h : Derivable g words start e) (hcomplete : e.isComplete = true) :
    itemOf e.start e.tree = .part e :=
  itemOf_tree_of_found h hcomplete h.itemsOf_found

private theorem derivesFrom_tree_of_found (h : Derivable g words start e)
    (hcomplete : e.isComplete = true)
    (hfound : DerivesAllFrom g start e.start (e.found.map treeFound)) :
    DerivesFrom g start e.start e.tree := by
  have hrule := h.seededRule
  have hlabels : (e.found.map treeFound).map Tree.label = e.found.map labelOf := by
    simp
  rw [isComplete_iff.1 hcomplete, List.append_nil, ← hlabels] at hrule
  rw [tree_eq]
  exact ⟨hrule, hfound⟩

/-- The trees that a derivable edge has found are derivation trees. -/
theorem derivesAllFrom_found (h : Derivable g words start e) :
    DerivesAllFrom g start e.start (e.found.map treeFound) := by
  induction h with
  | seed => trivial
  | predict => trivial
  | scan h _ _ haccepts ih =>
    rw [start_advance, found_advance, List.map_append, derivesAllFrom_append]
    exact ⟨ih, haccepts, trivial⟩
  | complete h hpart hcomplete hstop _ ih ihpart =>
    rw [start_advance, found_advance, List.map_append, derivesAllFrom_append, h.start_add_length,
      hstop, List.map_singleton, treeFound]
    exact ⟨ih, derivesFrom_tree_of_found hpart hcomplete ihpart, trivial⟩

/-- The tree of a finished derivable edge is a derivation tree. -/
theorem derivesFrom_tree (h : Derivable g words start e) (hcomplete : e.isComplete = true) :
    DerivesFrom g start e.start e.tree :=
  derivesFrom_tree_of_found h hcomplete h.derivesAllFrom_found

/-- A body that a head may have where an edge waits for the head is predicted there: as an
alternative of the head, or as the body of the seed. -/
theorem predict_seededRule (h : Derivable g words start e) {head : Symbol} {body : List Symbol}
    (hnext : e.next? = some head) (hbody : SeededRule g start e.stop head body) :
    Derivable g words start (.predict e.stop head body) := by
  rcases hbody with hbody | ⟨hstop, hhead, hbody⟩
  · exact .predict h hnext hbody
  · rw [hstop, hhead, hbody]
    exact .seed

/-- An edge that waits for the label of a tree advances over its item, if the word of a leaf is
next and the edge of a node is derivable. -/
theorem advance_item (h : Derivable g words start e) {t : Tree} {rest : List Word}
    (hnext : e.next? = some t.label) (ht : DerivesFrom g start e.stop t)
    (hwords : words.drop e.stop = t.leaves ++ rest)
    (hpart : ∀ part, itemOf e.stop t = .part part → Derivable g words start part) :
    Derivable g words start (e.advance (itemOf e.stop t) (e.stop + t.leaves.length)) := by
  cases t with
  | leaf category word =>
    have hword : words[e.stop]? = some word := by
      rw [← Nat.add_zero e.stop, ← List.getElem?_drop, hwords]
      rfl
    exact .scan h hnext hword ht
  | node head children => exact .complete h (hpart _ rfl) rfl rfl hnext

mutual
/-- The edge of a derivation tree over the words that follow is derivable where an edge waits for
the label of the tree. -/
theorem of_itemOf : ∀ (t : Tree) {e : Edge} {rest : List Word}, Derivable g words start e →
    e.next? = some t.label → DerivesFrom g start e.stop t →
    words.drop e.stop = t.leaves ++ rest →
    ∀ part, itemOf e.stop t = .part part → Derivable g words start part
  | .leaf category word, _, _, _, _, _, _ => fun part hpart => by cases hpart
  | .node head children, e, rest, h, hnext, ht, hwords => by
    rintro part ⟨⟩
    -- the body is predicted where `e` waits, and its edge advances over all children
    exact advance_itemsOf children (h.predict_seededRule hnext ht.1) (List.append_nil _).symm ht.2
      hwords

/-- An edge that expects the labels of derivation trees over the words that follow advances over
all of them. -/
theorem advance_itemsOf : ∀ (ts : List Tree) {e : Edge} {expected : List Symbol}
    {rest : List Word}, Derivable g words start e → e.expects = ts.map Tree.label ++ expected →
    DerivesAllFrom g start e.stop ts → words.drop e.stop = Tree.leavesAll ts ++ rest →
    Derivable g words start ⟨e.start, e.stop + (Tree.leavesAll ts).length, e.head,
      e.found ++ itemsOf e.stop ts, expected⟩
  | [], e, expected, rest, h, hexpects, _, _ => by
    rw [List.map_nil, List.nil_append] at hexpects
    rw [Tree.leavesAll, List.length_nil, Nat.add_zero, itemsOf, List.append_nil, ← hexpects, eta]
    exact h
  | t :: ts, e, expected, rest, h, hexpects, ht, hwords => by
    obtain ⟨ht, hts⟩ := ht
    rw [Tree.leavesAll, List.append_assoc] at hwords
    have hnext : e.next? = some t.label := next?_eq_some_iff.2 ⟨_, hexpects⟩
    -- the first tree is found where `e` stops, the others from there on
    have hfirst := h.advance_item hnext ht hwords (of_itemOf t h hnext ht hwords)
    have hwords' : words.drop (e.stop + t.leaves.length) = Tree.leavesAll ts ++ rest := by
      rw [← List.drop_drop, hwords, List.drop_left]
    have hall := advance_itemsOf ts hfirst (congrArg List.tail hexpects) hts hwords'
    rw [Tree.leavesAll, List.length_append, ← Nat.add_assoc, itemsOf, ← List.singleton_append,
      ← List.append_assoc]
    exact hall
end

end Derivable

end Chart

end NaturalLanguage
