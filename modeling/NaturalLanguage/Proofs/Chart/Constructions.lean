import NaturalLanguage.Chart.Construction
import NaturalLanguage.Proofs.Chart.Moments
import NaturalLanguage.Proofs.Chart.Trees

/-!
# Edges that are built call by call are consistent

Every call that succeeds keeps an edge in order: it begins where it was predicted, it is as long as
the words that it has found, what it has found and what it expects is the body of the prediction,
and its words and parts follow one another without a gap. Parts are built by the same calls, so all
of this holds of them too, and a finished edge can be read off its tree.

* `Adjacent`: items that follow one another from one position to another.
* `Consistent`: what holds of an edge after any calls.
* `Consistent.advance`: what one advance keeps.
* `Construction.consistent`: what all calls keep.
* `Consistent.itemOf_tree`: a finished edge is the item of its tree.
* `Construction.build_consistent`: the edges that calls give, and which of them are equal.
-/

namespace NaturalLanguage.Edge

open Chart (itemOf itemsOf itemsOf_append label_treeFound)

variable {first e : Edge} {item : Found Edge} {position stop last : Nat}

/-! ### Items without gaps -/

/-- Items follow one another from `position` to `stop`: a word takes one position, and a part is
finished and begins where the item before it ends. -/
def Adjacent (stop : Nat) : Nat → List (Found Edge) → Prop
  | position, [] => position = stop
  | position, .word _ _ :: items => Adjacent stop (position + 1) items
  | position, .part part :: items =>
    part.isComplete = true ∧ part.start = position ∧ part.start ≤ part.stop ∧
      Adjacent stop part.stop items

theorem adjacent_append {items more : List (Found Edge)} :
    Adjacent stop position (items ++ more) ↔
      ∃ middle, Adjacent middle position items ∧ Adjacent stop middle more := by
  induction items generalizing position with
  | nil => simp [Adjacent]
  | cons item items ih =>
    cases item with
    | word category word => simp only [List.cons_append, Adjacent, ih]
    | part part => simp only [List.cons_append, Adjacent, ih, exists_and_left, and_assoc]

theorem Adjacent.le {items : List (Found Edge)} (h : Adjacent stop position items) :
    position ≤ stop := by
  induction items generalizing position with
  | nil => exact Nat.le_of_eq h
  | cons item items ih =>
    cases item with
    | word category word => exact Nat.le_of_succ_le (ih h)
    | part part =>
      obtain ⟨-, rfl, hle, hrest⟩ := h
      exact Nat.le_trans hle (ih hrest)

/-- Every part lies between the two positions. -/
theorem Adjacent.of_mem {items : List (Found Edge)} {part : Edge}
    (h : Adjacent stop position items) (hpart : .part part ∈ items) :
    part.isComplete = true ∧ position ≤ part.start ∧ part.start ≤ part.stop ∧
      part.stop ≤ stop := by
  induction items generalizing position with
  | nil => cases hpart
  | cons item items ih =>
    cases item with
    | word category word =>
      obtain ⟨hcomplete, hstart, hrest⟩ := ih h (by simpa using hpart)
      exact ⟨hcomplete, Nat.le_of_succ_le hstart, hrest⟩
    | part other =>
      obtain ⟨hcomplete, rfl, hle, hrest⟩ := h
      rcases List.mem_cons.1 hpart with heq | hpart
      · cases heq
        exact ⟨hcomplete, Nat.le_refl _, hle, hrest.le⟩
      · obtain ⟨hcomplete', hstart, hrest'⟩ := ih hrest hpart
        exact ⟨hcomplete', Nat.le_trans hle hstart, hrest'⟩

/-! ### What calls keep -/

/-- All that holds of an edge that was built from the prediction `first`. -/
structure Consistent (first e : Edge) : Prop where
  start_eq : e.start = first.start
  head_eq : e.head = first.head
  stop_eq : e.stop = e.start + e.leaves.length
  /-- The body of the prediction is divided into what was found and what is expected. -/
  labels_eq : e.found.map labelOf ++ e.expects = first.expects
  adjacent : Adjacent e.stop e.start e.found
  /-- The parts are finished and lie within the edge. -/
  parts : ∀ part, .part part ∈ e.found → part.isComplete = true ∧ e.start ≤ part.start ∧
    part.start ≤ part.stop ∧ part.stop ≤ e.stop
  tree_eq : ∃ children, e.tree = .node first.head children ∧
    children.map Tree.label = e.found.map labelOf
  leaves_tree : e.tree.leaves = e.leaves
  collected_eq : (e.collectLeaves #[]).toList = e.leaves
  /-- What was found is determined by its trees. -/
  found_eq : itemsOf e.start (e.found.map treeFound) = e.found

/-- The fields that hold of any edge whose items follow one another are gathered here once. -/
theorem Consistent.of_adjacent (hstart : e.start = first.start) (hhead : e.head = first.head)
    (hstop : e.stop = e.start + e.leaves.length)
    (hlabels : e.found.map labelOf ++ e.expects = first.expects)
    (hadjacent : Adjacent e.stop e.start e.found)
    (hfound : itemsOf e.start (e.found.map treeFound) = e.found) : Consistent first e where
  start_eq := hstart
  head_eq := hhead
  stop_eq := hstop
  labels_eq := hlabels
  adjacent := hadjacent
  parts := fun _ hpart => hadjacent.of_mem hpart
  tree_eq := ⟨e.found.map treeFound, by rw [e.tree_eq, hhead], by simp⟩
  leaves_tree := e.leaves_tree
  collected_eq := toList_collectLeaves e #[]
  found_eq := hfound

/-- A prediction has found nothing yet. -/
theorem consistent_predict (position : Nat) (head : Symbol) (body : List Symbol) :
    Consistent (predict position head body) (predict position head body) := by
  apply Consistent.of_adjacent
  · rfl
  · rfl
  · rw [leaves_predict]
    rfl
  · rfl
  · rfl
  · rfl

namespace Consistent

/-- The words of the trees that an edge has found end where the edge stops. -/
theorem start_add_length (h : Consistent first e) :
    e.start + (Tree.leavesAll (e.found.map treeFound)).length = e.stop := by
  rw [h.stop_eq, ← e.leaves_tree, e.tree_eq, Tree.leaves]

/-- An edge stays consistent if it advances over the next expected item, which begins where it
stops and is the item of its tree there. -/
theorem advance (h : Consistent first e) (hnext : e.next? = some (labelOf item))
    (hstop : stop = e.stop + (leavesFound item).length) (hitem : Adjacent stop e.stop [item])
    (htree : itemOf e.stop (treeFound item) = item) :
    Consistent first (e.advance item stop) := by
  apply Consistent.of_adjacent
  · exact h.start_eq
  · exact h.head_eq
  · rw [stop_advance, start_advance, leaves_advance, List.length_append, ← Nat.add_assoc,
      ← h.stop_eq, hstop]
  · rw [labels_advance hnext, h.labels_eq]
  · rw [stop_advance, start_advance, found_advance, adjacent_append]
    exact ⟨e.stop, h.adjacent, hitem⟩
  · -- the trees that were found before end where the new item begins
    rw [start_advance, found_advance, List.map_append, itemsOf_append, h.found_eq,
      h.start_add_length, List.map_singleton, itemsOf, htree, itemsOf]

/-- A finished edge is the item of its tree. -/
theorem itemOf_tree (h : Consistent first e) (hcomplete : e.isComplete = true) :
    itemOf e.start e.tree = .part e := by
  rw [e.tree_eq, itemOf, h.start_add_length, h.found_eq, ← isComplete_iff.1 hcomplete, eta]

/-- An advance over the next word. -/
theorem scan {d : Edge} {category : Symbol} {word : Word} (h : Consistent first e)
    (hscan : e.scan category word = .ok d) : Consistent first d := by
  obtain ⟨hnext, rfl⟩ := of_scan_eq_ok hscan
  exact h.advance hnext rfl rfl rfl

/-- An advance over a part that is consistent itself. -/
theorem extend {part d : Edge} {firstPart : Edge} (h : Consistent first e)
    (hpart : Consistent firstPart part) (hextend : e.extend part = .ok d) :
    Consistent first d := by
  obtain ⟨hcomplete, hstop, hnext, rfl⟩ := of_extend_eq_ok hextend
  have hlength : part.stop = e.stop + (leavesFound (.part part)).length := by
    rw [leavesFound, hstop, hpart.stop_eq]
  have hle : part.start ≤ part.stop := hpart.adjacent.le
  have htree : itemOf e.stop (treeFound (.part part)) = .part part := by
    rw [treeFound, hstop, hpart.itemOf_tree hcomplete]
  exact h.advance hnext hlength ⟨hcomplete, hstop.symm, hle, rfl⟩ htree

/-- Finished edges that begin at the same position and have the same tree are equal. -/
theorem eq_of_tree_eq {firstOther d : Edge} (h : Consistent first e)
    (hother : Consistent firstOther d) (he : e.isComplete = true) (hd : d.isComplete = true)
    (hstart : e.start = d.start) (htree : e.tree = d.tree) : e = d := by
  have hitem : Found.part e = .part d := by
    calc
      Found.part e = itemOf e.start e.tree := (h.itemOf_tree he).symm
      _ = itemOf d.start d.tree := by rw [hstart, htree]
      _ = .part d := hother.itemOf_tree hd
  exact Found.part.inj hitem

end Consistent

/-! ### All calls -/

namespace Construction

/-- Calls that succeed give a consistent edge. The induction goes into the parts as well. -/
theorem consistent {c : Construction} (h : c.build last = .ok e) : Consistent c.prediction e := by
  induction c generalizing e with
  | predict position head body =>
    cases h
    exact consistent_predict position head body
  | scan base category word ih =>
    obtain ⟨d, hbase, hscan⟩ := exists_of_bind_eq_ok h
    rw [scanWithin] at hscan
    split at hscan
    · exact (ih hbase).scan hscan
    · cases hscan
  | extend base part ih ihpart =>
    obtain ⟨d, hbase, h⟩ := exists_of_bind_eq_ok h
    obtain ⟨p, hpart, hextend⟩ := exists_of_bind_eq_ok h
    exact (ih hbase).extend (ihpart hpart) hextend

/-- Whatever calls were made to build an edge and its parts, if none fails, the edge is consistent
with the prediction that it began with; and finished edges that were built from the same position
and have the same tree are equal. -/
theorem build_consistent (last : Nat) :
    (∀ (c : Construction) (e : Edge), c.build last = .ok e → Consistent c.prediction e) ∧
      ∀ (c d : Construction) (e f : Edge), c.build last = .ok e → d.build last = .ok f →
        e.isComplete = true → f.isComplete = true → e.start = f.start → e.tree = f.tree →
          e = f := by
  refine ⟨?_, ?_⟩
  · intro c e hc
    exact consistent hc
  · intro c d e f hc hd he hf hstart htree
    exact (consistent hc).eq_of_tree_eq (consistent hd) he hf hstart htree

/-- An `S` of three words from position 1 on, with an empty part in the middle. -/
def emptyMiddle : Construction :=
  let subject := scan (predict 1 "NP" ["Pronoun"]) "Pronoun" "I"
  let object := scan (scan (predict 3 "NP" ["Art", "N"]) "Art" "a") "N" "saw"
  extend (scan (extend (extend (predict 1 "S" ["NP", "E", "V", "NP"]) subject)
    (predict 2 "E" [])) "V" "saw") object

theorem build_consistent_emptyMiddle :
    ∃ e, emptyMiddle.build lastPosition = .ok e ∧ e.isComplete = true ∧
      Consistent (.predict 1 "S" ["NP", "E", "V", "NP"]) e ∧
      e.leaves = ["I", "saw", "a", "saw"] ∧
      ∀ (d : Construction) (f : Edge), d.build lastPosition = .ok f → f.isComplete = true →
        e.start = f.start → e.tree = f.tree → e = f := by
  obtain ⟨hconsistent, hequal⟩ := build_consistent lastPosition
  refine ⟨_, rfl, rfl, hconsistent emptyMiddle _ rfl, rfl, ?_⟩
  intro d f hd hf hstart htree
  exact hequal emptyMiddle d _ f rfl hd rfl hf hstart htree

end Construction

end NaturalLanguage.Edge
