import NaturalLanguage.Chart.Error
import NaturalLanguage.Tree.Basic

/-!
# Edges

An edge is a constituent under construction. It begins at a position of the sentence, has found
the first symbols of a rule body up to another position, and expects the rest of the body. What it
found is a list of words and of finished edges, so an edge remembers its whole derivation.

* `Edge.predict`, `Edge.scan`, `Edge.extend`: an edge that found nothing yet, and its advance over
  a word or over a finished edge. An advance that does not fit is refused with a `ChartError`.
* `Edge.scanWithin`: the advance over a word where positions end (`scanWithin_eq_scan`).
* `Edge.leaves`, `Edge.tree`: the words and the tree of what was found (`leaves_tree`).
-/

namespace NaturalLanguage

/-- One item that an edge has found: a word under its part of speech, or a finished part. -/
inductive Found (ε : Type) where
  | word (category : Symbol) (word : Word)
  | part (edge : ε)

/-- A constituent from `start` to `stop` whose body is `found` followed by `expects`. -/
structure Edge where
  start : Nat
  stop : Nat
  head : Symbol
  found : List (Found Edge)
  expects : List Symbol

namespace Edge

/-! ### Equality -/

mutual
/-- Decides whether two edges are equal, parts included. -/
def decEq : (d e : Edge) → Decidable (d = e)
  | ⟨start, stop, head, found, expects⟩, ⟨start', stop', head', found', expects'⟩ =>
    if h : start = start' ∧ stop = stop' ∧ head = head' ∧ expects = expects' then
      match decEqAll found found' with
      | isTrue hf => isTrue (by simp [h, hf])
      | isFalse hf => isFalse (by simp [hf])
    else isFalse (by simp; grind)

/-- Decides whether two lists of items are equal. -/
def decEqAll : (fs gs : List (Found Edge)) → Decidable (fs = gs)
  | [], [] => isTrue rfl
  | [], _ :: _ => isFalse (by simp)
  | _ :: _, [] => isFalse (by simp)
  | f :: fs, g :: gs =>
    match decEqFound f g with
    | isFalse h => isFalse (by simp [h])
    | isTrue h =>
      match decEqAll fs gs with
      | isTrue hs => isTrue (by simp [h, hs])
      | isFalse hs => isFalse (by simp [hs])

/-- Decides whether two items are equal. -/
def decEqFound : (f g : Found Edge) → Decidable (f = g)
  | .word c w, .word c' w' =>
    if h : c = c' ∧ w = w' then isTrue (by simp [h]) else isFalse (by simpa using h)
  | .part e, .part e' =>
    match decEq e e' with
    | isTrue h => isTrue (by simp [h])
    | isFalse h => isFalse (by simp [h])
  | .word _ _, .part _ => isFalse (by simp)
  | .part _, .word _ _ => isFalse (by simp)
end

instance : DecidableEq Edge := decEq

/-- An edge is made of its five fields. -/
@[simp] theorem eta (e : Edge) : Edge.mk e.start e.stop e.head e.found e.expects = e := by
  cases e; rfl

/-! ### Progress -/

/-- The symbol that an edge expects next. -/
def next? (e : Edge) : Option Symbol := e.expects.head?

/-- Whether an edge has found all of its body. -/
def isComplete (e : Edge) : Bool := e.expects.isEmpty

/-- Whether an edge still expects something. -/
def isActive (e : Edge) : Bool := !e.isComplete

/-- The edge at `position` that expects all of `body`. -/
def predict (position : Nat) (head : Symbol) (body : List Symbol) : Edge :=
  ⟨position, position, head, [], body⟩

/-- The edge with one more item found, up to `stop`, in place of the next expected symbol. -/
def advance (e : Edge) (item : Found Edge) (stop : Nat) : Edge :=
  { e with stop, found := e.found ++ [item], expects := e.expects.tail }

/-- The advance over the next word as a word of `category`. -/
def scan (e : Edge) (category : Symbol) (word : Word) : Except ChartError Edge :=
  if e.next? = some category then .ok (e.advance (.word category word) (e.stop + 1))
  else .error (.unexpected category)

/-- The last position that a number of 64 bits can give. -/
def lastPosition : Nat := UInt64.size - 1

/-- The advance over the next word within the positions up to `last`. -/
def scanWithin (e : Edge) (last : Nat) (category : Symbol) (word : Word) :
    Except ChartError Edge :=
  if e.stop < last then e.scan category word else .error .lastPosition

/-- The advance over a finished edge that begins where `e` stops. -/
def extend (e part : Edge) : Except ChartError Edge :=
  if part.isActive then .error .unfinished
  else if e.stop ≠ part.start then .error (.apart part.start)
  else if e.next? ≠ some part.head then .error (.unexpected part.head)
  else .ok (e.advance (.part part) part.stop)

theorem next?_eq_some_iff {e : Edge} {sym : Symbol} :
    e.next? = some sym ↔ ∃ rest, e.expects = sym :: rest := by
  rw [next?, List.head?_eq_some_iff]

@[simp] theorem isComplete_iff {e : Edge} : e.isComplete = true ↔ e.expects = [] :=
  List.isEmpty_iff

theorem not_isComplete_of_next? {e : Edge} {sym : Symbol} (h : e.next? = some sym) :
    e.isComplete = false := by
  obtain ⟨rest, hrest⟩ := next?_eq_some_iff.1 h
  rw [isComplete, hrest, List.isEmpty_cons]

section Fields

variable (position stop : Nat) (head : Symbol) (body : List Symbol) (e : Edge) (item : Found Edge)

@[simp] theorem start_predict : (predict position head body).start = position := rfl

@[simp] theorem stop_predict : (predict position head body).stop = position := rfl

@[simp] theorem head_predict : (predict position head body).head = head := rfl

@[simp] theorem found_predict : (predict position head body).found = [] := rfl

@[simp] theorem expects_predict : (predict position head body).expects = body := rfl

@[simp] theorem start_advance : (e.advance item stop).start = e.start := rfl

@[simp] theorem stop_advance : (e.advance item stop).stop = stop := rfl

@[simp] theorem head_advance : (e.advance item stop).head = e.head := rfl

@[simp] theorem found_advance : (e.advance item stop).found = e.found ++ [item] := rfl

@[simp] theorem expects_advance : (e.advance item stop).expects = e.expects.tail := rfl

end Fields

theorem scan_eq_ok {e : Edge} {category : Symbol} (h : e.next? = some category) (word : Word) :
    e.scan category word = .ok (e.advance (.word category word) (e.stop + 1)) := by
  simp [scan, h]

/-- The bound matters at the last position only, which no sentence in memory has. -/
theorem scanWithin_eq_scan {last : Nat} {e : Edge} (h : e.stop < last) (category : Symbol)
    (word : Word) : e.scanWithin last category word = e.scan category word := by
  rw [scanWithin, if_pos h]

theorem extend_eq_ok {e part : Edge} (hpart : part.isComplete = true) (hstop : e.stop = part.start)
    (hnext : e.next? = some part.head) :
    e.extend part = .ok (e.advance (.part part) part.stop) := by
  simp [extend, isActive, hpart, hstop, hnext]

/-! ### What was found -/

/-- The symbol under which an item was found. -/
def labelOf : Found Edge → Symbol
  | .word category _ => category
  | .part e => e.head

/-- An advance over the next expected symbol moves the symbol from the expected ones to the found
ones, so the body stays the same. -/
theorem labels_advance {e : Edge} {item : Found Edge} (h : e.next? = some (labelOf item))
    (stop : Nat) :
    (e.advance item stop).found.map labelOf ++ (e.advance item stop).expects =
      e.found.map labelOf ++ e.expects := by
  obtain ⟨rest, hrest⟩ := next?_eq_some_iff.1 h
  simp [hrest]

mutual
/-- The words that an edge has found, left to right. -/
def leaves : Edge → List Word
  | ⟨_, _, _, found, _⟩ => leavesAll found

/-- The words of a list of items. -/
def leavesAll : List (Found Edge) → List Word
  | [] => []
  | item :: items => leavesFound item ++ leavesAll items

/-- The words of an item. -/
def leavesFound : Found Edge → List Word
  | .word _ word => [word]
  | .part e => e.leaves
end

mutual
/-- The tree of what an edge has found. -/
def tree : Edge → Tree
  | ⟨_, _, head, found, _⟩ => .node head (treeAll found)

/-- The trees of a list of items. -/
def treeAll : List (Found Edge) → List Tree
  | [] => []
  | item :: items => treeFound item :: treeAll items

/-- The tree of an item. -/
def treeFound : Found Edge → Tree
  | .word category word => .leaf category word
  | .part e => e.tree
end

theorem leavesAll_eq_flatMap (items : List (Found Edge)) :
    leavesAll items = items.flatMap leavesFound := by
  induction items with
  | nil => rfl
  | cons item items ih => simp [leavesAll, ih]

theorem treeAll_eq_map (items : List (Found Edge)) : treeAll items = items.map treeFound := by
  induction items with
  | nil => rfl
  | cons item items ih => simp [treeAll, ih]

theorem leaves_eq (e : Edge) : e.leaves = e.found.flatMap leavesFound := by
  cases e; rw [leaves, leavesAll_eq_flatMap]

@[simp] theorem leaves_predict (position : Nat) (head : Symbol) (body : List Symbol) :
    (predict position head body).leaves = [] := by
  rw [leaves_eq, found_predict, List.flatMap_nil]

@[simp] theorem leaves_advance (e : Edge) (item : Found Edge) (stop : Nat) :
    (e.advance item stop).leaves = e.leaves ++ leavesFound item := by
  simp only [leaves_eq, found_advance, List.flatMap_append, List.flatMap_singleton]

theorem tree_eq (e : Edge) : e.tree = .node e.head (e.found.map treeFound) := by
  cases e; rw [tree, treeAll_eq_map]

mutual
/-- The words of an edge are the leaves of its tree. -/
theorem leaves_tree : ∀ e : Edge, e.tree.leaves = e.leaves
  | ⟨_, _, _, found, _⟩ => by rw [tree, leaves, Tree.leaves]; exact leavesAll_treeAll found

theorem leavesAll_treeAll : ∀ items, Tree.leavesAll (treeAll items) = leavesAll items
  | [] => rfl
  | item :: items => by
    rw [treeAll, leavesAll, Tree.leavesAll, leavesAll_treeAll items, leaves_treeFound item]

theorem leaves_treeFound : ∀ item, (treeFound item).leaves = leavesFound item
  | .word _ _ => rfl
  | .part e => by rw [treeFound, leavesFound]; exact leaves_tree e
end

/-- An edge as a dotted rule over its span: the dot stands between what was found and what is
expected. -/
def dotted (e : Edge) : String :=
  "(" ++ toString e.start ++ " - " ++ toString e.stop ++ ") " ++ e.head ++ " ->"
    ++ String.join ((e.found.map labelOf).map (" " ++ ·)) ++ " ·"
    ++ String.join (e.expects.map (" " ++ ·))

end Edge

end NaturalLanguage
