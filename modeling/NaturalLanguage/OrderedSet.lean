/-!
# Insertion-ordered sets

An `OrderedSet` is a list without repeats that only grows at its end, so that it remembers the
order in which its members were first inserted. Alternatives of a symbol, words of a part of
speech, edges of a chart slot and pages of a link graph are all kept this way.

* `toList_insert`: inserting appends a new member and leaves the set alone otherwise.
* `mem_insert`, `mem_insertAll`, `mem_ofList`: membership after each operation.
-/

namespace NaturalLanguage

/-- A list without repeats, in the order of first insertion. -/
structure OrderedSet (α : Type) where
  /-- The members, oldest first. -/
  toList : List α
  /-- No member is listed twice. -/
  nodup : toList.Nodup
deriving DecidableEq

namespace OrderedSet

variable {α : Type}

/-- The set without members. -/
def empty : OrderedSet α := ⟨[], .nil⟩

instance : EmptyCollection (OrderedSet α) := ⟨empty⟩

instance : Inhabited (OrderedSet α) := ⟨∅⟩

instance : Membership α (OrderedSet α) := ⟨fun s a => a ∈ s.toList⟩

theorem mem_def {a : α} {s : OrderedSet α} : a ∈ s ↔ a ∈ s.toList := .rfl

@[simp] theorem toList_empty : (∅ : OrderedSet α).toList = [] := rfl

@[simp] theorem not_mem_empty (a : α) : ¬ a ∈ (∅ : OrderedSet α) := by simp [mem_def]

@[ext] theorem ext {s t : OrderedSet α} (h : s.toList = t.toList) : s = t := by
  cases s; cases t; simp_all

/-- The number of members. -/
def size (s : OrderedSet α) : Nat := s.toList.length

variable [DecidableEq α]

instance (a : α) (s : OrderedSet α) : Decidable (a ∈ s) :=
  inferInstanceAs (Decidable (a ∈ s.toList))

/-- Append `a` unless it is already a member. -/
def insert (s : OrderedSet α) (a : α) : OrderedSet α :=
  if h : a ∈ s then s
  else ⟨s.toList ++ [a], by
    simp only [List.nodup_append, s.nodup, List.mem_singleton, true_and]
    exact ⟨by simp, fun b hb c hc hbc => h (mem_def.2 (hc ▸ hbc ▸ hb))⟩⟩

theorem insert_of_mem {s : OrderedSet α} {a : α} (h : a ∈ s) : s.insert a = s := by
  simp [insert, h]

theorem toList_insert (s : OrderedSet α) (a : α) :
    (s.insert a).toList = if a ∈ s then s.toList else s.toList ++ [a] := by
  unfold insert; split <;> rfl

theorem toList_insert_of_not_mem {s : OrderedSet α} {a : α} (h : ¬ a ∈ s) :
    (s.insert a).toList = s.toList ++ [a] := by
  simp [toList_insert, h]

@[simp] theorem mem_insert {s : OrderedSet α} {a b : α} : b ∈ s.insert a ↔ b ∈ s ∨ b = a := by
  simp only [mem_def, toList_insert]
  split
  · next h => exact ⟨.inl, fun | .inl hb => hb | .inr hb => hb ▸ h⟩
  · simp

/-- Insert every member of a list, first to last. -/
def insertAll (s : OrderedSet α) (xs : List α) : OrderedSet α := xs.foldl insert s

@[simp] theorem insertAll_nil (s : OrderedSet α) : s.insertAll [] = s := rfl

@[simp] theorem insertAll_cons (s : OrderedSet α) (x : α) (xs : List α) :
    s.insertAll (x :: xs) = (s.insert x).insertAll xs := rfl

@[simp] theorem mem_insertAll {s : OrderedSet α} {xs : List α} {b : α} :
    b ∈ s.insertAll xs ↔ b ∈ s ∨ b ∈ xs := by
  induction xs generalizing s with
  | nil => simp
  | cons x xs ih => simp [ih, or_assoc]

/-- The distinct members of a list, in the order in which they first occur. -/
def ofList (xs : List α) : OrderedSet α := insertAll ∅ xs

@[simp] theorem mem_ofList {xs : List α} {b : α} : b ∈ ofList xs ↔ b ∈ xs := by
  simp [ofList]

end OrderedSet

end NaturalLanguage
