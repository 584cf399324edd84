import NaturalLanguage.OrderedSet

/-!
# Tables keyed by a name

A `Table` holds one row per name, in the order in which the names were first used, and in each
row the distinct values given for that name, in the order in which they were first given. The
rules and the lexicon of a grammar are tables.

* `keys_ensure`, `keys_add`: both operations insert their key.
* `mem_get`: the values of a name are those in its row.
* `get_ensure`, `get_add`: naming a key adds no value, adding a value adds it to its key only.
-/

namespace NaturalLanguage

/-- Rows under other names are found as before when the rows under one name are removed. -/
theorem lookup_filter_ne {α : Type} {rows : List (String × α)} {key other : String}
    (h : key ≠ other) : (rows.filter (·.1 ≠ other)).lookup key = rows.lookup key := by
  induction rows with
  | nil => rfl
  | cons row rows ih =>
    by_cases hrow : row.1 = other
    · have hkey : (key == row.1) = false := beq_false_of_ne (hrow ▸ h)
      rw [List.filter_cons_of_neg (by simpa using hrow), ih, List.lookup_cons, hkey]
    · rw [List.filter_cons_of_pos (by simpa using hrow), List.lookup_cons, List.lookup_cons, ih]

/-- Rows of distinct values under distinct names, both in first-given order. -/
structure Table (α : Type) where
  /-- The rows, oldest first. -/
  rows : List (String × OrderedSet α)
  /-- Every name has one row. -/
  nodup_keys : (rows.map Prod.fst).Nodup

namespace Table

variable {α : Type}

/-- The table without rows. -/
def empty : Table α := ⟨[], .nil⟩

instance : EmptyCollection (Table α) := ⟨empty⟩

/-- The names that have a row, oldest first. -/
def keys (t : Table α) : OrderedSet String := ⟨t.rows.map Prod.fst, t.nodup_keys⟩

theorem toList_keys (t : Table α) : t.keys.toList = t.rows.map Prod.fst := rfl

/-- Whether `key` has a row. -/
def contains (t : Table α) (key : String) : Bool := key ∈ t.keys

/-- The values of `key`; a name without a row has none. -/
def get (t : Table α) (key : String) : OrderedSet α := (t.rows.lookup key).getD ∅

@[simp] theorem rows_empty : (∅ : Table α).rows = [] := rfl

@[simp] theorem contains_iff {t : Table α} {key : String} :
    t.contains key = true ↔ key ∈ t.keys := by
  simp [contains]

theorem mem_keys {t : Table α} {key : String} : key ∈ t.keys ↔ ∃ vs, (key, vs) ∈ t.rows := by
  simp [OrderedSet.mem_def, toList_keys]

theorem lookup_eq_some_iff {t : Table α} {key : String} {vs : OrderedSet α} :
    t.rows.lookup key = some vs ↔ (key, vs) ∈ t.rows := by
  obtain ⟨rows, h⟩ := t
  induction rows with
  | nil => simp
  | cons row rows ih =>
    obtain ⟨name, ws⟩ := row
    simp only [List.map_cons, List.nodup_cons] at h
    by_cases hk : key = name
    · subst hk
      have hnone : (key, vs) ∉ rows := fun hm => h.1 (List.mem_map.2 ⟨_, hm, rfl⟩)
      simp [hnone, eq_comm]
    · simp [List.lookup_cons, beq_false_of_ne hk, hk, ih h.2]

theorem mem_get {t : Table α} {key : String} {v : α} :
    v ∈ t.get key ↔ ∃ vs, (key, vs) ∈ t.rows ∧ v ∈ vs := by
  simp only [get, ← lookup_eq_some_iff]
  cases t.rows.lookup key <;> simp

/-- A name with a value has a row. -/
theorem contains_of_mem_get {t : Table α} {key : String} {v : α} (h : v ∈ (t.get key).toList) :
    t.contains key = true := by
  obtain ⟨vs, hrow, -⟩ := mem_get.1 (OrderedSet.mem_def.2 h)
  rw [contains_iff, mem_keys]
  exact ⟨vs, hrow⟩

/-- Give `key` a row, an empty one if it had none. -/
def ensure (t : Table α) (key : String) : Table α :=
  if h : key ∈ t.keys then t
  else ⟨t.rows ++ [(key, ∅)], by
    have hk := (t.keys.insert key).nodup
    rw [OrderedSet.toList_insert_of_not_mem h, toList_keys] at hk
    simpa using hk⟩

theorem rows_ensure (t : Table α) (key : String) :
    (t.ensure key).rows = if key ∈ t.keys then t.rows else t.rows ++ [(key, ∅)] := by
  unfold ensure; split <;> rfl

@[simp] theorem keys_ensure (t : Table α) (key : String) :
    (t.ensure key).keys = t.keys.insert key := by
  ext1
  rw [toList_keys, rows_ensure, OrderedSet.toList_insert, toList_keys]
  split <;> simp

@[simp] theorem get_ensure (t : Table α) (key other : String) :
    (t.ensure key).get other = t.get other := by
  simp only [get, rows_ensure]
  split
  · rfl
  · rw [List.lookup_append]
    cases t.rows.lookup other with
    | some vs => rfl
    | none =>
      rw [List.lookup_cons]
      cases other == key <;> rfl

private theorem lookup_ensure_self (t : Table α) (key : String) :
    (t.ensure key).rows.lookup key = some (t.get key) := by
  have h : ∃ vs, (key, vs) ∈ (t.ensure key).rows := mem_keys.1 (by simp)
  obtain ⟨vs, h⟩ := h
  have hs : ((t.ensure key).rows.lookup key).isSome := by
    rw [List.lookup_isSome_iff]
    exact ⟨_, h, by simp⟩
  obtain ⟨ws, hw⟩ := Option.isSome_iff_exists.1 hs
  rw [← get_ensure t key key, get, hw, Option.getD_some]

variable [DecidableEq α]

/-- Add one value to the row of `key`, giving it a row first if it has none. -/
def add (t : Table α) (key : String) (value : α) : Table α :=
  ⟨(t.ensure key).rows.map fun row =>
      if row.1 = key then (row.1, row.2.insert value) else row, by
    have h : Prod.fst ∘ (fun row : String × OrderedSet α =>
        if row.1 = key then (row.1, row.2.insert value) else row) = Prod.fst := by
      funext row; simp only [Function.comp_apply]; split <;> rfl
    rw [List.map_map, h]
    exact (t.ensure key).nodup_keys⟩

@[simp] theorem keys_add (t : Table α) (key : String) (value : α) :
    (t.add key value).keys = t.keys.insert key := by
  rw [← keys_ensure]
  ext1
  simp only [toList_keys, add, List.map_map]
  congr 1
  funext row
  simp only [Function.comp_apply]
  split <;> rfl

private theorem lookup_map_insert (rows : List (String × OrderedSet α)) (key : String)
    (value : α) (other : String) :
    (rows.map fun row => if row.1 = key then (row.1, row.2.insert value) else row).lookup other =
      (rows.lookup other).map fun vs => if other = key then vs.insert value else vs := by
  induction rows with
  | nil => rfl
  | cons row rows ih =>
    obtain ⟨name, vs⟩ := row
    -- the changed row keeps its name
    have hrow : (if name = key then (name, vs.insert value) else (name, vs)) =
        (name, if name = key then vs.insert value else vs) := by split <;> rfl
    rw [List.map_cons, hrow, List.lookup_cons, List.lookup_cons, ih]
    by_cases h : other = name
    · subst h; simp
    · simp [beq_false_of_ne h]

theorem get_add (t : Table α) (key : String) (value : α) (other : String) :
    (t.add key value).get other =
      if other = key then (t.get key).insert value else t.get other := by
  rw [get, add, lookup_map_insert]
  split
  · next h => subst h; simp [lookup_ensure_self]
  · rw [Option.map_id', ← get, get_ensure]

end Table

end NaturalLanguage
