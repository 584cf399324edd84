import Mathlib.Data.List.Forall2
import NaturalLanguage.Grammar.Entry

/-!
# What a built grammar holds

A list of entries builds a grammar if every entry passes its check. The grammar then has exactly the
alternatives, the words, the nonterminals and the parts of speech that the entries give.

* `mapM_eq_ok_iff`, `mapM_eq_error_iff`: a list passes a check if all its members do, and else it
  fails with the cause of the first one that does not; `exists_mapM_eq_ok_iff`.
* `Grammar.ofEntries_eq_ok_iff`: when a grammar is built, and which one.
* `Grammar.mem_alternativesOf_foldl_insert`, `Grammar.mem_wordsOf_foldl_insert`,
  `Grammar.isNonterminal_foldl_insert`, `Grammar.isCategory_foldl_insert`: what it has.
-/

namespace NaturalLanguage

/-- A list passes a check, member by member, if all its members do. -/
theorem mapM_eq_ok_iff {ε α β : Type} {check : α → Except ε β} {xs : List α} {ys : List β} :
    xs.mapM check = .ok ys ↔ List.Forall₂ (fun x y => check x = .ok y) xs ys := by
  induction xs generalizing ys with
  | nil => cases ys <;> simp [pure, Except.pure]
  | cons x xs ih =>
    rw [List.mapM_cons, List.forall₂_cons_left_iff]
    cases hx : check x with
    | error cause => simp [bind, Except.bind]
    | ok y =>
      cases hxs : xs.mapM check with
      | error cause =>
        have hnone : ∀ ys, ¬ List.Forall₂ (fun x y => check x = .ok y) xs ys := fun ys hys => by
          rw [ih.2 hys] at hxs
          cases hxs
        simp [bind, Except.bind, hnone]
      | ok checked =>
        have hchecked : ∀ ys, List.Forall₂ (fun x y => check x = .ok y) xs ys ↔ checked = ys := by
          intro ys
          rw [← ih, hxs, Except.ok.injEq]
        simp [bind, Except.bind, pure, Except.pure, hchecked, eq_comm]

/-- A list fails a check, member by member, with the cause of its first member that fails. -/
theorem mapM_eq_error_iff {ε α β : Type} {check : α → Except ε β} {xs : List α} {cause : ε} :
    xs.mapM check = .error cause ↔ ∃ before x after, xs = before ++ x :: after ∧
      (∀ y ∈ before, ∃ z, check y = .ok z) ∧ check x = .error cause := by
  induction xs with
  | nil => simp [pure, Except.pure]
  | cons x xs ih =>
    rw [List.mapM_cons]
    cases hx : check x with
    | error first =>
      constructor
      · intro h
        obtain rfl : first = cause := Except.error.inj h
        exact ⟨[], x, xs, rfl, by simp, hx⟩
      · rintro ⟨_ | ⟨y, before⟩, x', after, heq, hbefore, hx'⟩
        · obtain ⟨rfl, rfl⟩ := List.cons.inj heq
          rw [hx] at hx'
          exact congrArg Except.error (Except.error.inj hx')
        · obtain ⟨rfl, -⟩ := List.cons.inj heq
          obtain ⟨z, hz⟩ := hbefore x List.mem_cons_self
          rw [hx] at hz
          cases hz
    | ok y =>
      have hrest : (Except.ok y >>= fun y => xs.mapM check >>= fun ys => pure (y :: ys)) =
          (.error cause : Except ε (List β)) ↔ xs.mapM check = .error cause := by
        cases xs.mapM check <;> simp [bind, Except.bind, pure, Except.pure]
      rw [hrest, ih]
      constructor
      · rintro ⟨before, x', after, rfl, hbefore, hx'⟩
        exact ⟨x :: before, x', after, rfl, List.forall_mem_cons.2 ⟨⟨y, hx⟩, hbefore⟩, hx'⟩
      · rintro ⟨_ | ⟨_, before⟩, x', after, heq, hbefore, hx'⟩
        · obtain ⟨rfl, -⟩ := List.cons.inj heq
          rw [hx] at hx'
          cases hx'
        · obtain ⟨rfl, rfl⟩ := List.cons.inj heq
          exact ⟨before, x', after, rfl, (List.forall_mem_cons.1 hbefore).2, hx'⟩

/-- An operation on a list succeeds if it does for every member. -/
theorem exists_mapM_eq_ok_iff {ε α β : Type} {f : α → Except ε β} {xs : List α} :
    (∃ ys, xs.mapM f = .ok ys) ↔ ∀ x ∈ xs, ∃ y, f x = .ok y := by
  constructor
  · rintro ⟨ys, hys⟩
    have hforall := mapM_eq_ok_iff.1 hys
    clear hys
    induction hforall with
    | nil => simp
    | cons hxy _ ih => exact List.forall_mem_cons.2 ⟨⟨_, hxy⟩, ih⟩
  · intro h
    cases hxs : xs.mapM f with
    | ok ys => exact ⟨ys, rfl⟩
    | error cause =>
      obtain ⟨before, x, after, rfl, -, hx⟩ := mapM_eq_error_iff.1 hxs
      obtain ⟨y, hy⟩ := h x (by simp)
      cases hy.symm.trans hx

/-- Operations that agree member by member agree on lists. -/
theorem mapM_congr_of_forall₂ {ε α β γ : Type} {f : α → Except ε γ} {g : β → Except ε γ}
    {xs : List α} {ys : List β} (h : List.Forall₂ (fun x y => f x = g y) xs ys) :
    xs.mapM f = ys.mapM g := by
  induction h with
  | nil => rfl
  | cons hxy _ ih => rw [List.mapM_cons, List.mapM_cons, hxy, ih]

@[simp] theorem Table.get_empty {α : Type} (key : String) : (∅ : Table α).get key = ∅ := rfl

@[simp] theorem Table.not_mem_keys_empty {α : Type} (key : String) :
    ¬ key ∈ (∅ : Table α).keys := by
  simp [Table.mem_keys]

/-- The values of a name are those in its row. -/
theorem Table.get_of_mem_rows {α : Type} {t : Table α} {key : String} {values : OrderedSet α}
    (h : (key, values) ∈ t.rows) : t.get key = values := by
  rw [Table.get, Table.lookup_eq_some_iff.2 h, Option.getD_some]

/-- Values added under one key of a table are inserted into the row of this key. -/
theorem Table.get_foldl_add {α : Type} [DecidableEq α] (t : Table α) (key : String)
    (values : List α) (other : String) :
    (values.foldl (·.add key ·) t).get other =
      if other = key then (t.get key).insertAll values else t.get other := by
  induction values generalizing t with
  | nil =>
    split
    · next h => rw [h]; rfl
    · rfl
  | cons value values ih =>
    rw [List.foldl_cons, ih, Table.get_add, Table.get_add, if_pos rfl]
    split
    · rw [OrderedSet.insertAll_cons]
    · rfl

theorem Table.mem_get_foldl_add {α : Type} [DecidableEq α] {t : Table α} {key other : String}
    {values : List α} {v : α} :
    v ∈ (values.foldl (·.add key ·) t).get other ↔ v ∈ t.get other ∨ other = key ∧ v ∈ values := by
  rw [Table.get_foldl_add]
  split
  · next h => simp [h]
  · next h => simp [h]

/-- Adding values under a key makes no other key. -/
theorem Table.keys_foldl_add {α : Type} [DecidableEq α] {t : Table α} {key : String}
    (h : key ∈ t.keys) (values : List α) : (values.foldl (·.add key ·) t).keys = t.keys := by
  induction values generalizing t with
  | nil => rfl
  | cons value values ih =>
    have hkeys : (t.add key value).keys = t.keys := by
      rw [Table.keys_add, OrderedSet.insert_of_mem h]
    rw [List.foldl_cons, ih (hkeys ▸ h), hkeys]

namespace Grammar

/-- A grammar is built if all entries pass their checks. -/
theorem ofEntries_eq_ok_iff {name : String} {entries : List Entry} {g : Grammar} :
    ofEntries name entries = .ok g ↔
      ∃ checked, List.Forall₂ (fun entry entry' => entry.checked = .ok entry') entries checked ∧
        checked.foldl insert (empty name) = g := by
  simp only [ofEntries, ← mapM_eq_ok_iff]
  cases entries.mapM Entry.checked <;> simp [bind, Except.bind, pure, Except.pure]

/-! ### What one entry adds -/

variable {g : Grammar}

theorem mem_alternativesOf_insert {entry : Entry} {head : Symbol} {body : List Symbol} :
    body ∈ (g.insert entry).alternativesOf head ↔
      body ∈ g.alternativesOf head ∨ entry = .rule head body := by
  cases entry with
  | rule newHead newBody =>
    simp only [insert, alternativesOf, ← OrderedSet.mem_def, Table.get_add, Entry.rule.injEq]
    split
    · next h => subst h; simp [eq_comm]
    · next h => simp [Ne.symm h]
  | words category listed => simp [insert, alternativesOf]

theorem isNonterminal_insert {entry : Entry} {sym : Symbol} :
    (g.insert entry).isNonterminal sym = true ↔
      g.isNonterminal sym = true ∨ ∃ body, entry = .rule sym body := by
  cases entry with
  | rule head body =>
    simp only [insert, isNonterminal, Table.contains_iff, Table.keys_add, OrderedSet.mem_insert,
      Entry.rule.injEq, exists_and_left, exists_eq', and_true]
    rw [eq_comm]
  | words category listed => simp [insert, isNonterminal]

theorem mem_wordsOf_insert {entry : Entry} {category : Symbol} {word : Word} :
    word ∈ (g.insert entry).wordsOf category ↔
      word ∈ g.wordsOf category ∨ ∃ listed, entry = .words category listed ∧ word ∈ listed := by
  cases entry with
  | rule newHead newBody => simp [insert, wordsOf]
  | words newCategory listed =>
    simp only [insert, wordsOf, ← OrderedSet.mem_def, Table.mem_get_foldl_add, Table.get_ensure,
      Entry.words.injEq]
    refine or_congr_right ⟨?_, ?_⟩
    · rintro ⟨rfl, hword⟩
      exact ⟨listed, ⟨rfl, rfl⟩, hword⟩
    · rintro ⟨_, ⟨rfl, rfl⟩, hword⟩
      exact ⟨rfl, hword⟩

theorem isCategory_insert {entry : Entry} {sym : Symbol} :
    (g.insert entry).isCategory sym = true ↔
      g.isCategory sym = true ∨ ∃ listed, entry = .words sym listed := by
  cases entry with
  | rule newHead newBody => simp [insert, isCategory]
  | words category listed =>
    -- the category is a key before its words are added, also if there are none
    have hkey : category ∈ (g.lexicon.ensure category).keys := by simp
    simp only [insert, isCategory, Table.contains_iff, Table.keys_foldl_add hkey,
      Table.keys_ensure, OrderedSet.mem_insert, Entry.words.injEq, exists_and_left, exists_eq',
      and_true]
    rw [eq_comm]

/-! ### What a list of entries adds -/

/-- What every entry adds on its own is what a list of entries adds. -/
theorem foldl_insert_iff {P : Grammar → Prop} {Q : Entry → Prop}
    (hstep : ∀ g entry, P (insert g entry) ↔ P g ∨ Q entry) (entries : List Entry) (g : Grammar) :
    P (entries.foldl insert g) ↔ P g ∨ ∃ entry ∈ entries, Q entry := by
  induction entries generalizing g with
  | nil => simp
  | cons entry entries ih =>
    rw [List.foldl_cons, ih, hstep, or_assoc, List.exists_mem_cons_iff]

variable (name : String) (entries : List Entry)

theorem mem_alternativesOf_foldl_insert {head : Symbol} {body : List Symbol} :
    body ∈ (entries.foldl insert (empty name)).alternativesOf head ↔ .rule head body ∈ entries := by
  rw [foldl_insert_iff (P := fun g => body ∈ g.alternativesOf head) fun _ _ =>
    mem_alternativesOf_insert]
  simp [empty, alternativesOf]

theorem isNonterminal_foldl_insert {sym : Symbol} :
    (entries.foldl insert (empty name)).isNonterminal sym = true ↔
      ∃ body, .rule sym body ∈ entries := by
  rw [foldl_insert_iff (P := fun g => g.isNonterminal sym = true) fun _ _ => isNonterminal_insert]
  simp [empty, isNonterminal]

theorem mem_wordsOf_foldl_insert {category : Symbol} {word : Word} :
    word ∈ (entries.foldl insert (empty name)).wordsOf category ↔
      ∃ listed, .words category listed ∈ entries ∧ word ∈ listed := by
  rw [foldl_insert_iff (P := fun g => word ∈ g.wordsOf category) fun _ _ => mem_wordsOf_insert]
  simp [empty, wordsOf]

theorem isCategory_foldl_insert {sym : Symbol} :
    (entries.foldl insert (empty name)).isCategory sym = true ↔
      ∃ listed, .words sym listed ∈ entries := by
  rw [foldl_insert_iff (P := fun g => g.isCategory sym = true) fun _ _ => isCategory_insert]
  simp [empty, isCategory]

end Grammar

end NaturalLanguage
