/-!
# Draws

Random choices are made with numbers of 32 bits from a source. The library knows two sources that
can be repeated: listed numbers, taken again and again, and a linear congruential generator. A
`Counted` source also counts the numbers drawn.

A choice among `n` items scales a number `r` to the position `r * n / 2 ^ 32`. When the fraction
that is cut off is so large that a longer number might carry into the position, a second number is
drawn to extend the first.

* `position_lt`: the position is below `n`.
* `choose`: a choice among the items of a list, which is one of them.
-/

namespace NaturalLanguage

/-- A source of numbers of 32 bits. -/
class DrawSource (σ : Type) where
  /-- The next number, and the source after it. -/
  draw : σ → UInt32 × σ

/-- Listed numbers, taken from the beginning again after the last. -/
structure Cycle where
  numbers : Array UInt32
  drawn : Nat

instance : DrawSource Cycle :=
  ⟨fun c => (c.numbers.getD (c.drawn % c.numbers.size) 0, { c with drawn := c.drawn + 1 })⟩

/-- The linear congruential generator modulo `2 ^ 64`, which gives the upper halves of its states. -/
structure Congruential where
  state : UInt64

/-- The state after one step. -/
def Congruential.step (c : Congruential) : Congruential :=
  ⟨c.state * 6364136223846793005 + 1442695040888963407⟩

instance : DrawSource Congruential := ⟨fun c => ((c.step.state >>> 32).toUInt32, c.step)⟩

/-- A source with the number of draws made. -/
structure Counted (σ : Type) where
  source : σ
  drawn : Nat

instance {σ : Type} [DrawSource σ] : DrawSource (Counted σ) :=
  ⟨fun c =>
    let (number, source) := DrawSource.draw c.source
    (number, ⟨source, c.drawn + 1⟩)⟩

namespace DrawSource

variable {σ : Type} [DrawSource σ]

/-- Draw the next number. -/
def next : StateM σ UInt32 := fun s => draw s

/-- The position that a number gives, and the fraction that is cut off, in parts of `2 ^ 32`. -/
def scale (n : Nat) (r : UInt32) : Nat × Nat :=
  (r.toNat * n / UInt32.size, r.toNat * n % UInt32.size)

/-- The position that two numbers give together. -/
def carried (n : Nat) (first second : UInt32) : Nat :=
  if UInt32.size ≤ (scale n first).2 + (scale n second).1 then (scale n first).1 + 1
  else (scale n first).1

/-- Draw a position among `n` items. -/
def position (n : Nat) : StateM σ Nat := do
  let first ← next
  -- a second number adds less than `n` to the fraction
  if UInt32.size - n < (scale n first).2 then
    let second ← next
    return carried n first second
  else return (scale n first).1

theorem scale_fst_lt {n : Nat} (h : 0 < n) (r : UInt32) : (scale n r).1 < n := by
  have hr := r.toNat_lt
  rw [scale, Nat.div_lt_iff_lt_mul (by decide), Nat.mul_comm n]
  exact Nat.mul_lt_mul_of_pos_right hr h

theorem carried_lt {n : Nat} (h : 0 < n) (first second : UInt32) : carried n first second < n := by
  have hfirst := first.toNat_lt
  have hsecond := scale_fst_lt h second
  unfold carried
  split
  · next hcarry =>
    simp only [scale, UInt32.size] at hcarry hsecond ⊢
    have hle : (first.toNat + 1) * n ≤ UInt32.size * n := Nat.mul_le_mul_right n hfirst
    simp only [UInt32.size, Nat.add_mul, Nat.one_mul] at hle
    -- the cut-off fraction and the carry together stay below one more unit
    omega
  · exact scale_fst_lt h first

theorem position_apply (n : Nat) (s : σ) :
    position n s =
      (if UInt32.size - n < (scale n (draw s).1).2 then do
          let second ← next
          return carried n (draw s).1 second
        else return (scale n (draw s).1).1 : StateM σ Nat) (draw s).2 :=
  rfl

/-- The position is that of one item. -/
theorem position_lt {n : Nat} (h : 0 < n) (s : σ) : (position n s).1 < n := by
  rw [position_apply]
  split
  · exact carried_lt h _ _
  · exact scale_fst_lt h _

/-- Choose one of the items; without items nothing is drawn. -/
def choose {α : Type} (items : List α) : StateM σ (Option { item : α // item ∈ items }) :=
  if items.isEmpty then return none
  else return items.attach[← position items.length]?

end DrawSource

end NaturalLanguage
