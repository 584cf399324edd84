import NaturalLanguage.Proofs.Decimal.Probability
import NaturalLanguage.Weighted.Derivation

/-!
# Weights from zero to one

What the table of best derivations needs of its weights: those from zero to one are comparable,
their products stay there and grow with each factor, and a product with zero is not above zero.
Nothing is asked of other weights, of sums, or of the product of three factors in another order.
Weights that compare as equal may differ as long as they are zero.

* `UnitProduct`: these requirements; double precision numbers meet them.
* `InUnit.not_le_zero_of_mul`: a product above zero has factors above zero.
* `greatest_spec`: the greatest weight of a list is in the list and not below any of its members.
-/

namespace NaturalLanguage

/-- A weight from zero to one. -/
structure InUnit {W : Type} [OfNat W 0] [OfNat W 1] [LE W] (w : W) : Prop where
  nonneg : 0 ≤ w
  le_one : w ≤ 1

/-- Weights that are ordered and multiplied like probabilities. -/
class UnitProduct (W : Type) [OfNat W 0] [OfNat W 1] [Mul W] [LE W] : Prop where
  zero_inUnit : InUnit (0 : W)
  mul_inUnit {a b : W} : InUnit a → InUnit b → InUnit (a * b)
  le_total {a b : W} : InUnit a → InUnit b → a ≤ b ∨ b ≤ a
  le_trans {a b c : W} : InUnit a → InUnit b → InUnit c → a ≤ b → b ≤ c → a ≤ c
  /-- Weights above zero that compare as equal are equal. -/
  eq_of_le_of_le {a b : W} : InUnit a → InUnit b → ¬ a ≤ 0 → a ≤ b → b ≤ a → a = b
  mul_le_mul {a b c d : W} : InUnit a → InUnit b → InUnit c → InUnit d → a ≤ b → c ≤ d →
    a * c ≤ b * d
  zero_mul_le {a : W} : InUnit a → 0 * a ≤ 0
  mul_zero_le {a : W} : InUnit a → a * 0 ≤ 0

open UnitProduct

section Laws

variable {W : Type} [OfNat W 0] [OfNat W 1] [Mul W] [LE W] [UnitProduct W] {a b : W}

namespace InUnit

theorem refl (ha : InUnit a) : a ≤ a := (le_total ha ha).elim id id

theorem le_of_not_le (ha : InUnit a) (hb : InUnit b) (h : ¬ a ≤ b) : b ≤ a :=
  (le_total ha hb).resolve_left h

/-- A product above zero has factors above zero. -/
theorem not_le_zero_of_mul (ha : InUnit a) (hb : InUnit b) (h : ¬ a * b ≤ 0) :
    ¬ a ≤ 0 ∧ ¬ b ≤ 0 := by
  have hzero : InUnit (0 : W) := zero_inUnit
  have hab : InUnit (a * b) := mul_inUnit ha hb
  -- a factor of at most zero makes a product of at most zero times the other one
  constructor
  · intro hle
    exact h (le_trans hab (mul_inUnit hzero hb) hzero
      (mul_le_mul ha hzero hb hb hle hb.refl) (zero_mul_le hb))
  · intro hle
    exact h (le_trans hab (mul_inUnit ha hzero) hzero
      (mul_le_mul ha ha hb hzero ha.refl hle) (mul_zero_le ha))

end InUnit

/-! ### The greatest weight of a list -/

variable [DecidableLE W]

/-- Keeping the greater of two weights along a list ends with a weight that is not below any of
them. -/
theorem foldl_greater_spec {ws : List W} (hws : ∀ w ∈ ws, InUnit w) (ha : InUnit a) :
    let best := ws.foldl (fun best w => if w ≤ best then best else w) a
    best ∈ a :: ws ∧ ∀ w ∈ a :: ws, w ≤ best := by
  induction ws generalizing a with
  | nil => simp [ha.refl]
  | cons w ws ih =>
    obtain ⟨hw, hws⟩ := List.forall_mem_cons.1 hws
    rw [List.foldl_cons]
    split
    · next hle =>
      obtain ⟨hmem, hbest⟩ := ih hws ha
      obtain ⟨hbesta, hbest⟩ := List.forall_mem_cons.1 hbest
      have hin := List.forall_mem_cons.2 ⟨ha, hws⟩ _ hmem
      refine ⟨?_, ?_⟩
      · rw [List.mem_cons] at hmem ⊢
        exact hmem.imp_right (List.mem_cons_of_mem _)
      · exact List.forall_mem_cons.2 ⟨hbesta, List.forall_mem_cons.2
          ⟨le_trans hw ha hin hle hbesta, hbest⟩⟩
    · next hle =>
      obtain ⟨hmem, hbest⟩ := ih hws hw
      obtain ⟨hbestw, -⟩ := List.forall_mem_cons.1 hbest
      have hin := List.forall_mem_cons.2 ⟨hw, hws⟩ _ hmem
      refine ⟨List.mem_cons_of_mem _ hmem, List.forall_mem_cons.2 ⟨?_, hbest⟩⟩
      exact le_trans ha hw hin (hw.le_of_not_le ha hle) hbestw

/-- The greatest weight of a list is in the list and not below any of its members. -/
theorem greatest_spec {ws : List W} {w : W} (hws : ∀ w ∈ ws, InUnit w)
    (h : greatest ws = some w) : w ∈ ws ∧ ∀ x ∈ ws, x ≤ w := by
  cases ws with
  | nil => cases h
  | cons a ws =>
    obtain ⟨ha, hws⟩ := List.forall_mem_cons.1 hws
    obtain rfl := Option.some.inj h
    exact foldl_greater_spec hws ha

end Laws

/-! ### Double precision numbers -/

open Decimal

theorem InUnit.exists_isAmount {x : Float} (h : InUnit x) : ∃ n, IsAmount x n :=
  Decimal.exists_isAmount h.nonneg h.le_one

/-- The comparisons with zero and one already leave out infinities and what is no number. -/
theorem InUnit.isFinite {x : Float} (h : InUnit x) : x.isFinite = true := by
  obtain ⟨n, hn⟩ := h.exists_isAmount
  exact hn.isFinite

theorem inUnit_of_isAmount {x : Float} {n : Nat} (h : IsAmount x n) : InUnit x := ⟨h.nonneg, h.le⟩

instance : UnitProduct Float where
  zero_inUnit := inUnit_of_isAmount .zero
  mul_inUnit ha hb := by
    obtain ⟨m, hm⟩ := ha.exists_isAmount
    obtain ⟨n, hn⟩ := hb.exists_isAmount
    exact inUnit_of_isAmount (hm.mul hn)
  le_total ha hb := by
    obtain ⟨m, hm⟩ := ha.exists_isAmount
    obtain ⟨n, hn⟩ := hb.exists_isAmount
    rw [hm.le_iff hn, hn.le_iff hm]
    exact Nat.le_total m n
  le_trans ha hb hc hab hbc := by
    obtain ⟨l, hl⟩ := ha.exists_isAmount
    obtain ⟨m, hm⟩ := hb.exists_isAmount
    obtain ⟨n, hn⟩ := hc.exists_isAmount
    rw [hl.le_iff hm] at hab
    rw [hm.le_iff hn] at hbc
    rw [hl.le_iff hn]
    exact Nat.le_trans hab hbc
  eq_of_le_of_le ha hb hpos hab hba := by
    obtain ⟨m, hm⟩ := ha.exists_isAmount
    obtain ⟨n, hn⟩ := hb.exists_isAmount
    rw [hm.le_iff .zero] at hpos
    rw [hm.le_iff hn] at hab
    rw [hn.le_iff hm] at hba
    obtain rfl := Nat.le_antisymm hab hba
    exact hm.eq_of_pos hn (Nat.not_le.1 hpos)
  mul_le_mul ha hb hc hd hab hcd := by
    obtain ⟨k, hk⟩ := ha.exists_isAmount
    obtain ⟨l, hl⟩ := hb.exists_isAmount
    obtain ⟨m, hm⟩ := hc.exists_isAmount
    obtain ⟨n, hn⟩ := hd.exists_isAmount
    rw [hk.le_iff hl] at hab
    rw [hm.le_iff hn] at hcd
    rw [(hk.mul hm).le_iff (hl.mul hn)]
    exact roundProduct_mono (Nat.mul_le_mul hab hcd)
  zero_mul_le ha := by
    obtain ⟨m, hm⟩ := ha.exists_isAmount
    have hzero : roundProduct (0 * m) ≤ 0 := by simp
    exact ((IsAmount.zero.mul hm).le_iff .zero).2 hzero
  mul_zero_le ha := by
    obtain ⟨m, hm⟩ := ha.exists_isAmount
    have hzero : roundProduct (m * 0) ≤ 0 := by simp
    exact ((hm.mul .zero).le_iff .zero).2 hzero

/-- Between zero and one, a number is below another exactly if it is not the other way round. -/
theorem InUnit.lt_iff_not_le {x y : Float} (hx : InUnit x) (hy : InUnit y) : x < y ↔ ¬ y ≤ x := by
  obtain ⟨m, hm⟩ := hx.exists_isAmount
  obtain ⟨n, hn⟩ := hy.exists_isAmount
  rw [hm.lt_iff hn, hn.le_iff hm, Nat.not_le]

/-- Between zero and one, numbers are equal up to the sign of zero if neither is below the other. -/
theorem InUnit.beq_iff {x y : Float} (hx : InUnit x) (hy : InUnit y) :
    (x == y) = true ↔ x ≤ y ∧ y ≤ x := by
  obtain ⟨m, hm⟩ := hx.exists_isAmount
  obtain ⟨n, hn⟩ := hy.exists_isAmount
  rw [hm.beq_iff hn, hm.le_iff hn, hn.le_iff hm]
  exact Nat.le_antisymm_iff

end NaturalLanguage
