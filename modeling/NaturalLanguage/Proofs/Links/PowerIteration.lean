import Mathlib.Algebra.BigOperators.Fin
import Mathlib.Analysis.Real.Sqrt
import Mathlib.Data.Matrix.Mul
import Mathlib.LinearAlgebra.Matrix.DotProduct
import NaturalLanguage.Proofs.Links.Neighbourhood

/-!
# Scores in exact arithmetic

With real numbers in place of double precision, the rounds of refinement are power iteration on the
matrix of the links between the pages around the query. A round multiplies by this matrix and its
transpose and scales the results. Scaling goes through the products, so it makes no difference that
the hubs are computed from authorities that are not yet scaled, while the next authorities are
computed from hubs that are.

* `unit`: a vector scaled to length one; `unit_smul`: a positive factor before makes no difference.
* `linkMatrix`: the links between some pages.
* `hub_round`, `authority_round`: one round.
* `hub_scores`, `authority_scores`: all rounds.
* `scores_power`: the scores of the pages around a query.
-/

namespace NaturalLanguage

open Matrix

/-- Exact arithmetic. -/
noncomputable instance : Scalar ℝ where
  one := 1
  emptySum := 0
  add := (· + ·)
  mul := (· * ·)
  div := (· / ·)
  sqrt := Real.sqrt
  isPositive x := decide (0 < x)

namespace Scalar

variable {n : ℕ}

/-! ### Vectors of length one -/

/-- A vector divided by its length; the zero vector stays as it is. -/
noncomputable def unit (x : Fin n → ℝ) : Fin n → ℝ := (√(x ⬝ᵥ x))⁻¹ • x

theorem dotProduct_self_pos {x : Fin n → ℝ} (h : x ≠ 0) : 0 < x ⬝ᵥ x := by
  have hnonneg : 0 ≤ x ⬝ᵥ x := Finset.sum_nonneg fun i _ => mul_self_nonneg (x i)
  exact hnonneg.lt_of_ne fun heq => h (dotProduct_self_eq_zero.1 heq.symm)

@[simp] theorem unit_zero : unit (0 : Fin n → ℝ) = 0 := smul_zero _

theorem exists_unit_eq_smul (x : Fin n → ℝ) : ∃ c : ℝ, 0 < c ∧ unit x = c • x := by
  by_cases hx : x = 0
  · exact ⟨1, one_pos, by rw [hx, unit_zero, smul_zero]⟩
  · exact ⟨_, inv_pos.2 (Real.sqrt_pos.2 (dotProduct_self_pos hx)), rfl⟩

/-- Scaling a vector before it is divided by its length makes no difference. -/
theorem unit_smul {c : ℝ} (hc : 0 < c) (x : Fin n → ℝ) : unit (c • x) = unit x := by
  have hlength : √((c • x) ⬝ᵥ (c • x)) = c * √(x ⬝ᵥ x) := by
    rw [smul_dotProduct, dotProduct_smul, smul_smul, smul_eq_mul, Real.sqrt_mul (mul_self_nonneg c),
      Real.sqrt_mul_self hc.le]
  rw [unit, hlength, smul_smul, unit, mul_inv, mul_right_comm, inv_mul_cancel₀ hc.ne', one_mul]

/-- A vector divided by its length has length one, unless it is zero. -/
theorem unit_eq_zero_or (x : Fin n → ℝ) : unit x = 0 ∨ unit x ⬝ᵥ unit x = 1 := by
  by_cases hx : x = 0
  · exact .inl (by rw [hx, unit_zero])
  · right
    have hpos := dotProduct_self_pos hx
    rw [unit, smul_dotProduct, dotProduct_smul, smul_smul, ← mul_inv, Real.mul_self_sqrt hpos.le,
      smul_eq_mul, inv_mul_cancel₀ hpos.ne']

theorem unit_nonneg {x : Fin n → ℝ} (h : 0 ≤ x) : 0 ≤ unit x :=
  smul_nonneg (inv_nonneg.2 (Real.sqrt_nonneg _)) h

/-- Numbers that are all zero, or whose squares add up to one. -/
def ZeroOrUnit (xs : List ℝ) : Prop := (∀ x ∈ xs, x = 0) ∨ (xs.map (· ^ 2)).sum = 1

theorem zeroOrUnit_unit {n : ℕ} (x : Fin n → ℝ) : ZeroOrUnit ((List.finRange n).map (unit x)) := by
  obtain hzero | hunit := unit_eq_zero_or x
  · left
    intro y hy
    obtain ⟨i, -, rfl⟩ := List.mem_map.1 hy
    rw [hzero, Pi.zero_apply]
  · right
    rw [List.map_map, ← List.ofFn_eq_map, List.sum_ofFn, ← hunit]
    exact Finset.sum_congr rfl fun i _ => pow_two _

/-! ### Sums and lengths -/

theorem sum_eq (xs : List ℝ) : sum xs = xs.sum := List.sum_eq_foldl.symm

theorem norm_eq (v : Vector ℝ n) : norm v = √(v.get ⬝ᵥ v.get) := by
  have hlist : v.toList = List.ofFn v.get := by
    refine List.ext_getElem (by simp) fun i _ _ => ?_
    rw [Vector.getElem_toList, List.getElem_ofFn]
    rfl
  -- the sum of the squares of the entries is the product of the vector with itself
  rw [norm, sum_eq, hlist, List.map_ofFn, List.sum_ofFn]
  rfl

theorem get_normalize (v : Vector ℝ n) : (normalize v).get = unit v.get := by
  have hpositive : isPositive (norm v) = true ↔ 0 < norm v := decide_eq_true_iff
  rw [normalize]
  split
  · ext i
    show (v.map (div · (norm v)))[i] = (√(v.get ⬝ᵥ v.get))⁻¹ * v[i]
    rw [Fin.getElem_fin, Vector.getElem_map, ← norm_eq, mul_comm, ← div_eq_mul_inv]
    rfl
  · next h =>
    -- a vector that is not scaled has no length, so it is zero
    have hzero : v.get = 0 := by
      by_contra hne
      rw [hpositive, norm_eq] at h
      exact h (Real.sqrt_pos.2 (dotProduct_self_pos hne))
    rw [hzero, unit_zero]

end Scalar

namespace LinkGraph

/-- The links of a graph between some pages: the entry of two pages is one if the first one links to
the second one, and else zero. -/
def linkMatrix (g : LinkGraph) (pages : List String) :
    Matrix (Fin pages.length) (Fin pages.length) ℝ :=
  .of fun p q => if g.linksTo (pages.get p) (pages.get q) then 1 else 0

theorem linkMatrix_apply (g : LinkGraph) (pages : List String) (p q : Fin pages.length) :
    g.linkMatrix pages p q = if g.linksTo (pages.get p) (pages.get q) then 1 else 0 := rfl

theorem linkMatrix_nonneg (g : LinkGraph) (pages : List String) (p q : Fin pages.length) :
    0 ≤ g.linkMatrix pages p q := by
  rw [linkMatrix_apply]
  split
  · exact zero_le_one
  · exact le_rfl

end LinkGraph

namespace Neighbourhood

/-- Summing up the scores of linked pages is multiplying with the matrix of the links. -/
theorem get_gather {n : ℕ} {linked : Vector (List (Fin n)) n} {M : Matrix (Fin n) (Fin n) ℝ}
    (hnodup : ∀ i, (linked.get i).Nodup) (hM : ∀ i j, M i j = if j ∈ linked.get i then 1 else 0)
    (scores : Vector ℝ n) : (gather linked scores).get = M *ᵥ scores.get := by
  ext i
  have hsum : (gather linked scores).get i = ((linked.get i).map scores.get).sum := by
    show (gather linked scores)[i] = _
    rw [gather, Fin.getElem_fin, Vector.getElem_map, Scalar.sum_eq]
    rfl
  -- no position is listed twice, so the sum over the list is one over all positions
  rw [hsum, ← List.sum_toFinset _ (hnodup i)]
  simp [mulVec, dotProduct, hM, ← List.mem_toFinset]

variable {h : Neighbourhood} {g : LinkGraph} (hlinked : h.LinkedAsIn g)

include hlinked

theorem get_gather_sources (scores : Vector ℝ h.pages.length) :
    (gather h.sources scores).get = (g.linkMatrix h.pages)ᵀ *ᵥ scores.get := by
  refine get_gather hlinked.nodup_sources (fun i j => ?_) scores
  exact (if_congr (hlinked.mem_sources_iff i j) rfl rfl).symm

theorem get_gather_targets (scores : Vector ℝ h.pages.length) :
    (gather h.targets scores).get = g.linkMatrix h.pages *ᵥ scores.get := by
  refine get_gather hlinked.nodup_targets (fun i j => ?_) scores
  exact (if_congr (hlinked.mem_targets_iff i j) rfl rfl).symm

/-- One round from hubs that are known up to a positive factor. -/
theorem authority_round {s : Scores ℝ h.pages.length} {c : ℝ} (hc : 0 < c)
    {x : Fin h.pages.length → ℝ} (hs : s.hub.get = c • x) :
    (h.round s).authority.get = Scalar.unit ((g.linkMatrix h.pages)ᵀ *ᵥ x) := by
  rw [round, Scalar.get_normalize, get_gather_sources hlinked, hs, mulVec_smul,
    Scalar.unit_smul hc]

/-- The hubs are computed from the authorities of the same round, before these are scaled. -/
theorem hub_round {s : Scores ℝ h.pages.length} {c : ℝ} (hc : 0 < c)
    {x : Fin h.pages.length → ℝ} (hs : s.hub.get = c • x) : (h.round s).hub.get =
      Scalar.unit ((g.linkMatrix h.pages * (g.linkMatrix h.pages)ᵀ) *ᵥ x) := by
  rw [round, Scalar.get_normalize, get_gather_targets hlinked, get_gather_sources hlinked, hs,
    mulVec_mulVec, mulVec_smul, Scalar.unit_smul hc]

/-- After any number of rounds the hubs are those of power iteration, up to a positive factor. -/
theorem exists_hub_scores (rounds : ℕ) : ∃ c : ℝ, 0 < c ∧ (h.scores rounds).hub.get =
    c • ((g.linkMatrix h.pages * (g.linkMatrix h.pages)ᵀ) ^ rounds *ᵥ 1) := by
  induction rounds with
  | zero =>
    refine ⟨1, one_pos, ?_⟩
    rw [pow_zero, one_mulVec, one_smul]
    ext i
    show (Vector.replicate h.pages.length (1 : ℝ))[i] = 1
    rw [Fin.getElem_fin, Vector.getElem_replicate]
  | succ rounds ih =>
    -- the factor of the earlier rounds is lost in scaling, and a new one comes in its place
    obtain ⟨c, hc, hscores⟩ := ih
    have hround := hub_round hlinked hc hscores
    rw [mulVec_mulVec, ← pow_succ'] at hround
    obtain ⟨d, hd, hunit⟩ := Scalar.exists_unit_eq_smul
      ((g.linkMatrix h.pages * (g.linkMatrix h.pages)ᵀ) ^ (rounds + 1) *ᵥ 1)
    exact ⟨d, hd, hround.trans hunit⟩

/-- The hubs after at least one round. -/
theorem hub_scores (rounds : ℕ) : (h.scores (rounds + 1)).hub.get =
    Scalar.unit ((g.linkMatrix h.pages * (g.linkMatrix h.pages)ᵀ) ^ (rounds + 1) *ᵥ 1) := by
  obtain ⟨c, hc, hscores⟩ := exists_hub_scores hlinked rounds
  have hround := hub_round hlinked hc hscores
  rwa [mulVec_mulVec, ← pow_succ'] at hround

/-- The authorities after at least one round. -/
theorem authority_scores (rounds : ℕ) : (h.scores (rounds + 1)).authority.get =
    Scalar.unit (((g.linkMatrix h.pages)ᵀ *
      (g.linkMatrix h.pages * (g.linkMatrix h.pages)ᵀ) ^ rounds) *ᵥ 1) := by
  obtain ⟨c, hc, hscores⟩ := exists_hub_scores hlinked rounds
  have hround := authority_round hlinked hc hscores
  rwa [mulVec_mulVec] at hround

end Neighbourhood

namespace LinkGraph

open Scalar

/-- What power iteration makes of the hubs and the authorities of some pages. -/
noncomputable def powerScores (g : LinkGraph) (pages : List String) (rounds : ℕ) :
    List (PageScore ℝ) :=
  let A := g.linkMatrix pages
  (List.finRange pages.length).map fun p =>
    ⟨pages.get p, unit ((A * Aᵀ) ^ rounds *ᵥ 1) p, unit ((Aᵀ * (A * Aᵀ) ^ (rounds - 1)) *ᵥ 1) p⟩

/-- The scores around a query come from power iteration on the links between its pages. -/
theorem scores_eq_powerScores (g : LinkGraph) (query : String) {rounds : ℕ} (h : 1 ≤ rounds) :
    g.scores query rounds = g.powerScores (g.expand (g.relevant query)) rounds := by
  obtain ⟨rounds, rfl⟩ := Nat.exists_eq_add_of_le' h
  have hlinked := Neighbourhood.linkedAsIn_around g query
  refine List.map_congr_left fun p _ => ?_
  have hhub := congrFun (Neighbourhood.hub_scores hlinked rounds) p
  have hauthority := congrFun (Neighbourhood.authority_scores hlinked rounds) p
  exact congrArg₂ (PageScore.mk _) hhub hauthority

/-- Only the links between the pages count. -/
theorem powerScores_congr {g g' : LinkGraph} {pages : List String}
    (h : ∀ p ∈ pages, ∀ q ∈ pages, g.linksTo p q = g'.linksTo p q) (rounds : ℕ) :
    g.powerScores pages rounds = g'.powerScores pages rounds := by
  have hmatrix : g.linkMatrix pages = g'.linkMatrix pages := by
    ext p q
    rw [linkMatrix_apply, linkMatrix_apply,
      h _ (pages.get_mem p) _ (pages.get_mem q)]
  rw [powerScores, powerScores, hmatrix]

theorem mulVec_nonneg {n : ℕ} {M : Matrix (Fin n) (Fin n) ℝ} {x : Fin n → ℝ}
    (hM : ∀ i j, 0 ≤ M i j) (hx : 0 ≤ x) : 0 ≤ M *ᵥ x :=
  fun i => dotProduct_nonneg_of_nonneg (hM i) hx

/-- Power iteration starts with ones, so no score is negative. -/
theorem pow_mulVec_nonneg (g : LinkGraph) (pages : List String) (rounds : ℕ) :
    0 ≤ (g.linkMatrix pages * (g.linkMatrix pages)ᵀ) ^ rounds *ᵥ 1 := by
  induction rounds with
  | zero =>
    rw [pow_zero, one_mulVec]
    exact zero_le_one
  | succ rounds ih =>
    -- one more round sums up the scores of the sources and then those of the targets
    rw [pow_succ', ← mulVec_mulVec, ← mulVec_mulVec]
    have hsources := mulVec_nonneg (fun p q => g.linkMatrix_nonneg pages q p) ih
    exact mulVec_nonneg (g.linkMatrix_nonneg pages) hsources

theorem powerScores_nonneg {g : LinkGraph} {pages : List String} {rounds : ℕ}
    {score : PageScore ℝ} (h : score ∈ g.powerScores pages rounds) :
    0 ≤ score.hub ∧ 0 ≤ score.authority := by
  obtain ⟨p, -, rfl⟩ := List.mem_map.1 h
  refine ⟨unit_nonneg (g.pow_mulVec_nonneg pages rounds) p, unit_nonneg ?_ p⟩
  rw [← mulVec_mulVec]
  exact mulVec_nonneg (fun p q => g.linkMatrix_nonneg pages q p) (g.pow_mulVec_nonneg pages _)

/-- The scores depend on the pages around the query and the links between them only. -/
theorem scores_congr {g g' : LinkGraph} {query query' : String} {rounds : ℕ} (h : 1 ≤ rounds)
    (hpages : ∀ page, page ∈ g'.expand (g'.relevant query') ↔ page ∈ g.expand (g.relevant query))
    (hlinks : ∀ p ∈ g.expand (g.relevant query), ∀ q ∈ g.expand (g.relevant query),
      g'.linksTo p q = g.linksTo p q) :
    (g'.scores query' rounds : List (PageScore ℝ)) = g.scores query rounds := by
  rw [scores_eq_powerScores g' query' h, scores_eq_powerScores g query h, expand_congr hpages,
    powerScores_congr hlinks]

/-- In exact arithmetic the scores after at least one round are power iteration on the matrix of the
links between the pages around the query. Hubs and authorities are each all zero or of length one,
and no score is negative. The scores depend on the pages around the query and on the links between
them only, and so neither on the order in which pages and links are listed nor on repetitions. -/
theorem scores_power (g : LinkGraph) (query : String) {rounds : ℕ} (h : 1 ≤ rounds) :
    let pages := g.expand (g.relevant query)
    let A := g.linkMatrix pages
    let scores : List (PageScore ℝ) := g.scores query rounds
    (∃ c d : ℝ, 0 < c ∧ 0 < d ∧ scores = (List.finRange pages.length).map fun p =>
      ⟨pages[p], (c • ((A * Aᵀ) ^ rounds *ᵥ 1)) p,
        (d • ((Aᵀ * (A * Aᵀ) ^ (rounds - 1)) *ᵥ 1)) p⟩) ∧
    ZeroOrUnit (scores.map (·.hub)) ∧ ZeroOrUnit (scores.map (·.authority)) ∧
    (∀ score ∈ scores, 0 ≤ score.hub ∧ 0 ≤ score.authority) ∧
    (∀ (g' : LinkGraph) (query' : String),
      (∀ page, page ∈ g'.expand (g'.relevant query') ↔ page ∈ pages) →
      (∀ p ∈ pages, ∀ q ∈ pages, g'.linksTo p q = g.linksTo p q) →
        g'.scores query' rounds = scores) ∧
    ∀ rows rows' : List (String × List String),
      (∀ page, (∃ row ∈ rows, page = row.1 ∨ page ∈ row.2) ↔
        ∃ row ∈ rows', page = row.1 ∨ page ∈ row.2) →
      (∀ source target, (∃ row ∈ rows, row.1 = source ∧ target ∈ row.2) ↔
        ∃ row ∈ rows', row.1 = source ∧ target ∈ row.2) →
        ((ofRows rows).scores query rounds : List (PageScore ℝ)) =
          (ofRows rows').scores query rounds := by
  intro pages A scores
  have hscores : scores = g.powerScores pages rounds := scores_eq_powerScores g query h
  refine ⟨?_, ?_, ?_, ?_, ?_, ?_⟩
  · obtain ⟨c, hc, hhub⟩ := exists_unit_eq_smul ((A * Aᵀ) ^ rounds *ᵥ 1)
    obtain ⟨d, hd, hauthority⟩ := exists_unit_eq_smul ((Aᵀ * (A * Aᵀ) ^ (rounds - 1)) *ᵥ 1)
    refine ⟨c, d, hc, hd, ?_⟩
    rw [hscores, powerScores, hhub, hauthority]
    rfl
  · rw [hscores, powerScores, List.map_map]
    exact zeroOrUnit_unit _
  · rw [hscores, powerScores, List.map_map]
    exact zeroOrUnit_unit _
  · intro score hscore
    rw [hscores] at hscore
    exact powerScores_nonneg hscore
  · exact fun g' query' hpages hlinks => scores_congr h hpages hlinks
  · intro rows rows' hnames hlisted
    have hlinks : ∀ source target,
        (ofRows rows).linksTo source target = (ofRows rows').linksTo source target := by
      intro source target
      rw [Bool.eq_iff_iff, linksTo_ofRows, linksTo_ofRows, hlisted]
    have hpages := expand_relevant_congr
      (fun page => by rw [mem_pages_ofRows, mem_pages_ofRows, hnames]) hlinks query
    exact scores_congr h (fun page => by rw [hpages]) fun p _ q _ => hlinks p q

/-- Three pages, the first of which links to both others. -/
def chained : List (String × List String) := [("a", ["b", "c"]), ("b", ["c"])]

/-- The same pages and links in another order, with repetitions. -/
def relisted : List (String × List String) := [("b", ["c", "c"]), ("c", []), ("a", ["c", "b"])]

/-- The same pages with others that are not linked with them. -/
def surrounded : List (String × List String) := ("y", ["z"]) :: chained

theorem scores_power_chained :
    1 ≤ 1 ∧ ZeroOrUnit (((ofRows chained).scores "a" 1).map (·.hub)) ∧
    ((ofRows surrounded).scores "a" 1 : List (PageScore ℝ)) = (ofRows chained).scores "a" 1 ∧
    ((ofRows relisted).scores "a" 1 : List (PageScore ℝ)) = (ofRows chained).scores "a" 1 := by
  have hchained : ∀ page, page ∈ (ofRows chained).expand ((ofRows chained).relevant "a") ↔
      page = "a" ∨ page = "b" ∨ page = "c" := by
    intro page
    simp only [mem_expand_iff, mem_relevant_iff, mem_pages_ofRows, linksTo_ofRows]
    simp [chained]
  have hsurrounded : ∀ page, page ∈ (ofRows surrounded).expand ((ofRows surrounded).relevant "a") ↔
      page = "a" ∨ page = "b" ∨ page = "c" := by
    intro page
    simp only [mem_expand_iff, mem_relevant_iff, mem_pages_ofRows, linksTo_ofRows]
    simpa [surrounded, chained] using Or.inr
  have hlinks : ∀ p ∈ (ofRows chained).expand ((ofRows chained).relevant "a"),
      ∀ q ∈ (ofRows chained).expand ((ofRows chained).relevant "a"),
        (ofRows surrounded).linksTo p q = (ofRows chained).linksTo p q := by
    intro p hp q hq
    obtain rfl | rfl | rfl := (hchained p).1 hp <;> obtain rfl | rfl | rfl := (hchained q).1 hq <;>
      decide
  have hnames : ∀ page, (∃ row ∈ relisted, page = row.1 ∨ page ∈ row.2) ↔
      ∃ row ∈ chained, page = row.1 ∨ page ∈ row.2 := by
    intro page
    simp only [relisted, chained, List.mem_cons, List.not_mem_nil, or_false, exists_eq_or_imp,
      exists_eq_left]
    grind
  have hlisted : ∀ source target, (∃ row ∈ relisted, row.1 = source ∧ target ∈ row.2) ↔
      ∃ row ∈ chained, row.1 = source ∧ target ∈ row.2 := by
    intro source target
    simp only [relisted, chained, List.mem_cons, List.not_mem_nil, or_false, exists_eq_or_imp,
      exists_eq_left]
    grind
  obtain ⟨-, hhub, -, -, hcongr, hrows⟩ := scores_power (ofRows chained) "a" (le_refl 1)
  have hpages := fun page => (hsurrounded page).trans (hchained page).symm
  exact ⟨le_refl 1, hhub, hcongr _ _ hpages hlinks, hrows _ _ hnames hlisted⟩

end LinkGraph

end NaturalLanguage
