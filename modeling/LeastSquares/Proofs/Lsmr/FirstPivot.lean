import Mathlib
import LeastSquares.Proofs.Lsmr.RescaledExit

/-!
# LSMR: the first pivot

The first pivot is the factor by which the damped operator stretches the normal residual at the
start.  No later estimate of the largest `rhobar` is smaller, and no `rhotemp` exceeds what the
damped operator does to the current vector, so from it and from a bound on the operator it can be
told whether the seeds of the condition number show.
-/

namespace LeastSquares.Lsmr

open Exact
open LinearMap (adjoint)

variable {A : Type} [LinearOperator A ℝ] {a : A} {m n : ℕ}
  {M : EuclideanSpace ℝ (Fin n) →ₗ[ℝ] EuclideanSpace ℝ (Fin m)} {w : Workspace ℝ}
  {rhs x : Array ℝ} {p : Params ℝ} {s t : State ℝ} {g : Basis ℝ} {q : Turn ℝ} {rule : Stop}

/-! ## The stretch of a vector -/

noncomputable def stretch (M : EuclideanSpace ℝ (Fin n) →ₗ[ℝ] EuclideanSpace ℝ (Fin m))
    (damp : ℝ) (y : EuclideanSpace ℝ (Fin n)) : ℝ :=
  Real.sqrt (‖M y‖ ^ 2 + damp ^ 2 * ‖y‖ ^ 2) / ‖y‖

section Stretch

variable {c damp : ℝ} {y : EuclideanSpace ℝ (Fin n)}

theorem stretch_nonneg : 0 ≤ stretch M damp y := div_nonneg (Real.sqrt_nonneg _) (norm_nonneg _)

theorem stretch_smul (hc : c ≠ 0) : stretch M damp (c • y) = stretch M damp y := by
  have hsq : ‖M (c • y)‖ ^ 2 + damp ^ 2 * ‖c • y‖ ^ 2 =
      |c| ^ 2 * (‖M y‖ ^ 2 + damp ^ 2 * ‖y‖ ^ 2) := by
    rw [map_smul, norm_smul, norm_smul, Real.norm_eq_abs]
    ring
  rw [stretch, hsq, sqrt_sq_mul (abs_pos.2 hc), norm_smul, Real.norm_eq_abs,
    mul_div_mul_left _ _ (abs_pos.2 hc).ne', stretch]

theorem stretch_operator (hc : 0 < c) : stretch (c • M) (c * damp) y = c * stretch M damp y := by
  have hsq : ‖(c • M) y‖ ^ 2 + (c * damp) ^ 2 * ‖y‖ ^ 2 =
      c ^ 2 * (‖M y‖ ^ 2 + damp ^ 2 * ‖y‖ ^ 2) := by
    rw [LinearMap.smul_apply, norm_smul, Real.norm_eq_abs, abs_of_pos hc]
    ring
  rw [stretch, hsq, sqrt_sq_mul hc, mul_div_assoc, stretch]

theorem stretch_sq_of_norm (h : ‖y‖ = 1) : stretch M damp y ^ 2 = ‖M y‖ ^ 2 + damp ^ 2 := by
  rw [stretch, h, one_pow, mul_one, div_one, Real.sq_sqrt (by positivity)]

end Stretch

theorem stretch_le {damp k : ℝ} {y : EuclideanSpace ℝ (Fin n)} (hk : 0 ≤ k)
    (h : ‖M y‖ ^ 2 + damp ^ 2 * ‖y‖ ^ 2 ≤ k ^ 2 * ‖y‖ ^ 2) : stretch M damp y ≤ k := by
  refine div_le_of_le_mul₀ (norm_nonneg _) hk (Real.sqrt_le_iff.2 ⟨by positivity, ?_⟩)
  rwa [mul_pow]

theorem stretch_adjoint_pos (damp : ℝ) {z : EuclideanSpace ℝ (Fin m)} (h : adjoint M z ≠ 0) :
    0 < stretch M damp (adjoint M z) := by
  have himage : M (adjoint M z) ≠ 0 := by
    intro hzero
    refine h (inner_self_eq_zero (𝕜 := ℝ).1 ?_)
    rw [LinearMap.adjoint_inner_left, hzero, inner_zero_right]
  have hpos := norm_pos_iff.2 himage
  exact div_pos (Real.sqrt_pos.2 (by positivity)) (norm_pos_iff.2 h)

section Pivot

variable {damp pivot : ℝ} {b : EuclideanSpace ℝ (Fin m)} {x₀ : EuclideanSpace ℝ (Fin n)}

theorem State.Regular.stretch_sq (hs : s.Regular M damp b x₀) (hg : Basis.Extends M s.basis g) :
    stretch M damp (vec n s.basis.v) ^ 2 = s.basis.alpha ^ 2 + damp ^ 2 + g.beta ^ 2 := by
  obtain ⟨U, V, -, -, hbi⟩ := hs.orthogonal
  rw [stretch_sq_of_norm hbi.norm_v, hbi.norm_sq_map hg.beta_nonneg hg.norm_u hg.residual]
  ring

/-- What a loop head says about the seeds of the condition number and the first pivot.  Before the
first iteration no rotation has taken anything from the pivot that comes next. -/
structure State.Seeded (M : EuclideanSpace ℝ (Fin n) →ₗ[ℝ] EuclideanSpace ℝ (Fin m))
    (damp pivot : ℝ) (s : State ℝ) : Prop where
  alphabar_le : s.factors.alphabar ≤ s.basis.alpha
  cbar_le : s.factors.cbar ≤ 1
  one_le_largest : 1 ≤ s.largest
  smallest_le : s.smallest ≤ 1e100
  pivot : s.factors.alphabar = s.basis.alpha ∧ s.factors.cbar = 1 ∧
    stretch M damp (vec n s.basis.v) = pivot ∨ pivot ≤ s.largest

variable (hs : s.Regular M damp b x₀) (hg : Basis.Extends M s.basis g)
  (ht : q.Rotates damp g s.factors)

include hs hg ht

theorem State.Regular.rhotemp_eq (halphabar : s.factors.alphabar = s.basis.alpha)
    (hcbar : s.factors.cbar = 1) : q.rhotemp = stretch M damp (vec n s.basis.v) := by
  rw [ht.rhotemp, hcbar, one_mul, ← sq_eq_sq₀ ht.rho_pos.le stretch_nonneg, hs.stretch_sq hg,
    ht.rho_sq, halphabar]

theorem State.Seeded.rhotemp_le (hseeds : s.Seeded M damp pivot) :
    q.rhotemp ≤ stretch M damp (vec n s.basis.v) := by
  have hrho : q.rho ≤ stretch M damp (vec n s.basis.v) := by
    refine le_of_sq_le_sq ?_ stretch_nonneg
    rw [hs.stretch_sq hg, ht.rho_sq]
    have hsq := pow_le_pow_left₀ hs.factors.alphabar.le hseeds.alphabar_le 2
    linarith
  rw [ht.rhotemp]
  exact (mul_le_of_le_one_left ht.rho_pos.le hseeds.cbar_le).trans hrho

theorem State.Seeded.pivot_le (hseeds : s.Seeded M damp pivot) :
    pivot ≤ max s.largest q.rhotemp := by
  rcases hseeds.pivot with ⟨halphabar, hcbar, rfl⟩ | hle
  · exact le_max_of_le_right (hs.rhotemp_eq hg ht halphabar hcbar).ge
  · exact le_max_of_le_left hle

theorem State.Seeded.turned (hd : q.Damps s.factors) (hseeds : s.Seeded M damp pivot) :
    (s.turned g q).Seeded M damp pivot := by
  have hc : q.c ≤ 1 := by nlinarith [hd.c_sq_add, sq_nonneg q.s]
  have hcbar : q.cbar ≤ 1 := by nlinarith [ht.cbar_sq, sq_nonneg q.sbar]
  have hrhotemp : q.rhotemp ≤ q.rhobar := by
    rw [ht.rhotemp, ← ht.cbar_mul]
    exact mul_le_of_le_one_left ht.rhobar_pos.le hcbar
  exact
    { alphabar_le := by
        refine (le_of_eq ht.alphabar).trans ?_
        exact mul_le_of_le_one_left (hg.alpha_nonneg hs.alpha.le) hc
      cbar_le := hcbar
      one_le_largest := by
        rw [largest_turned]
        exact le_max_of_le_left hseeds.one_le_largest
      smallest_le := by
        rw [smallest_turned]
        exact min_le_of_left_le hseeds.smallest_le
      pivot := by
        rw [largest_turned]
        exact .inr ((hseeds.pivot_le hs hg ht).trans (max_le_max_left _ hrhotemp)) }

end Pivot

section Seeds

variable (ha : Realizes a M) (hw : w.Sized m n) (hrhs : rhs.size = m) (hx : x.size = n)

include ha hw hrhs hx

theorem stretch_firstBasis (starts : firstBasis w a rhs x = .done g)
    (moves : ((State.initial w.hbar x g).normAr == 0) = false) (damp : ℝ) :
    stretch M damp (vec n g.v) = stretch M damp (adjoint M (vec m rhs - M (vec n x))) := by
  obtain ⟨g', hfirst, hg⟩ := firstBasis_done ha hw hrhs hx
  cases starts.symm.trans hfirst
  have hne : g.beta * g.alpha ≠ 0 := (mul_comm _ _).trans_ne (of_decide_eq_false moves)
  rw [hg.residual, map_smul, hg.parameter, smul_smul, stretch_smul hne]

theorem Head.seeded (head : Head w a rhs x p s) :
    s.Seeded M p.damp (stretch M p.damp (adjoint M (vec m rhs - M (vec n x)))) := by
  induction head with
  | first starts moves =>
    exact
      { alphabar_le := le_rfl
        cbar_le := le_rfl
        one_le_largest := le_max_right _ _
        smallest_le := by simp [State.smallest, State.initial]
        pivot := .inl ⟨rfl, rfl, stretch_firstBasis ha hw hrhs hx starts moves p.damp⟩ }
  | next head goes _ ih =>
    have hs := (head.tracks ha hw hrhs hx).regular
    obtain ⟨g, q, hq⟩ := hs.exists_turns ha
    have ht := hq.rotates hs
    rw [(hq.of_next goes).1]
    exact ih.turned hs (hq.basis_extends ha hs) ht (hq.damps hs)

theorem Head.condA_first (head : Head w a rhs x p s) (hcount : s.iteration = 0)
    (hq : s.Turns a p.damp g q) : (s.turned g q).condA =
      max 1 (stretch M p.damp (adjoint M (vec m rhs - M (vec n x)))) /
        min 1e100 (stretch M p.damp (adjoint M (vec m rhs - M (vec n x)))) := by
  have hs := (head.tracks ha hw hrhs hx).regular
  cases head with
  | @first g₀ starts moves =>
    have hrhotemp : q.rhotemp = stretch M p.damp (adjoint M (vec m rhs - M (vec n x))) :=
      (hs.rhotemp_eq (hq.basis_extends ha hs) (hq.rotates hs) rfl rfl).trans
        (stretch_firstBasis ha hw hrhs hx starts moves p.damp)
    have hlargest : (State.initial w.hbar x g₀).largest = 1 := max_eq_right zero_le_one
    have hsmallest : (State.initial w.hbar x g₀).smallest = 1e100 := rfl
    rw [State.condA_turned, hrhotemp, hlargest, hsmallest]
  | next _ goes _ => exact absurd ((iteration_of_next goes).symm.trans hcount) (Nat.succ_ne_zero _)

end Seeds

section First

variable (ha : Realizes a M) (hw : w.Sized m n) (hrhs : rhs.size = m) (hx : x.size = n)
  (hne : adjoint M (vec m rhs - M (vec n x)) ≠ 0)

include ha hw hrhs hx hne

theorem Exit.condA_first (exit : Exit w a rhs x p t rule) (hcount : t.iteration = 1) :
    t.condA = max 1 (stretch M p.damp (adjoint M (vec m rhs - M (vec n x)))) /
      min 1e100 (stretch M p.damp (adjoint M (vec m rhs - M (vec n x)))) := by
  obtain ⟨g₀, starts, -⟩ := firstBasis_done ha hw hrhs hx
  obtain ⟨s, g, q, head, hq, rfl, -⟩ :=
    exit.last ha hw hrhs hx starts (moves_of_gradient ha hw hrhs hx starts hne)
  exact head.condA_first ha hw hrhs hx (Nat.succ_injective hcount) hq

theorem Exit.iteration_eq_one (exit : Exit w a rhs x p t rule) (hlimit : p.maxIters ≤ 1 ∨
    0 < p.conlim ∧ p.conlim ≤ max 1 (stretch M p.damp (adjoint M (vec m rhs - M (vec n x)))) /
      min 1e100 (stretch M p.damp (adjoint M (vec m rhs - M (vec n x))))) : t.iteration = 1 := by
  obtain ⟨g₀, starts, -⟩ := firstBasis_done ha hw hrhs hx
  obtain ⟨s, g, q, head, hq, rfl, -⟩ :=
    exit.last ha hw hrhs hx starts (moves_of_gradient ha hw hrhs hx starts hne)
  by_contra hcount
  obtain ⟨s₀, g', q', head₀, hzero, hq', hends⟩ :=
    head.passed ha hw hrhs hx (Nat.pos_of_ne_zero fun h => hcount (congrArg (· + 1) h))
  have hcond := head₀.condA_first ha hw hrhs hx hzero hq'
  obtain ⟨hrule, hmore⟩ := Option.or_eq_none_iff.1 hends
  rcases hlimit with hlast | ⟨hpos, hlarge⟩
  · have hcount₀ : (s₀.turned g' q').iteration = 1 := congrArg (· + 1) hzero
    simp [hcount₀, hlast] at hmore
  · have htest := (State.tests_of_stopRule? hrule).2.2
    rw [if_pos hpos, hcond] at htest
    exact htest (one_div_le_one_div_of_le hpos hlarge)

end First

end LeastSquares.Lsmr
