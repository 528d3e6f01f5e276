import Mathlib
import LeastSquares.Proofs.Lsmr.Bidiagonal
import LeastSquares.Proofs.Lsmr.Descent

/-!
# LSMR: loop heads

`State.Regular` is what every loop head of an exact solve holds: the vectors are those of the
bidiagonalization and of the descent, and no pivot is zero.  After the next rotations a stopping
rule fires exactly where `zetabar` has vanished; there the solve is at a minimizer, and everywhere
else at the next loop head.
-/

namespace LeastSquares.Lsmr

open Exact
open LinearMap (adjoint)
open Module (finrank)

structure Workspace.Sized (m n : ℕ) (w : Workspace ℝ) : Prop where
  u : w.u.size = m
  v : w.v.size = n
  h : w.h.size = n
  hbar : w.hbar.size = n

theorem Workspace.sized_new (m n : ℕ) : (Workspace.new m n : Workspace ℝ).Sized m n := by
  constructor <;> simp [Workspace.new, Vec.zeros]

variable {A : Type} [LinearOperator A ℝ] {a : A} {m n : ℕ}
  {M : EuclideanSpace ℝ (Fin n) →ₗ[ℝ] EuclideanSpace ℝ (Fin m)} {damp : ℝ}
  {b : EuclideanSpace ℝ (Fin m)} {x₀ : EuclideanSpace ℝ (Fin n)} {s : State ℝ} {g : Basis ℝ}
  {t : Turn ℝ} {p : Params ℝ}

/-- A loop head. -/
structure State.Regular (M : EuclideanSpace ℝ (Fin n) →ₗ[ℝ] EuclideanSpace ℝ (Fin m)) (damp : ℝ)
    (b : EuclideanSpace ℝ (Fin m)) (x₀ : EuclideanSpace ℝ (Fin n)) (s : State ℝ) : Prop where
  sized : s.workspace.Sized m n
  size_x : s.x.size = n
  alpha : 0 < s.basis.alpha
  orthogonal : ∃ (U : Submodule ℝ _) (V : Submodule ℝ _), finrank ℝ U = s.iteration ∧
    finrank ℝ V = s.iteration ∧
      Bidiagonal M U V (vec m s.basis.u) (vec n s.basis.v) s.basis.alpha
  factors : s.factors.Regular
  residual : s.residual.Regular
  operator : s.operator.Regular
  normB : 0 < s.normB
  conjugate : normal M damp (vec n s.h) =
    adjoint M (M (vec n s.basis.v) - s.basis.alpha • vec m s.basis.u) +
      (s.factors.alphabar ^ 2 + damp ^ 2) • vec n s.basis.v
  directions : ∃ q r, normal M damp (vec n s.hbar) = (s.factors.rho * s.factors.rhobar) • q ∧
    vec n s.basis.v = s.factors.sbar • q + s.factors.cbar • r ∧
      normalResidual M damp b x₀ (vec n s.x) = s.factors.zetabar • r
  row_v : vec n s.basis.v ∈ LinearMap.range (adjoint M)
  row_h : vec n s.h ∈ LinearMap.range (adjoint M)
  row_hbar : vec n s.hbar ∈ LinearMap.range (adjoint M)
  row_x : vec n s.x - x₀ ∈ LinearMap.range (adjoint M)

/-- A state at a minimizer in the row space through the start. -/
structure State.Solves (M : EuclideanSpace ℝ (Fin n) →ₗ[ℝ] EuclideanSpace ℝ (Fin m)) (damp : ℝ)
    (b : EuclideanSpace ℝ (Fin m)) (x₀ : EuclideanSpace ℝ (Fin n)) (s : State ℝ) : Prop where
  sized : s.workspace.Sized m n
  size_x : s.x.size = n
  normal : normalResidual M damp b x₀ (vec n s.x) = 0
  row_x : vec n s.x - x₀ ∈ LinearMap.range (adjoint M)

theorem State.Regular.iteration_lt (hs : s.Regular M damp b x₀) : s.iteration < min m n := by
  obtain ⟨U, V, hU, hV, h⟩ := hs.orthogonal
  have hm := finrank_lt_of_orthogonal h.norm_u h.orthogonal_u
  have hn := finrank_lt_of_orthogonal h.norm_v h.orthogonal_v
  rw [hU, finrank_euclideanSpace_fin] at hm
  rw [hV, finrank_euclideanSpace_fin] at hn
  exact lt_min hm hn

/-! ## One iteration -/

noncomputable def State.turned (s : State ℝ) (g : Basis ℝ) (t : Turn ℝ) : State ℝ :=
  ({ s with iteration := s.iteration + 1, basis := g }).advance t

theorem State.size_hbar_turned (s : State ℝ) (g : Basis ℝ) (t : Turn ℝ) :
    (s.turned g t).hbar.size = s.hbar.size :=
  Vec.size_zipUpdate _ _ _

theorem State.size_x_turned (s : State ℝ) (g : Basis ℝ) (t : Turn ℝ) :
    (s.turned g t).x.size = s.x.size :=
  Vec.size_zipUpdate _ _ _

theorem State.size_h_turned (s : State ℝ) (g : Basis ℝ) (t : Turn ℝ) :
    (s.turned g t).h.size = s.h.size :=
  Vec.size_zipUpdate _ _ _

theorem State.vec_hbar_turned (hh : s.h.size = n) (hhbar : s.hbar.size = n) :
    vec n (s.turned g t).hbar = vec n s.h -
      (t.thetabar * t.rho / (s.factors.rho * s.factors.rhobar)) • vec n s.hbar := by
  refine (vec_zipUpdate_combination
    (a := -t.thetabar * t.rho / (s.factors.rho * s.factors.rhobar)) (b := 1) (fun old h => ?_)
    hhbar hh).trans ?_
  · ring
  · module

theorem State.vec_x_turned (hx : s.x.size = n) (hhbar : s.hbar.size = n) :
    vec n (s.turned g t).x =
      vec n s.x + (t.zeta / (t.rho * t.rhobar)) • vec n (s.turned g t).hbar := by
  refine (vec_zipUpdate_combination (a := 1) (b := t.zeta / (t.rho * t.rhobar))
    (fun xi hb => ?_) hx ((s.size_hbar_turned g t).trans hhbar)).trans ?_
  · ring
  · module

theorem State.vec_h_turned (hh : s.h.size = n) (hv : g.v.size = n) :
    vec n (s.turned g t).h = vec n g.v - (t.thetanew / t.rho) • vec n s.h := by
  refine (vec_zipUpdate_combination (a := -t.thetanew / t.rho) (b := 1) (fun old v => ?_)
    hh hv).trans ?_
  · ring
  · module

theorem Turn.Rotates.further (ht : t.Rotates damp g s.factors) (hg : Basis.Extends M s.basis g)
    (halpha : 0 ≤ s.basis.alpha) (hsbar : t.sbar ≠ 0) : 0 < g.beta ∧ 0 < g.alpha := by
  have hthetanew : t.s * g.alpha ≠ 0 := by
    rw [← ht.thetanew, ← ht.sbar_mul]
    exact mul_ne_zero hsbar ht.rhobar_pos.ne'
  have hbeta : g.beta ≠ 0 := by
    rw [← ht.s_mul]
    exact mul_ne_zero (left_ne_zero_of_mul hthetanew) ht.rho_pos.ne'
  exact ⟨lt_of_le_of_ne hg.beta_nonneg hbeta.symm,
    lt_of_le_of_ne (hg.alpha_nonneg halpha) (right_ne_zero_of_mul hthetanew).symm⟩

namespace State.Regular

variable (hs : s.Regular M damp b x₀) (hg : Basis.Extends M s.basis g)
  (ht : t.Rotates damp g s.factors)

include hs hg ht

theorem normal_h_eq : normal M damp (vec n s.h) =
    t.rho • (t.thetanew • vec n g.v + t.rho • vec n s.basis.v) := by
  refine normal_h ht hs.conjugate hg.residual ?_
  rcases hg.beta_nonneg.eq_or_lt with hzero | hpos
  · rw [← hzero, zero_smul, zero_smul]
  · rw [← hg.parameter hpos]
    module

omit hg ht in
theorem rows_turned :
    vec n (s.turned g t).hbar ∈ LinearMap.range (adjoint M) ∧
      vec n (s.turned g t).x - x₀ ∈ LinearMap.range (adjoint M) := by
  have hhbar : vec n (s.turned g t).hbar ∈ LinearMap.range (adjoint M) := by
    rw [vec_hbar_turned hs.sized.h hs.sized.hbar]
    exact sub_mem hs.row_h (Submodule.smul_mem _ _ hs.row_hbar)
  refine ⟨hhbar, ?_⟩
  rw [vec_x_turned hs.size_x hs.sized.hbar, add_sub_right_comm]
  exact add_mem hs.row_x (Submodule.smul_mem _ _ hhbar)

theorem directions_turned : ∃ q r,
    normal M damp (vec n (s.turned g t).hbar) = (t.rho * t.rhobar) • q ∧
      vec n g.v = t.sbar • q + t.cbar • r ∧
        normalResidual M damp b x₀ (vec n (s.turned g t).x) = t.zetabar • r := by
  obtain ⟨q, r, hhbar, hv, hx⟩ := hs.directions
  have hnext := normal_hbar hs.factors ht (hs.normal_h_eq hg ht) hhbar hv
  rw [← vec_hbar_turned hs.sized.h hs.sized.hbar] at hnext
  refine ⟨_, _, hnext, rotate_back ht r (vec n g.v), ?_⟩
  rw [vec_x_turned hs.size_x hs.sized.hbar]
  exact normalResidual_move ht hx hnext

omit ht in
theorem sized_turned : (s.turned g t).workspace.Sized m n where
  u := hg.sized.u
  v := hg.sized.v
  h := (s.size_h_turned g t).trans hs.sized.h
  hbar := (s.size_hbar_turned g t).trans hs.sized.hbar

theorem solves_turned (hzero : t.zetabar = 0) : (s.turned g t).Solves M damp b x₀ where
  sized := hs.sized_turned hg
  size_x := (s.size_x_turned g t).trans hs.size_x
  normal := by
    obtain ⟨q, r, -, -, hx⟩ := hs.directions_turned hg ht
    rw [hx, hzero, zero_smul]
  row_x := hs.rows_turned.2

/-- Where `zetabar` is not zero the solve is at a further loop head. -/
theorem regular_turned (hne : t.zetabar ≠ 0) : (s.turned g t).Regular M damp b x₀ := by
  have hsbar : t.sbar ≠ 0 := fun h => hne (by rw [ht.zetabar, h, neg_zero, zero_mul])
  obtain ⟨hbeta, halpha⟩ := ht.further hg hs.alpha.le hsbar
  have hv' := hg.parameter hbeta
  have hrow : vec n g.v ∈ LinearMap.range (adjoint M) := by
    refine (Submodule.smul_mem_iff _ halpha.ne').1 ?_
    rw [← hv']
    exact sub_mem (LinearMap.mem_range_self _ _) (Submodule.smul_mem _ _ hs.row_v)
  have hadjoint : adjoint M (vec m g.u) = g.alpha • vec n g.v + g.beta • vec n s.basis.v := by
    rw [← hv']
    abel
  have hrhotemp : 0 < t.rhotemp := ht.rhotemp ▸ mul_pos hs.factors.cbar ht.rho_pos
  have halphabar : 0 < t.alphabar := ht.alphabar ▸ mul_pos ht.c_pos halpha
  obtain ⟨U, V, hU, hV, hbi⟩ := hs.orthogonal
  exact
    { sized := hs.sized_turned hg
      size_x := (s.size_x_turned g t).trans hs.size_x
      alpha := halpha
      orthogonal := ⟨_, _, (finrank_next hbi.norm_u hbi.orthogonal_u).trans (congrArg (· + 1) hU),
        (finrank_next hbi.norm_v hbi.orthogonal_v).trans (congrArg (· + 1) hV),
        hbi.next hbeta.ne' halpha.ne' (hg.norm_u hbeta) (hg.norm_v hbeta halpha) hg.residual hv'⟩
      factors := ⟨halphabar, ht.rho_pos, ht.rhobar_pos, ht.cbar_pos⟩
      residual := (hs.residual.advance ht _).2 hbeta.ne'
      operator := (hs.operator.advance _ g hs.factors.rhobar hrhotemp).1
      normB := hs.normB
      conjugate := by
        rw [vec_h_turned hs.sized.h hg.sized.v]
        exact normal_h_next ht (hs.normal_h_eq hg ht) hadjoint
      directions := hs.directions_turned hg ht
      row_v := hrow
      row_h := by
        rw [vec_h_turned hs.sized.h hg.sized.v]
        exact sub_mem hrow (Submodule.smul_mem _ _ hs.row_h)
      row_hbar := hs.rows_turned.1
      row_x := hs.rows_turned.2 }

omit hg in
theorem isSome_stopRule?_turned (hp : p.Exact) :
    ((s.turned g t).stopRule? p).isSome = true ↔ t.zetabar = 0 := by
  have hrhotemp : 0 < t.rhotemp := ht.rhotemp ▸ mul_pos hs.factors.cbar ht.rho_pos
  obtain ⟨⟨hnormR, hbeta⟩, -⟩ := hs.residual.advance ht s.factors.zeta
  obtain ⟨-, hnormA, hcond⟩ :=
    hs.operator.advance (s.iteration + 1) g hs.factors.rhobar hrhotemp
  have hX : 0 ≤ (s.turned g t).normX := Real.sqrt_nonneg _
  refine (isSome_stopRule?_iff (s := s.turned g t) hp hs.normB hnormR (abs_nonneg t.zetabar) hnormA
    hcond hX).trans ?_
  constructor
  · rintro (hR | hAr)
    · have hs_zero : t.s = 0 := by
        simpa [ht.rho_pos.ne', hbeta hR] using ht.s_mul
      have hsbar : t.sbar = 0 := by
        simpa [ht.thetanew, hs_zero, ht.rhobar_pos.ne'] using ht.sbar_mul
      rw [ht.zetabar, hsbar, neg_zero, zero_mul]
    · exact abs_eq_zero.1 hAr
  · intro hzero
    exact .inr (abs_eq_zero.2 hzero)

end State.Regular

end LeastSquares.Lsmr
