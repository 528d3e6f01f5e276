import Mathlib
import LeastSquares.Proofs.Lsmr.LoopHead

/-!
# LSMR: the direction of the normal residual

At a loop head the normal residual is a multiple of a unit vector in the space of the vectors found
so far.  The vectors `h` and `hbar` have known shares in that direction, so the squares after a move
along `hbar` can be written in the scalars of the rotations alone.
-/

namespace LeastSquares.Lsmr

open Exact

variable {m n : ℕ} {M : EuclideanSpace ℝ (Fin n) →ₗ[ℝ] EuclideanSpace ℝ (Fin m)} {damp : ℝ}
  {b : EuclideanSpace ℝ (Fin m)} {x₀ : EuclideanSpace ℝ (Fin n)} {s : State ℝ} {g : Basis ℝ}
  {t : Turn ℝ} {U : Submodule ℝ (EuclideanSpace ℝ (Fin m))}
  {V : Submodule ℝ (EuclideanSpace ℝ (Fin n))} {r : EuclideanSpace ℝ (Fin n)}

/-- The direction `r` of the normal residual at a loop head, and how the vectors of the descent lie
to it and to the spaces of the bidiagonalization. -/
structure State.Directed (M : EuclideanSpace ℝ (Fin n) →ₗ[ℝ] EuclideanSpace ℝ (Fin m)) (damp : ℝ)
    (b : EuclideanSpace ℝ (Fin m)) (x₀ : EuclideanSpace ℝ (Fin n)) (s : State ℝ)
    (U : Submodule ℝ (EuclideanSpace ℝ (Fin m))) (V : Submodule ℝ (EuclideanSpace ℝ (Fin n)))
    (r : EuclideanSpace ℝ (Fin n)) : Prop where
  bidiagonal : Bidiagonal M U V (vec m s.basis.u) (vec n s.basis.v) s.basis.alpha
  mem_hbar : vec n s.hbar ∈ V
  mem_h : vec n s.h ∈ V ⊔ ℝ ∙ vec n s.basis.v
  mem_r : r ∈ V ⊔ ℝ ∙ vec n s.basis.v
  norm_r : ‖r‖ = 1
  hbar : ∃ q, normal M damp (vec n s.hbar) = (s.factors.rho * s.factors.rhobar) • q ∧
    vec n s.basis.v = s.factors.sbar • q + s.factors.cbar • r
  normalResidual : normalResidual M damp b x₀ (vec n s.x) = s.factors.zetabar • r
  inner_h : s.factors.cbar * inner ℝ (vec n s.h) r = 1
  inner_hbar : s.factors.cbar * s.residual.rhodold ^ 2 * inner ℝ (vec n s.hbar) r =
    -(s.factors.sbar * s.factors.rho * s.factors.rhobar)

namespace State.Directed

section

variable (hs : s.Regular M damp b x₀) (hr : s.Directed M damp b x₀ U V r)

include hs hr

theorem mem_hbar_turned : vec n (s.turned g t).hbar ∈ V ⊔ ℝ ∙ vec n s.basis.v := by
  rw [vec_hbar_turned hs.sized.h hs.sized.hbar]
  exact sub_mem hr.mem_h (Submodule.smul_mem _ _ (Submodule.mem_sup_left hr.mem_hbar))

theorem inner_hbar_turned (ht : t.Rotates damp g s.factors) :
    t.cbar * (s.turned g t).residual.rhodold ^ 2 * inner ℝ (vec n (s.turned g t).hbar) r =
      t.rho * t.rhobar := by
  have hrhodold := hs.residual.rhodold.ne'
  have hcbar := hs.factors.cbar.ne'
  have hrho := hs.factors.rho.ne'
  have hrhobar := hs.factors.rhobar.ne'
  have hrhotilde : 0 < Scalar.hypot s.residual.rhodold t.thetabar := hypot_pos_left hrhodold _
  have hrhotilde_sq := hypot_sq s.residual.rhodold t.thetabar
  have hh : inner ℝ (vec n s.h) r = 1 / s.factors.cbar :=
    eq_one_div_of_mul_eq_one_right hr.inner_h
  have hhbar : inner ℝ (vec n s.hbar) r = -(s.factors.sbar * s.factors.rho * s.factors.rhobar) /
      (s.factors.cbar * s.residual.rhodold ^ 2) :=
    eq_div_of_mul_eq (by positivity) ((mul_comm _ _).trans hr.inner_hbar)
  rw [vec_hbar_turned hs.sized.h hs.sized.hbar, inner_sub_left, inner_smul_left, hh, hhbar]
  simp only [turned, State.advance, ResidualEstimate.advance, conj_trivial]
  generalize Scalar.hypot s.residual.rhodold t.thetabar = rhotilde at *
  field_simp
  rw [hrhotilde_sq]
  linear_combination (t.rhobar * (s.residual.rhodold ^ 2 + t.thetabar ^ 2)) * ht.cbar_mul -
    (t.cbar * t.rhobar ^ 2 * t.thetabar) * ht.thetabar

end

section

variable (hs : s.Regular M damp b x₀) (hr : s.Directed M damp b x₀ U V r)
  (hg : Basis.Extends M s.basis g) (ht : t.Rotates damp g s.factors)

include hs hr hg ht

theorem images_turned : normal M damp (vec n (s.turned g t).hbar) =
      (t.rho * t.rhobar) • (t.cbar • r + t.sbar • vec n g.v) ∧
    Lsmr.normalResidual M damp b x₀ (vec n (s.turned g t).x) =
      t.zetabar • (t.cbar • vec n g.v - t.sbar • r) := by
  obtain ⟨q, hq, hv⟩ := hr.hbar
  have himage := normal_hbar hs.factors ht (hs.normal_h_eq hg ht) hq hv
  rw [← vec_hbar_turned hs.sized.h hs.sized.hbar] at himage
  refine ⟨himage, ?_⟩
  rw [vec_x_turned hs.size_x hs.sized.hbar]
  exact normalResidual_move ht hr.normalResidual himage

theorem bidiagonal_turned (h : t.sbar ≠ 0) :
    Bidiagonal M (U ⊔ ℝ ∙ vec m s.basis.u) (V ⊔ ℝ ∙ vec n s.basis.v) (vec m g.u) (vec n g.v)
      g.alpha := by
  obtain ⟨hbeta, halpha⟩ := ht.further hg hs.alpha.le h
  exact hr.bidiagonal.next hbeta.ne' halpha.ne' (hg.norm_u hbeta) (hg.norm_v hbeta halpha)
    hg.residual (hg.parameter hbeta)

theorem inner_hbar_next :
    t.sbar * inner ℝ (vec n (s.turned g t).hbar) (vec n g.v) = 0 := by
  by_cases h : t.sbar = 0
  · rw [h, zero_mul]
  · rw [Submodule.inner_right_of_mem_orthogonal (hr.mem_hbar_turned hs)
      (hr.bidiagonal_turned hs hg ht h).orthogonal_v, mul_zero]

/-- A move along `hbar` lowers the squares by what the rotations say. -/
theorem objective_turned : objective M damp b x₀ (vec n (s.turned g t).x) =
    objective M damp b x₀ (vec n s.x) -
      (2 * t.zeta * s.factors.zetabar / t.cbar - t.zeta ^ 2) /
        (s.turned g t).residual.rhodold ^ 2 := by
  have hcbar := ht.cbar_pos.ne'
  have hrho := ht.rho_pos.ne'
  have hrhobar := ht.rhobar_pos.ne'
  have hshare := hr.inner_hbar_turned hs ht
  have hrhodold : (s.turned g t).residual.rhodold ≠ 0 := by
    intro h
    rw [h] at hshare
    exact mul_ne_zero hrho hrhobar (by linarith)
  have hinner : inner ℝ (vec n (s.turned g t).hbar) r =
      t.rho * t.rhobar / (t.cbar * (s.turned g t).residual.rhodold ^ 2) :=
    eq_div_of_mul_eq (mul_ne_zero hcbar (pow_ne_zero 2 hrhodold)) ((mul_comm _ _).trans hshare)
  have hnext := hr.inner_hbar_next hs hg ht
  obtain ⟨himage, -⟩ := hr.images_turned hs hg ht
  rw [vec_x_turned hs.size_x hs.sized.hbar, objective_add, hr.normalResidual, map_smul, himage,
    inner_smul_left, inner_smul_left, inner_smul_right, inner_smul_right, inner_smul_right,
    inner_add_right, inner_smul_right, inner_smul_right, hnext, hinner]
  simp only [conj_trivial]
  field_simp
  ring

/-- Where there is a further vector, it turns the direction of the normal residual. -/
theorem turned (h : t.sbar ≠ 0) :
    (s.turned g t).Directed M damp b x₀ (U ⊔ ℝ ∙ vec m s.basis.u) (V ⊔ ℝ ∙ vec n s.basis.v)
      (t.cbar • vec n g.v - t.sbar • r) := by
  have hbi := hr.bidiagonal_turned hs hg ht h
  -- The further vector is orthogonal to everything that the descent has built up so far.
  have hr_v : inner ℝ r (vec n g.v) = 0 :=
    Submodule.inner_right_of_mem_orthogonal hr.mem_r hbi.orthogonal_v
  have hh_v : inner ℝ (vec n s.h) (vec n g.v) = 0 :=
    Submodule.inner_right_of_mem_orthogonal hr.mem_h hbi.orthogonal_v
  have hhbar_v : inner ℝ (vec n (s.turned g t).hbar) (vec n g.v) = 0 :=
    Submodule.inner_right_of_mem_orthogonal (hr.mem_hbar_turned hs) hbi.orthogonal_v
  have hv : vec n g.v ∈ (V ⊔ ℝ ∙ vec n s.basis.v) ⊔ ℝ ∙ vec n g.v :=
    Submodule.mem_sup_right (Submodule.mem_span_singleton_self _)
  obtain ⟨himage, hresidual⟩ := hr.images_turned hs hg ht
  exact
    { bidiagonal := hbi
      mem_hbar := hr.mem_hbar_turned hs
      mem_h := by
        rw [vec_h_turned hs.sized.h hg.sized.v]
        exact sub_mem hv (Submodule.smul_mem _ _ (Submodule.mem_sup_left hr.mem_h))
      mem_r := sub_mem (Submodule.smul_mem _ _ hv)
        (Submodule.smul_mem _ _ (Submodule.mem_sup_left hr.mem_r))
      norm_r := by
        have hsq : ‖t.cbar • vec n g.v - t.sbar • r‖ ^ 2 = 1 := by
          rw [norm_sub_sq_real, norm_smul, norm_smul, inner_smul_left, inner_smul_right,
            real_inner_comm, hr_v, hbi.norm_v, hr.norm_r, mul_one, mul_one, Real.norm_eq_abs,
            Real.norm_eq_abs, sq_abs, sq_abs, mul_zero, mul_zero, mul_zero, sub_zero, ht.cbar_sq]
        exact (pow_eq_one_iff_of_nonneg (norm_nonneg _) two_ne_zero).1 hsq
      hbar := ⟨_, himage, rotate_back ht r (vec n g.v)⟩
      normalResidual := hresidual
      inner_h := by
        have hh := eq_one_div_of_mul_eq_one_right hr.inner_h
        have hcbar := hs.factors.cbar.ne'
        have hrho := ht.rho_pos.ne'
        rw [vec_h_turned hs.sized.h hg.sized.v, inner_sub_left, inner_sub_right, inner_sub_right]
        simp only [inner_smul_left, inner_smul_right, conj_trivial, hh, hh_v,
          real_inner_comm r (vec n g.v), hr_v, real_inner_self_eq_norm_sq, hbi.norm_v]
        simp only [State.turned, State.advance, Turn.factors]
        field_simp
        linear_combination (t.rho * s.factors.cbar) * ht.cbar_sq -
          (t.cbar * t.sbar) * ht.sbar_mul + t.sbar ^ 2 * ht.cbar_mul
      inner_hbar := by
        have hshare := hr.inner_hbar_turned hs ht (g := g)
        rw [inner_sub_right, inner_smul_right, inner_smul_right, hhbar_v]
        change t.cbar * _ * _ = -(t.sbar * t.rho * t.rhobar)
        linear_combination (-t.sbar) * hshare }

theorem norm_normalResidual_turned :
    ‖Lsmr.normalResidual M damp b x₀ (vec n (s.turned g t).x)‖ = |t.zetabar| := by
  -- Without a further vector there is no next direction, but then nothing of the residual is left.
  by_cases h : t.sbar = 0
  · have hzero : t.zetabar = 0 := by rw [ht.zetabar, h, neg_zero, zero_mul]
    rw [(hr.images_turned hs hg ht).2, hzero, zero_smul, norm_zero, abs_zero]
  · have hnext := hr.turned hs hg ht h
    rw [hnext.normalResidual, norm_smul, hnext.norm_r, mul_one, Real.norm_eq_abs]
    rfl

end

end State.Directed

end LeastSquares.Lsmr
