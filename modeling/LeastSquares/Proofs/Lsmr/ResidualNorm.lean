import Mathlib
import LeastSquares.Proofs.Lsmr.Rotation

/-!
# LSMR: the estimate of the residual norm

The estimate never looks at `x`.  It is tied to the rotations by two equations between its scalars
and the factors, which every turn keeps, and its square falls in a turn by an amount that the
rotations determine.
-/

namespace LeastSquares.Lsmr

open Exact

variable {damp : ℝ} {g : Basis ℝ} {f : Factors ℝ} {t : Turn ℝ} {e : ResidualEstimate ℝ}

structure Turn.Damps (f : Factors ℝ) (t : Turn ℝ) : Prop where
  c_mul_chat : t.c * t.chat * t.rho = f.alphabar
  chat_sq : t.chat ^ 2 + t.shat ^ 2 = 1
  c_sq_add : t.c ^ 2 + t.s ^ 2 = 1

theorem Turn.Rotates.damps (ht : t.Rotates damp g f) (hf : f.Regular)
    (h : turn? damp g f = some t) : t.Damps f := by
  have halphahat : 0 < Scalar.hypot f.alphabar damp := hypot_pos_left hf.alphabar.ne' damp
  have halphahat_sq := hypot_sq f.alphabar damp
  have hrho := ht.rho_pos.ne'
  unfold turn? at h
  generalize Scalar.hypot f.alphabar damp = alphahat at halphahat halphahat_sq h
  dsimp only at h
  rw [if_pos halphahat, if_pos halphahat] at h
  split at h
  · cases h
  · split at h
    · cases h
    · cases h
      dsimp only at hrho
      refine ⟨?_, ?_, ?_⟩
      · dsimp only
        field_simp
      · dsimp only
        rw [div_pow, div_pow, ← add_div, ← halphahat_sq, div_self (by positivity)]
      · dsimp only at *
        rw [div_pow, div_pow, ← add_div, ← hypot_sq, div_self (by positivity)]

namespace ResidualEstimate

/-- The part of the residual that the solution has not caught up with, along the last direction. -/
noncomputable def gap (e : ResidualEstimate ℝ) (zeta : ℝ) : ℝ :=
  e.betad - (zeta - e.thetatilde * e.tautildeold) / e.rhodold

noncomputable def squares (e : ResidualEstimate ℝ) (zeta : ℝ) : ℝ :=
  e.removed + e.gap zeta ^ 2 + e.betadd ^ 2

structure Coupled (f : Factors ℝ) (e : ResidualEstimate ℝ) : Prop where
  zetabar : f.zetabar = e.betadd * f.alphabar * f.cbar
  gap : e.gap f.zeta * e.rhodold = -(e.betadd * f.alphabar * f.sbar)

theorem sq_normR_advance (e : ResidualEstimate ℝ) (zetaold : ℝ) (t : Turn ℝ)
    (he : 0 ≤ e.removed) :
    (e.advance zetaold t).2 ^ 2 = (e.advance zetaold t).1.squares t.zeta := by
  refine (Real.sq_sqrt ?_).trans ?_
  · have hremoved : 0 ≤ e.removed + -t.shat * e.betadd * (-t.shat * e.betadd) :=
      add_nonneg he (mul_self_nonneg _)
    exact add_nonneg (add_nonneg hremoved (mul_self_nonneg _)) (mul_self_nonneg _)
  · simp only [squares, gap, advance]
    ring

theorem rhodold_advance_ne_zero (he : e.Regular) (ht : t.Rotates damp g f) (zetaold : ℝ) :
    (e.advance zetaold t).1.rhodold ≠ 0 :=
  (mul_pos (div_pos he.rhodold (hypot_pos_left he.rhodold.ne' _)) ht.rhobar_pos).ne'

section

variable (hc : e.Coupled f) (ht : t.Rotates damp g f) (hd : t.Damps f)

include hc ht hd

theorem thetabar_mul :
    t.thetabar * (t.c * (t.chat * e.betadd)) = -(e.gap f.zeta * e.rhodold) := by
  rw [hc.gap, ht.thetabar]
  linear_combination (f.sbar * e.betadd) * hd.c_mul_chat

theorem zetabar_eq : f.zetabar = t.cbar * t.rhobar * (t.c * (t.chat * e.betadd)) := by
  rw [hc.zetabar, ht.cbar_mul]
  linear_combination (-e.betadd * f.cbar) * hd.c_mul_chat

variable (he : e.Regular)

include he

theorem gap_advance :
    (e.advance f.zeta t).1.gap t.zeta * (e.advance f.zeta t).1.rhodold =
      t.rhobar * (t.c * (t.chat * e.betadd)) - t.zeta := by
  have hrhotilde : 0 < Scalar.hypot e.rhodold t.thetabar := hypot_pos_left he.rhodold.ne' _
  have hrhotilde_sq := hypot_sq e.rhodold t.thetabar
  have hcross := thetabar_mul hc ht hd
  have hgap : f.zeta - e.thetatilde * e.tautildeold = (e.betad - e.gap f.zeta) * e.rhodold := by
    rw [gap, sub_sub_cancel, div_mul_cancel₀ _ he.rhodold.ne']
  rw [gap, sub_mul, div_mul_cancel₀ _ (rhodold_advance_ne_zero he ht _)]
  simp only [advance, hgap]
  generalize Scalar.hypot e.rhodold t.thetabar = rhotilde at *
  field_simp
  linear_combination (t.rhobar * (t.c * (t.chat * e.betadd))) * (-hrhotilde_sq) +
    (-t.rhobar * t.thetabar) * hcross

theorem Coupled.advance : (e.advance f.zeta t).1.Coupled t.factors := by
  have hzetabar := zetabar_eq hc ht hd
  have hsine : t.s * g.alpha = t.sbar * t.rhobar := by rw [← ht.thetanew, ht.sbar_mul]
  constructor
  · simp only [Turn.factors, ResidualEstimate.advance, ht.zetabar, ht.alphabar, hzetabar]
    linear_combination (t.chat * e.betadd * t.c * t.cbar) * hsine
  · rw [Turn.factors, gap_advance hc ht hd he, ht.zeta, hzetabar]
    simp only [ResidualEstimate.advance, ht.alphabar]
    linear_combination (-(t.chat * e.betadd * t.c * t.sbar)) * hsine -
      (t.rhobar * (t.c * (t.chat * e.betadd))) * ht.cbar_sq

/-- A turn lowers the square of the estimate by what the move of the solution gains. -/
theorem squares_advance :
    (e.advance f.zeta t).1.squares t.zeta = e.squares f.zeta -
      (2 * t.zeta * f.zetabar / t.cbar - t.zeta ^ 2) / (e.advance f.zeta t).1.rhodold ^ 2 := by
  have hrhotilde : 0 < Scalar.hypot e.rhodold t.thetabar := hypot_pos_left he.rhodold.ne' _
  have hrhotilde_sq := hypot_sq e.rhodold t.thetabar
  have hrhodold := he.rhodold.ne'
  have hrhobar := ht.rhobar_pos.ne'
  have hrhodold' := rhodold_advance_ne_zero he ht f.zeta
  have hcross := thetabar_mul hc ht hd
  have hgap := eq_div_of_mul_eq hrhodold' (gap_advance hc ht hd he)
  have hzetabar : f.zetabar / t.cbar = t.rhobar * (t.c * (t.chat * e.betadd)) := by
    rw [zetabar_eq hc ht hd, mul_assoc, mul_div_cancel_left₀ _ ht.cbar_pos.ne']
  -- What leaves the last component is either removed for good or caught up with by the solution.
  have hremoved : (e.advance f.zeta t).1.removed + (e.advance f.zeta t).1.betadd ^ 2 =
      e.removed + e.betadd ^ 2 - (t.c * (t.chat * e.betadd)) ^ 2 := by
    simp only [advance]
    linear_combination e.betadd ^ 2 * hd.chat_sq + (t.chat * e.betadd) ^ 2 * hd.c_sq_add
  have hcaught : (t.rhobar * (t.c * (t.chat * e.betadd)) / (e.advance f.zeta t).1.rhodold) ^ 2 =
      (t.c * (t.chat * e.betadd)) ^ 2 + e.gap f.zeta ^ 2 := by
    simp only [advance]
    generalize Scalar.hypot e.rhodold t.thetabar = rhotilde at *
    field_simp
    rw [hrhotilde_sq]
    linear_combination
      (t.thetabar * (t.c * (t.chat * e.betadd)) - e.gap f.zeta * e.rhodold) * hcross
  rw [mul_div_assoc, hzetabar, squares, squares, hgap]
  generalize (e.advance f.zeta t).1.rhodold = rhodold at *
  linear_combination hremoved + hcaught

end

end ResidualEstimate

end LeastSquares.Lsmr
