import Mathlib
import LeastSquares.Lsmr.Iteration
import LeastSquares.Proofs.Exact.Scalar

/-!
# LSMR: the rotations and the estimates of an iteration

Over exact scalars no pivot of an iteration vanishes, so its three rotations always exist.  The
estimates carried along decide only when the solve stops: it stops exactly where `zetabar` is
zero.
-/

namespace LeastSquares.Lsmr

open Exact

variable {damp : ℝ} {g : Basis ℝ} {f : Factors ℝ} {t : Turn ℝ}

/-- The factors as a loop head holds them: every pivot is positive. -/
structure Factors.Regular (f : Factors ℝ) : Prop where
  alphabar : 0 < f.alphabar
  rho : 0 < f.rho
  rhobar : 0 < f.rhobar
  cbar : 0 < f.cbar

/-- The equations between the entries of an iteration, without quotients. -/
structure Turn.Rotates (damp : ℝ) (g : Basis ℝ) (f : Factors ℝ) (t : Turn ℝ) : Prop where
  chat_pos : 0 < t.chat
  rho_pos : 0 < t.rho
  rho_sq : t.rho ^ 2 = f.alphabar ^ 2 + damp ^ 2 + g.beta ^ 2
  c_pos : 0 < t.c
  c_sq : t.c ^ 2 * t.rho ^ 2 = f.alphabar ^ 2 + damp ^ 2
  s_mul : t.s * t.rho = g.beta
  thetanew : t.thetanew = t.s * g.alpha
  alphabar : t.alphabar = t.c * g.alpha
  rhotemp : t.rhotemp = f.cbar * t.rho
  thetabar : t.thetabar = f.sbar * t.rho
  rhobar_pos : 0 < t.rhobar
  cbar_pos : 0 < t.cbar
  cbar_mul : t.cbar * t.rhobar = f.cbar * t.rho
  sbar_mul : t.sbar * t.rhobar = t.thetanew
  cbar_sq : t.cbar ^ 2 + t.sbar ^ 2 = 1
  zeta : t.zeta = t.cbar * f.zetabar
  zetabar : t.zetabar = -t.sbar * f.zetabar

theorem turn?_eq_some (damp : ℝ) (hf : f.Regular) :
    ∃ t, turn? damp g f = some t ∧ t.Rotates damp g f := by
  -- Each pivot is a hypotenuse over the one before it, so they are positive in this order.
  have halphahat : 0 < Scalar.hypot f.alphabar damp := hypot_pos_left hf.alphabar.ne' damp
  have halphahat_sq := hypot_sq f.alphabar damp
  unfold turn?
  generalize Scalar.hypot f.alphabar damp = alphahat at halphahat halphahat_sq
  have hrho : 0 < Scalar.hypot alphahat g.beta := hypot_pos_left halphahat.ne' g.beta
  have hrho_sq := hypot_sq alphahat g.beta
  dsimp only
  generalize Scalar.hypot alphahat g.beta = rho at hrho hrho_sq
  have hrhotemp : 0 < f.cbar * rho := mul_pos hf.cbar hrho
  have hrhobar : 0 < Scalar.hypot (f.cbar * rho) (g.beta / rho * g.alpha) :=
    hypot_pos_left hrhotemp.ne' _
  have hrhobar_sq := hypot_sq (f.cbar * rho) (g.beta / rho * g.alpha)
  generalize Scalar.hypot (f.cbar * rho) (g.beta / rho * g.alpha) = rhobar
    at hrhobar hrhobar_sq
  rw [if_pos halphahat, if_neg (by simpa using hrho.ne'), if_neg (by simpa using hrhobar.ne')]
  refine ⟨_, rfl, ?_⟩
  exact
    { chat_pos := div_pos hf.alphabar halphahat
      rho_pos := hrho
      rho_sq := by rw [hrho_sq, halphahat_sq]
      c_pos := div_pos halphahat hrho
      c_sq := by rw [← halphahat_sq]; field_simp
      s_mul := div_mul_cancel₀ _ hrho.ne'
      thetanew := rfl
      alphabar := rfl
      rhotemp := rfl
      thetabar := rfl
      rhobar_pos := hrhobar
      cbar_pos := div_pos hrhotemp hrhobar
      cbar_mul := div_mul_cancel₀ _ hrhobar.ne'
      sbar_mul := div_mul_cancel₀ _ hrhobar.ne'
      cbar_sq := by
        rw [div_pow, div_pow, ← add_div, ← hrhobar_sq, div_self (by positivity)]
      zeta := rfl
      zetabar := rfl }

/-! ## Estimates -/

structure ResidualEstimate.Regular (e : ResidualEstimate ℝ) : Prop where
  betadd : e.betadd ≠ 0
  rhodold : 0 < e.rhodold
  removed : 0 ≤ e.removed

theorem ResidualEstimate.Regular.advance {e : ResidualEstimate ℝ} (he : e.Regular)
    (ht : t.Rotates damp g f) (zetaold : ℝ) :
    (0 ≤ (e.advance zetaold t).2 ∧ ((e.advance zetaold t).2 = 0 → g.beta = 0)) ∧
      (g.beta ≠ 0 → (e.advance zetaold t).1.Regular) := by
  have hbetadd : -t.s * (t.chat * e.betadd) = 0 → g.beta = 0 := by
    intro h
    have hs : t.s = 0 := by
      simpa [ht.chat_pos.ne', he.betadd] using h
    rw [← ht.s_mul, hs, zero_mul]
  refine ⟨⟨Real.sqrt_nonneg _, fun h => hbetadd ?_⟩, fun hbeta =>
    ⟨fun h => hbeta (hbetadd h), ?_, ?_⟩⟩
  · have hle := Real.sqrt_eq_zero'.1 h
    have hremoved := he.removed
    nlinarith [mul_self_nonneg (-t.shat * e.betadd), mul_self_nonneg (-t.s * (t.chat * e.betadd)),
      mul_self_nonneg ((e.advance zetaold t).1.betad -
        (t.zeta - (e.advance zetaold t).1.thetatilde * (e.advance zetaold t).1.tautildeold) /
          (e.advance zetaold t).1.rhodold)]
  · have hrhotilde : 0 < Scalar.hypot e.rhodold t.thetabar := hypot_pos_left he.rhodold.ne' _
    exact mul_pos (div_pos he.rhodold hrhotilde) ht.rhobar_pos
  · exact add_nonneg he.removed (mul_self_nonneg _)

structure OperatorEstimate.Regular (e : OperatorEstimate ℝ) : Prop where
  squares : 0 < e.squares
  maxrbar : 0 ≤ e.maxrbar
  minrbar : 0 < e.minrbar

theorem OperatorEstimate.Regular.advance {e : OperatorEstimate ℝ} (he : e.Regular)
    (iteration : ℕ) (g : Basis ℝ) {rhobarold rhotemp : ℝ} (hrhobar : 0 < rhobarold)
    (hrhotemp : 0 < rhotemp) :
    (e.advance iteration g rhobarold rhotemp).1.Regular ∧
      0 < (e.advance iteration g rhobarold rhotemp).2.1 ∧
        0 < (e.advance iteration g rhobarold rhotemp).2.2 := by
  have hsquares := he.squares
  have hmax : 0 ≤ max e.maxrbar rhobarold := le_max_of_le_left he.maxrbar
  have hmin : 0 < if 1 < iteration then Scalar.min e.minrbar rhobarold else e.minrbar := by
    split
    · simpa using ⟨he.minrbar, hrhobar⟩
    · exact he.minrbar
  refine ⟨⟨?_, by simpa [OperatorEstimate.advance] using hmax, hmin⟩, ?_, ?_⟩
  · exact add_pos_of_pos_of_nonneg (add_pos_of_pos_of_nonneg hsquares (mul_self_nonneg _))
      (mul_self_nonneg _)
  · exact Real.sqrt_pos.2 (add_pos_of_pos_of_nonneg hsquares (mul_self_nonneg _))
  · simp only [OperatorEstimate.advance, max_eq, min_eq] at hmin ⊢
    exact div_pos (lt_max_of_lt_right hrhotemp) (lt_min hmin hrhotemp)

/-! ## Stopping -/

/-- No tolerances and no limit on the condition number. -/
structure Params.Exact (p : Params ℝ) : Prop where
  atol : p.atol = 0
  btol : p.btol = 0
  conlim : p.conlim ≤ 0

/-- Without tolerances the solve stops exactly where one of the two residual norms vanishes. -/
theorem State.isSome_stopRule?_iff {p : Params ℝ} (hp : p.Exact) {s : State ℝ}
    (hB : 0 < s.normB) (hR : 0 ≤ s.normR) (hAr : 0 ≤ s.normAr) (hA : 0 < s.normA)
    (hcond : 0 < s.condA) (hX : 0 ≤ s.normX) :
    (s.stopRule? p).isSome = true ↔ s.normR = 0 ∨ s.normAr = 0 := by
  have hscale : 0 < 1 + s.normA * s.normX / s.normB := by positivity
  have hctol : (if 0 < p.conlim then 1 / p.conlim else 0) = 0 := if_neg (not_lt.2 hp.conlim)
  have hrtol : p.btol + 0 * s.normA * s.normX / s.normB = 0 := by
    rw [hp.btol]
    ring
  have hcond' : 0 < 1 / s.condA := one_div_pos.2 hcond
  simp only [stopRule?, hctol, hp.atol, hrtol]
  by_cases hR0 : s.normR = 0
  · simp [hR0]
  have htest1 : 0 < s.normR / s.normB := div_pos (lt_of_le_of_ne hR (Ne.symm hR0)) hB
  have ht1 : 0 < s.normR / s.normB / (1 + s.normA * s.normX / s.normB) := div_pos htest1 hscale
  rw [if_neg (not_le.2 htest1)]
  by_cases hAr0 : s.normAr = 0
  · simp [hAr0]
  have htest2 : 0 < s.normAr / (s.normA * s.normR) :=
    div_pos (lt_of_le_of_ne hAr (Ne.symm hAr0)) (mul_pos hA (lt_of_le_of_ne hR (Ne.symm hR0)))
  have hone : ∀ {y : ℝ}, 0 < y → ¬ 1 + y ≤ 1 := fun hy => by linarith
  rw [if_neg (not_le.2 htest2), if_neg (not_le.2 hcond'), if_neg (hone ht1), if_neg (hone htest2),
    if_neg (hone hcond')]
  simp [hR0, hAr0]

end LeastSquares.Lsmr
