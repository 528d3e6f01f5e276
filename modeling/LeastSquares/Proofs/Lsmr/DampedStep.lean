import Mathlib
import LeastSquares.Lsmr.DampedStep
import LeastSquares.Proofs.Exact.Damping
import LeastSquares.Proofs.Lsmr.Exactness

/-!
# LSMR: exact damped steps

A minimizer over the damped operator with the right-hand side `[-f; 0]`, divided by the
normalization, is the step of the damped problem.  An exact solve always finds it.
-/

namespace LeastSquares.Lsmr

open Exact
open Matrix (toEuclideanLin)
open LinearMap (adjoint)

variable {m n : ℕ}

/-- A step solver with the lengths of the problem, without tolerances and without a damping of its
own, and with an iteration for every parameter. -/
structure DampedStep.Sized (m n : ℕ) (s : DampedStep ℝ) : Prop where
  workspace : s.workspace.Sized (m + n) n
  damping : s.damping.Sized n
  rhs : s.rhs.size = m + n
  exact : s.params.Exact
  undamped : s.params.damp = 0
  iters : n ≤ s.params.maxIters

theorem DampedStep.sized_new {p : Params ℝ} (hp : p.Exact) (hdamp : p.damp = 0)
    (hiters : n ≤ p.maxIters) : (DampedStep.new m n p).Sized m n where
  workspace := Workspace.sized_new (m + n) n
  damping := by constructor <;> simp [DampedStep.new, Damping.none, Vec.zeros]
  rhs := by simp [DampedStep.new, Vec.zeros]
  exact := hp
  undamped := hdamp
  iters := hiters

/-! ## The right-hand side and the damping -/

section Update

variable {f dtd x : Array ℝ} {lambda : ℝ} {d : Damping ℝ}

theorem size_rightHandSide (hf : f.size = m) :
    (DampedStep.rightHandSide f (m + n)).size = m + n := by
  simp [DampedStep.rightHandSide, Vec.zeros, hf]

theorem rightHandSide_castAdd (hf : f.size = m) (i : Fin m) :
    vec (m + n) (DampedStep.rightHandSide f (m + n)) (Fin.castAdd n i) = -vec m f i := by
  rw [DampedStep.rightHandSide, vec_append_castAdd (by simpa), vec_map_neg hf, PiLp.neg_apply]

theorem rightHandSide_natAdd (hf : f.size = m) (j : Fin n) :
    vec (m + n) (DampedStep.rightHandSide f (m + n)) (Fin.natAdd m j) = 0 := by
  have hzeros : m + n - f.size = n := by omega
  rw [DampedStep.rightHandSide, vec_append_natAdd (by simpa), hzeros, vec_zeros]
  rfl

theorem sized_update (hd : d.Sized n) : (d.update lambda dtd).Sized n where
  diagonal := (Vec.size_zipUpdate _ _ _).trans hd.diagonal
  normalization := (Vec.size_zipUpdate _ _ _).trans hd.normalization
  scratch := hd.scratch

theorem diagonal_update_sq (hd : d.Sized n) (hdtd : dtd.size = n) {j : Fin n}
    (hj : 0 < lambda ^ 2 * vec n dtd j) :
    vec n (d.update lambda dtd).diagonal j ^ 2 = lambda ^ 2 * vec n dtd j := by
  have hpos : 0 ≤ vec n dtd j := (pos_of_mul_pos_right hj (sq_nonneg lambda)).le
  rw [Damping.update, vec_zipUpdate _ hd.diagonal hdtd, Damping.weight, mul_pow,
    vec_eq_getElem hdtd] at *
  rw [sqrt_eq, Real.sq_sqrt hpos]

theorem normalization_update_pos (lambda : ℝ) (hd : d.Sized n) (hdtd : dtd.size = n) (j : Fin n) :
    0 < vec n (d.update lambda dtd).normalization j := by
  rw [Damping.update, vec_zipUpdate _ hd.normalization hdtd]
  exact Real.sqrt_pos.2 (add_pos_of_pos_of_nonneg one_pos (mul_self_nonneg _))

theorem vec_unscale (hd : d.Sized n) (hx : x.size = n) (j : Fin n) :
    vec n (d.unscale x) j = vec n x j / vec n d.normalization j := by
  rw [Damping.unscale, vec_zipUpdate _ hx hd.normalization, vec_eq_getElem hx,
    vec_eq_getElem hd.normalization]

/-- A point without normal residual over the damped operator becomes the step. -/
theorem isStep_unscale {B : Matrix (Fin m) (Fin n) ℝ} {x₀ : EuclideanSpace ℝ (Fin n)}
    (hd : d.Sized n) (hf : f.size = m) (hdtd : dtd.size = n) (hx : x.size = n)
    (hdamped : ∀ j, 0 < lambda ^ 2 * vec n dtd j)
    (h : normalResidual (toEuclideanLin (stacked B (vec n (d.update lambda dtd).diagonal)
      (vec n (d.update lambda dtd).normalization))) 0
      (vec (m + n) (DampedStep.rightHandSide f (m + n))) x₀ (vec n x) = 0) :
    IsStep B (vec m f) (vec n dtd) lambda (vec n ((d.update lambda dtd).unscale x)) := by
  have hupdate : (d.update lambda dtd).Sized n := sized_update hd
  have hsq := fun j => diagonal_update_sq hd hdtd (hdamped j)
  have hnorm := fun j => normalization_update_pos lambda hd hdtd j
  -- From here on only the squares of the diagonal and the signs of the normalization matter.
  generalize d.update lambda dtd = e at *
  rw [isStep_iff]
  intro j
  have hunscale := vec_unscale hupdate hx
  have hentry := congrArg (fun w : EuclideanSpace ℝ (Fin n) => w j) h
  simp only [normalResidual, ne_eq, OfNat.ofNat_ne_zero, not_false_eq_true, zero_pow, zero_smul,
    sub_zero, PiLp.zero_apply] at hentry
  rw [adjoint_stacked (u := -vec m f - toEuclideanLin B (vec n (e.unscale x)))
    (w := WithLp.toLp 2 fun k => -(vec n e.diagonal k * vec n (e.unscale x) k)) (fun i => ?_)
    (fun k => ?_), div_eq_zero_iff, or_iff_left (hnorm j).ne', map_sub, map_neg, PiLp.sub_apply,
    PiLp.neg_apply] at hentry
  · rw [← hsq]
    linear_combination -hentry
  · rw [PiLp.sub_apply, PiLp.sub_apply, stacked_castAdd hunscale, rightHandSide_castAdd hf,
      PiLp.neg_apply]
  · rw [PiLp.sub_apply, stacked_natAdd hunscale, rightHandSide_natAdd hf, zero_sub]

end Update

/-- The step solver by LSMR answers every damped problem with its step. -/
theorem DampedStep.answersSteps (m n : ℕ) : AnswersSteps m n (DampedStep.Sized m n) where
  fits s hs := by
    simp [StepSolver.fits, hs.rhs, Workspace.ncols, hs.workspace.v]
  solveStep s J f dtd lambda step hs h := by
    have hle : f.size ≤ s.rhs.size := by
      rw [hs.rhs, h.size_residuals]
      exact Nat.le_add_right _ _
    have hupdate : (s.damping.update lambda dtd).Sized n := sized_update hs.damping
    have hstart : (step.map fun _ => (0 : ℝ)).size = n := by simpa using h.size_step
    have hexact := solveFitting_exact
      (realizes_damped (B := entries m n J) (realizes_linear h.nrows h.ncols) hupdate) hs.workspace
      (size_rightHandSide (n := n) h.size_residuals) hstart hs.exact
      ((min_le_right _ _).trans hs.iters)
    generalize hsol : solveFitting s.workspace
      (⟨J, s.damping.update lambda dtd⟩ : DampedOperator _ ℝ) (rightHandSide f (m + n))
      (step.map fun _ => 0) s.params = sol at hexact
    obtain ⟨info, hinfo, -⟩ := hexact.info
    rw [hs.undamped] at hexact
    have hsolve : ∃ log, s.solve J f dtd lambda step = .done
        ⟨{ s with
            rhs := rightHandSide f (m + n)
            damping := s.damping.update lambda dtd
            workspace := sol.workspace
            lastInfo := some info },
          (s.damping.update lambda dtd).unscale sol.x, some info.iterations, log⟩ := by
      rw [solve, if_pos hle]
      simp only [hs.rhs, hsol, hinfo]
      exact ⟨_, rfl⟩
    obtain ⟨log, hsolve⟩ := hsolve
    refine ⟨_, info.iterations, hsolve, rfl, ?_, ?_, ?_⟩
    · exact ⟨hexact.sized, hupdate, size_rightHandSide h.size_residuals, hs.exact, hs.undamped,
        hs.iters⟩
    · exact (Vec.size_zipUpdate _ _ _).trans hexact.size_x
    · exact isStep_unscale hs.damping h.size_residuals h.size_dtd hexact.size_x h.damped
        hexact.normal

end LeastSquares.Lsmr
