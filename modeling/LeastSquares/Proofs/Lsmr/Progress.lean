import Mathlib
import LeastSquares.Proofs.Lsmr.TruncatedStep

/-!
# LSMR: truncated solves

A loop head still has a normal residual, so every iteration lowers the squares.  A solve from a
start with a normal residual makes at least one iteration and ends below its start, whichever rule
stops it.  A damped step inherits this through the damped operator: it moves where the gradient is
not zero, and the linear model predicts a decrease for it.
-/

namespace LeastSquares.Lsmr

open Exact
open Matrix (toEuclideanLin)
open LinearMap (adjoint)

section Run

variable {A : Type} [LinearOperator A ℝ] {a : A} {m n : ℕ}
  {M : EuclideanSpace ℝ (Fin n) →ₗ[ℝ] EuclideanSpace ℝ (Fin m)} {b : EuclideanSpace ℝ (Fin m)}
  {x₀ : EuclideanSpace ℝ (Fin n)} {s t : State ℝ} {p : Params ℝ}

theorem State.Tracks.objective_lt (ha : Realizes a M) (hs : s.Tracks M p.damp b x₀)
    (h : (Lsmr.step a p s).state? = some t) :
    objective M p.damp b x₀ (vec n t.x) < objective M p.damp b x₀ (vec n s.x) := by
  obtain ⟨g, q, hg, ht, -, ⟨-, hstep, -⟩ | ⟨rule, -, hstep⟩⟩ := step_tracks ha hs
  all_goals
    rw [hstep] at h
    cases h
    exact hs.objective_turned_lt hg ht

variable {w : Workspace ℝ} {rhs x : Array ℝ} {rule : Stop} (ha : Realizes a M) (hw : w.Sized m n)
  (hrhs : rhs.size = m) (hx : x.size = n)

include ha hw hrhs hx

theorem Head.objective_le (head : Head w a rhs x p s) :
    objective M p.damp (vec m rhs) (vec n x) (vec n s.x) ≤ ‖vec m rhs - M (vec n x)‖ ^ 2 := by
  induction head with
  | first starts =>
    simp [State.initial, objective, norm_sub_rev]
  | next head goes _ ih =>
    have hs := head.tracks ha hw hrhs hx
    exact (hs.objective_lt ha (by rw [goes]; rfl)).le.trans ih

/-- A solve ends at its start where there is no normal residual, and below it everywhere else. -/
theorem Exit.progress (h : Exit w a rhs x p t rule) :
    (adjoint M (vec m rhs - M (vec n x)) = 0 ∧ t.x = x) ∨
      (adjoint M (vec m rhs - M (vec n x)) ≠ 0 ∧
        objective M p.damp (vec m rhs) (vec n x) (vec n t.x) <
          ‖vec m rhs - M (vec n x)‖ ^ 2) := by
  obtain ⟨g, hfirst, hg⟩ := firstBasis_done ha hw hrhs hx
  have hgradient : adjoint M (vec m rhs - M (vec n x)) = (g.alpha * g.beta) • vec n g.v := by
    rw [hg.residual, map_smul, hg.parameter, smul_smul, mul_comm]
  have moves : ∀ s, Head w a rhs x p s → adjoint M (vec m rhs - M (vec n x)) ≠ 0 := by
    intro s head hzero
    have hproduct : g.alpha * g.beta ≠ 0 := of_decide_eq_false (head.moves hfirst)
    have hv := hg.norm_v (lt_of_le_of_ne hg.alpha_nonneg (left_ne_zero_of_mul hproduct).symm)
    rw [hgradient, smul_eq_zero, or_iff_right hproduct] at hzero
    simp [hzero] at hv
  cases h with
  | rests starts zero =>
    obtain rfl : g = _ := Outcome.done.inj (hfirst.symm.trans starts)
    have hproduct : g.alpha * g.beta = 0 := of_decide_eq_true zero
    exact .inl ⟨by rw [hgradient, hproduct, zero_smul], rfl⟩
  | stopped head stops =>
    have hs := head.tracks ha hw hrhs hx
    exact .inr ⟨moves _ head, (hs.objective_lt ha (by rw [stops]; rfl)).trans_le
      (head.objective_le ha hw hrhs hx)⟩
  | limit head goes =>
    have hs := head.tracks ha hw hrhs hx
    exact .inr ⟨moves _ head, (hs.objective_lt ha (by rw [goes]; rfl)).trans_le
      (head.objective_le ha hw hrhs hx)⟩

end Run

/-! ## Damped steps -/

variable {J : Type} [LinearOperator J ℝ] {j : J} {m n : ℕ} {B : Matrix (Fin m) (Fin n) ℝ}
  {s : DampedStep ℝ} {f dtd step : Array ℝ}

/-- Without a gradient the step is zero.  Everywhere else it moves, and lowers the squares of the
linear model. -/
theorem DampedStep.solve_progress (hj : Realizes j (toEuclideanLin B)) (hs : s.Shaped m n)
    (hf : f.size = m) (hdtd : dtd.size = n) (hstep : step.size = n) (lambda : ℝ) :
    ∃ answer inner, s.solve j f dtd lambda step = .done answer ∧ answer.inner = some inner ∧
      answer.solver.Shaped m n ∧ answer.step.size = n ∧
      ((adjoint (toEuclideanLin B) (vec m f) = 0 ∧ vec n answer.step = 0) ∨
        (adjoint (toEuclideanLin B) (vec m f) ≠ 0 ∧ vec n answer.step ≠ 0 ∧
          ‖vec m f + toEuclideanLin B (vec n answer.step)‖ ^ 2 < ‖vec m f‖ ^ 2)) := by
  obtain ⟨answer, t, rule, hsolve, hexit, hsize, hanswer, hinner, hshaped, -⟩ :=
    solve_ends hj hs hf hstep dtd lambda
  have hupdate : (s.damping.update lambda dtd).Sized n := sized_update hs.damping
  have hstart : vec n (step.map fun _ => (0 : ℝ)) = 0 := vec_map_zero hstep
  have hgradient := adjoint_system_eq_zero_iff (B := B) hs.damping lambda hf hdtd
  have hprogress := hexit.progress (realizes_damped hj hupdate) hs.workspace.sized
    (Lsmr.size_rightHandSide hf) (by simpa using hstep)
  rw [hstart, map_zero, sub_zero] at hprogress
  refine ⟨answer, t.iteration, hsolve, hinner, hshaped, ?_, ?_⟩
  · rw [hanswer]
    exact (Vec.size_zipUpdate _ _ _).trans hsize
  rcases hprogress with ⟨hzero, hx⟩ | ⟨hne, hlt⟩
  · refine .inl ⟨hgradient.1 hzero, ?_⟩
    ext k
    rw [hanswer, vec_unscale hupdate hsize, hx, hstart]
    simp
  · have hdecrease : ‖vec m f + toEuclideanLin B (vec n answer.step)‖ ^ 2 < ‖vec m f‖ ^ 2 := by
      rw [hanswer, ← norm_sq_rightHandSide (n := n) hf]
      refine (norm_sq_model_le hupdate hf hsize).trans_lt (lt_of_le_of_lt ?_ hlt)
      exact le_add_of_nonneg_right (by positivity)
    refine .inr ⟨fun h => hne (hgradient.2 h), fun hzero => ?_, hdecrease⟩
    rw [hzero, map_zero, add_zero] at hdecrease
    exact lt_irrefl _ hdecrease

end LeastSquares.Lsmr
