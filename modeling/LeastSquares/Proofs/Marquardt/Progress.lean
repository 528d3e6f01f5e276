import Mathlib
import LeastSquares.Dense.Matrix
import LeastSquares.Proofs.Lsmr.Progress
import LeastSquares.Proofs.Marquardt.Agreement
import LeastSquares.Proofs.Marquardt.Invariant

/-!
# Levenberg–Marquardt: the predicted decrease

Over steps by LSMR a trial is only judged for a step that moves, and for each of those the linear
model predicts a decrease.  So the denominator of the gain ratio is positive, also where the inner
solve stopped early.
-/

namespace LeastSquares.Marquardt

open Exact
open Lsmr (DampedStep Workspace)
open Matrix (toEuclideanLin)
open LinearMap (adjoint)

variable {J P : Type} [LinearOperator J ℝ] {m n : ℕ} {problem : Problem ℝ J P}

inductive IsMatrix (m n : ℕ) (j : J) : Prop
  | intro (B : Matrix (Fin m) (Fin n) ℝ) (realizes : Realizes j (toEuclideanLin B))

theorem IsMatrix.size_apply {j : J} (hj : IsMatrix m n j) {v out r : Array ℝ} (hv : v.size = n)
    (hout : out.size = m) (h : LinearOperator.apply j 1 v 1 out = .done r) : r.size = m := by
  obtain ⟨B, hB⟩ := hj
  obtain ⟨r', hr', hsize, -⟩ := hB.apply 1 v 1 out hv hout
  cases hr'.symm.trans h
  exact hsize

theorem sustains_damped (hproblem : problem.InPlace m n) {K : J → Prop}
    (hK : ∀ j, K j → IsMatrix m n j) :
    Sustains m n (fun s : DampedStep ℝ => s.Shaped m n) K problem where
  inPlace := hproblem
  apply j _ _ _ hj hv hout h := (hK j hj).size_apply hv hout h
  solveStep s j f dtd lambda step a hs hj hf _ hstep h := by
    obtain ⟨B, hB⟩ := hK j hj
    obtain ⟨answer, t, -, hanswer, -, hsize, hunscale, -, hshaped, -⟩ :=
      DampedStep.solve_ends hB hs hf hstep dtd lambda
    cases hanswer.symm.trans h
    refine ⟨hshaped, ?_⟩
    rw [hunscale]
    exact (Vec.size_zipUpdate _ _ _).trans hsize

theorem exists_judges_of_gradient {o : Options ℝ} {B : Matrix (Fin m) (Fin n) ℝ}
    {s r : State ℝ (DampedStep ℝ) J P}
    (hr : ({ s with outer := s.outer + 1 }).refresh problem o = .done r)
    (hB : Realizes r.jacobian (toEuclideanLin B)) (hbuffers : r.buffers.Sized m n)
    (hgood : r.stepSolver.Shaped m n)
    (hne : adjoint (toEuclideanLin B) (vec m r.buffers.residuals) ≠ 0)
    (tries : ∀ y, ∃ p' tried,
      problem.residuals r.problem y r.buffers.trialResiduals = .done (p', tried)) :
    ∃ inner t, Judges problem o s inner t := by
  obtain ⟨answer, inner, hanswer, hinner, -, hsize, hprogress⟩ := DampedStep.solve_progress hB hgood
    hbuffers.residuals hbuffers.dtd hbuffers.step r.lambda
  obtain ⟨predicted, hpredicted, -⟩ :=
    hB.apply 1 answer.step 1 r.buffers.residuals hsize hbuffers.residuals
  have moves : answer.step.all (· == 0) = false := by
    rw [← Bool.not_eq_true, ← vec_eq_zero_iff hsize]
    rcases hprogress with ⟨hzero, -⟩ | ⟨-, hmoves, -⟩
    · exact absurd hzero hne
    · exact hmoves
  obtain ⟨t, judges⟩ := exists_judges hr hanswer hinner moves hpredicted tries
  exact ⟨inner, t, judges⟩

variable {solver : Solver ℝ (DampedStep ℝ)} {o : Options ℝ} {p : P} {jacobian : J} {x : Array ℝ}

theorem exists_judges_first {B : Matrix (Fin solver.nrows) (Fin solver.ncols) ℝ} {p' p'' : P}
    {r squares : Array ℝ} {j : J} (o : Options ℝ)
    (hsolver : solver.buffers.Sized solver.nrows solver.ncols)
    (hgood : solver.stepSolver.Shaped solver.nrows solver.ncols)
    (fits : solver.misfit? jacobian x = none)
    (evaluates : problem.residuals p x solver.buffers.residuals = .done (p', r))
    (hr : r.size = solver.nrows) (hj : problem.jacobian p' x jacobian = .done (p'', j))
    (hB : Realizes j (toEuclideanLin B))
    (hsquares : LinearOperator.columnSquares j solver.buffers.dtd = .done squares)
    (hsize : squares.size = solver.ncols) (hne : adjoint (toEuclideanLin B) (vec _ r) ≠ 0)
    (tries : ∀ y, ∃ p₃ tried,
      problem.residuals p'' y solver.buffers.trialResiduals = .done (p₃, tried)) :
    ∃ s inner t, Head solver problem o p jacobian x 0 s ∧ Judges problem o s inner t := by
  obtain ⟨inner, t, judges⟩ := exists_judges_of_gradient
    (s := solver.evaluated o p jacobian x p' r) (State.refresh_eq_done o rfl hj hsquares) hB
    { hsolver with residuals := hr, dtd := by simpa [Solver.evaluated] } hgood hne tries
  exact ⟨_, inner, t, .first fits evaluates (isFinite_eq_true _), judges⟩

theorem predicted_lt_residual (hproblem : problem.InPlace solver.nrows solver.ncols)
    (hsolver : solver.buffers.Sized solver.nrows solver.ncols)
    (hgood : solver.stepSolver.Shaped solver.nrows solver.ncols)
    (hj : Evaluated (IsMatrix solver.nrows solver.ncols) solver problem o p jacobian x)
    {k inner : ℕ} {s t : State ℝ (DampedStep ℝ) J P}
    (head : Head solver problem o p jacobian x k s) (judges : Judges problem o s inner t) :
    t.predicted < t.residual := by
  have hK := sustains_damped (K := IsMatrix solver.nrows solver.ncols) hproblem fun _ => id
  have hs := sound_of_head hK hsolver hgood hj head
  obtain ⟨ht, -, -, q, hq, hinner, hmoves, -, -, hresidual, hpredicts⟩ :=
    hs.judges hK (hj _ _ head) judges
  obtain ⟨B, hB⟩ := hq.jacobian
  obtain ⟨answer, -, hsolve, -, -, hsize, hprogress⟩ :=
    DampedStep.solve_progress hB hq.good hq.residuals hq.dtd hq.buffer q.lambda
  obtain rfl : answer = q.answer := Outcome.done.inj (hsolve.symm.trans hq.answer)
  obtain ⟨r, hr, hsizer, hvec⟩ := hB.apply 1 q.answer.step 1 q.residuals hsize hq.residuals
  cases hr.symm.trans hpredicts
  rcases hprogress with ⟨-, hzero⟩ | ⟨-, -, hlt⟩
  · rw [(vec_eq_zero_iff hsize).1 hzero] at hmoves
    cases hmoves
  · rw [State.predicted, hresidual, dot_eq_inner hsizer hsizer,
      dot_eq_inner hq.residuals hq.residuals, real_inner_self_eq_norm_sq,
      real_inner_self_eq_norm_sq, hvec, one_smul, one_smul, add_comm]
    exact hlt

/-- A truncated solve by LSMR from a start with a normal residual ends strictly below its start.  So
a damped step over a gradient that is not zero moves and lowers the squares of the linear model, and
every gain ratio over steps by LSMR has a positive denominator. -/
theorem truncated_progress :
    (∀ {A : Type} [LinearOperator A ℝ] {a : A} {m n : ℕ}
      {M : EuclideanSpace ℝ (Fin n) →ₗ[ℝ] EuclideanSpace ℝ (Fin m)} {w : Workspace ℝ}
      {rhs x : Array ℝ}, Realizes a M → w.Sized m n → rhs.size = m → x.size = n →
      adjoint M (vec m rhs - M (vec n x)) ≠ 0 → ∀ p, ∃ sol info,
        Lsmr.solve w a rhs x p = .ok sol ∧ sol.info = some info ∧ sol.x.size = n ∧
          ‖vec m rhs - M (vec n sol.x)‖ ^ 2 + p.damp ^ 2 * ‖vec n sol.x - vec n x‖ ^ 2 <
            ‖vec m rhs - M (vec n x)‖ ^ 2) ∧
    (∀ {J : Type} [LinearOperator J ℝ] {j : J} {m n : ℕ} {B : Matrix (Fin m) (Fin n) ℝ}
      {s : DampedStep ℝ} {f dtd step : Array ℝ}, Realizes j (toEuclideanLin B) → s.Shaped m n →
      f.size = m → dtd.size = n → step.size = n → adjoint (toEuclideanLin B) (vec m f) ≠ 0 →
      ∀ lambda, ∃ answer, s.solve j f dtd lambda step = .done answer ∧
        answer.inner.isSome = true ∧ vec n answer.step ≠ 0 ∧
          ‖vec m f + toEuclideanLin B (vec n answer.step)‖ ^ 2 < ‖vec m f‖ ^ 2) ∧
    (∀ {J P : Type} [LinearOperator J ℝ] {problem : Problem ℝ J P}
      {solver : Solver ℝ (DampedStep ℝ)} {o : Options ℝ} {p : P} {jacobian : J} {x : Array ℝ},
      problem.InPlace solver.nrows solver.ncols → solver.buffers.Sized solver.nrows solver.ncols →
      solver.stepSolver.Shaped solver.nrows solver.ncols →
      Evaluated (IsMatrix solver.nrows solver.ncols) solver problem o p jacobian x →
      ∀ k s inner t, Head solver problem o p jacobian x k s → Judges problem o s inner t →
        0 < t.residual - t.predicted) := by
  refine ⟨?_, ?_, ?_⟩
  · intro A _ a m n M w rhs x ha hw hrhs hx hne p
    obtain ⟨sol, t, rule, hsolve, hexit, hinfo, ht⟩ := Lsmr.solve_ends ha hw hrhs hx p
    have hsize := (hexit.faithful ha hw hrhs hx).size_x
    rcases hexit.progress ha hw hrhs hx with ⟨hzero, -⟩ | ⟨-, hlt⟩
    · exact absurd hzero hne
    · rw [Lsmr.objective, norm_sub_rev _ (vec m rhs)] at hlt
      exact ⟨sol, _, hsolve, hinfo, ht ▸ hsize, ht ▸ hlt⟩
  · intro J _ j m n B s f dtd step hj hs hf hdtd hstep hne lambda
    obtain ⟨answer, inner, hsolve, hinner, -, -, hprogress⟩ :=
      DampedStep.solve_progress hj hs hf hdtd hstep lambda
    rcases hprogress with ⟨hzero, -⟩ | ⟨-, hmoves, hlt⟩
    · exact absurd hzero hne
    · exact ⟨answer, hsolve, by rw [hinner]; rfl, hmoves, hlt⟩
  · intro J P _ problem solver o p jacobian x hproblem hsolver hgood hj k s inner t head judges
    exact sub_pos.2 (predicted_lt_residual hproblem hsolver hgood hj head judges)

/-- Two residuals of two parameters, with inner solves of no iterations beyond the first. -/
theorem truncated_progress_linear :
    let a : Dense.Matrix ℝ := .ofFn 2 2 fun row col => if row ≤ col then 1 else 0
    let s : DampedStep ℝ := .new 2 2 ⟨0, 0, 0, 0, 2⟩
    let solver : Solver ℝ (DampedStep ℝ) := ⟨2, 2, s, .new 2 2⟩
    let problem : Problem ℝ (Dense.Matrix ℝ) Unit :=
      ⟨fun p y _ => .done (p, #[y.getD 0 0 + y.getD 1 0, y.getD 1 0]), fun p _ _ => .done (p, a)⟩
    (∃ sol info, Lsmr.solve (.new 2 2) a #[1, 0] #[3, 1] ⟨0, 0, 0, 0, 2⟩ = .ok sol ∧
      sol.info = some info ∧ ‖vec 2 #[1, 0] - linear 2 2 a (vec 2 sol.x)‖ ^ 2 +
        (2 : ℝ) ^ 2 * ‖vec 2 sol.x - vec 2 #[3, 1]‖ ^ 2 <
          ‖vec 2 #[1, 0] - linear 2 2 a (vec 2 #[3, 1])‖ ^ 2) ∧
    (∃ answer, s.solve a #[3, 1] #[1, 4] 1 #[0, 0] = .done answer ∧ vec 2 answer.step ≠ 0 ∧
      ‖vec 2 #[3, 1] + linear 2 2 a (vec 2 answer.step)‖ ^ 2 < ‖vec 2 #[3, 1]‖ ^ 2) ∧
    problem.InPlace 2 2 ∧ ∃ r inner t, Head solver problem .default () a #[2, 1] 0 r ∧
      Judges problem .default r inner t ∧ 0 < t.residual - t.predicted := by
  intro a s solver problem
  obtain ⟨hsolves, hsteps, hjudges⟩ := truncated_progress
  have ha : Realizes a (linear 2 2 a) := realizes_ofFn 2 2 _
  have hgood : s.Shaped 2 2 := DampedStep.shaped_new 2 2 _
  have hadjoint (y : EuclideanSpace ℝ (Fin 2)) : adjoint (linear 2 2 a) y 0 = y 0 := by
    simp [adjoint_linear_apply, a, entries_ofFn]
  have hstart : adjoint (linear 2 2 a) (vec 2 #[1, 0] - linear 2 2 a (vec 2 #[3, 1])) ≠ 0 := by
    intro h
    have hentry := congrArg (fun y : EuclideanSpace ℝ (Fin 2) => y 0) h
    simp only [hadjoint, PiLp.sub_apply, linear_apply, a, entries_ofFn, Fin.sum_univ_two] at hentry
    norm_num at hentry
  have hgradient : adjoint (linear 2 2 a) (vec 2 #[3, 1]) ≠ 0 := by
    intro h
    have hentry := congrArg (fun y : EuclideanSpace ℝ (Fin 2) => y 0) h
    simp [hadjoint] at hentry
  have hf : (#[3, 1] : Array ℝ).size = 2 := rfl
  have hdtd : (#[1, 4] : Array ℝ).size = 2 := rfl
  have hstep : (#[0, 0] : Array ℝ).size = 2 := rfl
  obtain ⟨sol, info, hsolve, hinfo, -, hlt⟩ :=
    hsolves ha (Workspace.sized_new 2 2) rfl rfl hstart ⟨0, 0, 0, 0, 2⟩
  obtain ⟨answer, hanswer, hsome, hmoves, hdecrease⟩ :=
    hsteps ha hgood hf hdtd hstep hgradient 1
  have hproblem : problem.InPlace 2 2 := Problem.inPlace_of_size fun _ => rfl
  have hj : Evaluated (IsMatrix 2 2) solver problem .default () a #[2, 1] :=
    evaluated_of_constant ⟨entries 2 2 a, ha⟩
  have fits : solver.misfit? a #[2, 1] = none := Solver.misfit?_eq_none_iff.2
    ⟨rfl, Prod.ext ha.nrows ha.ncols, hgood.fits_iff.2 ⟨rfl, rfl⟩⟩
  obtain ⟨squares, hsquares, hnorms⟩ := a.columnSquares_done ha.ncols
  have hresiduals : problem.residuals () #[2, 1] solver.buffers.residuals =
      .done ((), #[2 + 1, 1]) := rfl
  have hgradient' : adjoint (linear 2 2 a) (vec 2 #[2 + 1, 1]) ≠ 0 := by
    rwa [show (2 : ℝ) + 1 = 3 by norm_num]
  have hjacobian : problem.jacobian () #[2, 1] a = .done ((), a) := rfl
  obtain ⟨r, inner, t, head, judges⟩ := exists_judges_first .default (Buffers.sized_new 2 2) hgood
    fits hresiduals rfl hjacobian ha (hnorms _ (Buffers.sized_new 2 2).dtd) hsquares hgradient'
    fun y => ⟨_, _, rfl⟩
  exact ⟨⟨sol, info, hsolve, hinfo, hlt⟩, ⟨answer, hanswer, hmoves, hdecrease⟩, hproblem, r, inner,
    t, head, judges, hjudges hproblem (Buffers.sized_new 2 2) hgood hj 0 r inner t head judges⟩

end LeastSquares.Marquardt
