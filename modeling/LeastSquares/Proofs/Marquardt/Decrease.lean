import LeastSquares.Proofs.Dense.Definite
import LeastSquares.Proofs.Marquardt.Frozen
import LeastSquares.Proofs.Marquardt.Reports

/-!
# Levenberg–Marquardt: steps that decrease

Along a solve the damping stays positive, and so do the column norms that it scales.  So the direct
step solver has a step in every iteration, the linear model predicts a decrease for each step that
moves, and a trial point that is accepted lowers the residual.
-/

namespace LeastSquares.Marquardt

open Exact
open LeastSquares.Dense (NormalEquations)

/-! ## A damping that stays positive -/

section Damped

variable {S J P : Type} [LinearOperator J ℝ] [StepSolver S J ℝ] {problem : Problem ℝ J P}
  {o : Options ℝ} {m n : ℕ} {Good : S → Prop} {K : J → Prop} {s t a r : State ℝ S J P}

/-- The damping is positive, and so are the column norms that are not stale. -/
structure State.Damped (n : ℕ) (s : State ℝ S J P) : Prop where
  lambda : 0 < s.lambda
  dtd : s.stale = false → ∀ j, 0 < vec n s.buffers.dtd j

omit [StepSolver S J ℝ] in
theorem State.Damped.refresh (ho : o.Damps) (hs : s.Damped n)
    (hr : ({ s with outer := s.outer + 1 }).refresh problem o = .done r)
    (hsize : r.buffers.dtd.size = n) : r.Damped n := by
  rcases State.refresh_done hr with ⟨-, rfl⟩ | ⟨-, p, j, squares, -, -, rfl⟩
  · exact ⟨hs.lambda, hs.dtd⟩
  · refine ⟨hs.lambda, fun _ j => ?_⟩
    rw [vec_eq_getElem hsize, Array.getElem_map, max_eq]
    exact lt_max_of_lt_right ho.minDiagonal

theorem State.Damped.asks {inner : Option ℕ} (ho : o.Damps) (hs : s.Damped n)
    (h : Asks problem o s a inner) (hsize : a.buffers.dtd.size = n) : a.Damped n := by
  obtain ⟨r, hr, ha⟩ := h
  obtain ⟨answer, -, -, rfl⟩ := State.askStep_done ha
  have hdamped : r.Damped n := hs.refresh ho hr hsize
  exact ⟨hdamped.lambda, hdamped.dtd⟩

theorem State.Damped.judges {inner : ℕ} (ho : o.Damps) (hs : s.Damped n)
    (h : Judges problem o s inner t) (hsize : t.buffers.dtd.size = n) : t.Damped n := by
  obtain ⟨a, asks, -, ht⟩ := h.evaluates
  have hdamped : a.Damped n := hs.asks ho asks (ht.dtd ▸ hsize)
  exact ⟨h.frame.2.2.1 ▸ hs.lambda, fun hstale => ht.dtd ▸ hdamped.dtd (ht.stale ▸ hstale)⟩

theorem State.Damped.iterate (ho : o.Damps) (hK : Sustains m n Good K problem)
    (hsound : s.Sound m n Good K)
    (hj : s.stale = true → ∀ p' j, problem.jacobian s.problem s.x s.jacobian = .done (p', j) → K j)
    (hs : s.Damped n) (h : (s.iterate problem o).state? = some t) : t.Damped n := by
  rcases of_iterate h with ⟨a, asks, rfl⟩ | ⟨a, inner, asks, -, rfl⟩ | ⟨inner, c, judges, -, rfl⟩ |
    ⟨inner, c, judges, -, rfl⟩
  · have ha := hs.asks ho asks (hsound.asks hK hj asks).1.buffers.dtd
    exact ⟨ho.raised_pos ha.lambda, ha.dtd⟩
  · have ha := hs.asks ho asks (hsound.asks hK hj asks).1.buffers.dtd
    exact ⟨ha.lambda, ha.dtd⟩
  · have hc := hs.judges ho judges (hsound.judges hK hj judges).1.buffers.dtd
    refine ⟨?_, Bool.noConfusion⟩
    simp only [State.accept]
    split
    · exact ho.lowered_pos _
    · exact hc.lambda
  · have hc := hs.judges ho judges (hsound.judges hK hj judges).1.buffers.dtd
    exact ⟨ho.raised_pos hc.lambda, hc.dtd⟩

theorem damped_of_head {solver : Solver ℝ S} {p : P} {jacobian : J} {x : Array ℝ} (ho : o.Damps)
    (hK : Sustains solver.nrows solver.ncols Good K problem)
    (hsolver : solver.buffers.Sized solver.nrows solver.ncols) (hgood : Good solver.stepSolver)
    (hj : Evaluated K solver problem o p jacobian x) {k : ℕ}
    (head : Head solver problem o p jacobian x k s) : s.Damped solver.ncols := by
  induction head with
  | first => exact ⟨ho.clamped_pos _, Bool.noConfusion⟩
  | next head _ _ goes ih =>
    exact ih.iterate ho hK (sound_of_head hK hsolver hgood hj head) (hj _ _ head)
      (congrArg Step.state? goes)

end Damped

/-! ## The direct step solver -/

section Direct

variable {P : Type} {problem : Problem ℝ (Dense.Matrix ℝ) P} {solver : Solver ℝ (NormalEquations ℝ)}
  {o : Options ℝ} {p : P} {jacobian : Dense.Matrix ℝ} {x : Array ℝ} {m n k : ℕ}
  {s t a r : State ℝ (NormalEquations ℝ) (Dense.Matrix ℝ) P}

structure State.Solved (m n : ℕ) (s : State ℝ (NormalEquations ℝ) (Dense.Matrix ℝ) P) : Prop where
  nrows : s.jacobian.nrows = m
  ncols : s.jacobian.ncols = n
  residuals : s.buffers.residuals.size = m
  residual : s.residual = Vec.dot s.buffers.residuals s.buffers.residuals
  step : s.buffers.step.size = n
  damped : ∀ j, 0 < s.lambda ^ 2 * vec n s.buffers.dtd j
  solves : IsStep (entries m n s.jacobian) (vec m s.buffers.residuals) (vec n s.buffers.dtd)
    s.lambda (vec n s.buffers.step)

variable (hproblem : problem.InPlace solver.nrows solver.ncols)
  (hsolver : solver.buffers.Sized solver.nrows solver.ncols)
  (hncols : solver.stepSolver.ncols = solver.ncols)
  (hj : Evaluated (IsMatrix solver.nrows solver.ncols) solver problem o p jacobian x)
  (ho : o.Damps)

include hproblem hsolver hncols hj ho

theorem exists_step_of_refresh (head : Head solver problem o p jacobian x k s)
    (hr : ({ s with outer := s.outer + 1 }).refresh problem o = .done r) :
    ∃ a inner, r.askStep = .done (a, some inner) ∧ a.Solved solver.nrows solver.ncols := by
  have hK := sustains_direct (K := IsMatrix solver.nrows solver.ncols) hproblem fun _ => id
  have hs := sound_of_head hK hsolver hncols hj head
  obtain ⟨hsound, hstale, -⟩ := hs.refresh hK (hj _ _ head) hr
  have hdamped : r.Damped solver.ncols :=
    (damped_of_head ho hK hsolver hncols hj head).refresh ho hr hsound.buffers.dtd
  obtain ⟨B, hB⟩ := hsound.jacobian hstale
  have hpos (j : Fin solver.ncols) : 0 < r.lambda ^ 2 * vec solver.ncols r.buffers.dtd j :=
    mul_pos (pow_pos hdamped.lambda 2) (hdamped.dtd hstale j)
  obtain ⟨answer, inner, hanswer, hinner, -, hsize, hstep⟩ :=
    (NormalEquations.answersSteps _ _).solveStep _ _ _ _ _ _ hsound.good
      ⟨hB.nrows, hB.ncols, hsound.buffers.residuals, hsound.buffers.dtd, hsound.buffers.step, hpos⟩
  have hask := State.askStep_eq_done hanswer
  rw [hinner] at hask
  exact ⟨_, inner, hask,
    ⟨hB.nrows, hB.ncols, hsound.buffers.residuals, hsound.residual, hsize, hpos, hstep⟩⟩

theorem solved_of_asks {answer : Option ℕ} (head : Head solver problem o p jacobian x k s)
    (asks : Asks problem o s a answer) :
    answer.isSome = true ∧ a.Solved solver.nrows solver.ncols := by
  obtain ⟨r, hr, ha⟩ := asks
  obtain ⟨a', inner, ha', hsolved⟩ :=
    exists_step_of_refresh hproblem hsolver hncols hj ho head hr
  cases ha'.symm.trans ha
  exact ⟨rfl, hsolved⟩

end Direct

end LeastSquares.Marquardt
