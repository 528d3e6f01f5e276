import Mathlib
import LeastSquares.Proofs.Double.Largest
import LeastSquares.Proofs.Double.Sign
import LeastSquares.Proofs.Marquardt.Coherence
import LeastSquares.Proofs.Marquardt.Freshness
import LeastSquares.Proofs.Marquardt.Reports

/-!
# Levenberg–Marquardt: what the status of a solve says

Every status stands for a fact about the end of its solve: a residual that is zero, a last step that
is zero or small, all iterations made, or a start whose residual is not finite.  A solve ends as
soon as one of these comes about, and makes no iteration after it.
-/

namespace LeastSquares.Marquardt

variable {α S J P : Type} [Scalar α]

variable [LinearOperator J α] [StepSolver S J α]

section

variable (solver : Solver α S) (problem : Problem α J P) (o : Options α) (p : P) (jacobian : J)
  (x : Array α)

/-- The last iteration of a solve with these statistics began in `s`, asked the step solver in `r`
and got this answer. -/
structure LastAnswer (stats : Stats α) (s r : State α S J P) (answer : StepAnswer S α) : Prop where
  head : ∃ k, Head solver problem o p jacobian x k s ∧ k + 1 = stats.outer
  refreshed : ({ s with outer := s.outer + 1 }).refresh problem o = .done r
  answers : StepSolver.solveStep r.stepSolver r.jacobian r.buffers.residuals r.buffers.dtd r.lambda
    r.buffers.step = .done answer

structure Justified (run : Run α S J P) (stats : Stats α) : Prop where
  outer_le : stats.outer ≤ o.maxIters
  /-- The parameters are the start, or the trial point that was accepted last. -/
  held : run.x = (replay x run.events).1
  failure : stats.status = .numericalFailure →
    run.x = x ∧ run.jacobian = jacobian ∧ run.solver.stepSolver = solver.stepSolver ∧
    run.events = #[.residuals x, .finished stats] ∧ stats.outer = 0
  residual : stats.status = .convergedResidual → (stats.residual == 0) = true
  gradient : stats.status = .convergedGradient → stats.stepInf = 0 ∧ ∃ s r answer,
    LastAnswer solver problem o p jacobian x stats s r answer ∧
    answer.inner.isSome = true ∧ answer.step.all (· == 0) = true ∧
    run.x = s.x ∧ run.solver.stepSolver = answer.solver ∧ run.solver.buffers.step = answer.step ∧
    run.events = ((r.note (.step r.buffers.residuals r.buffers.dtd r.lambda)).noteAll
      answer.log).events.push (.finished stats)
  step : stats.status = .convergedStep → ∃ s r answer inner t,
    LastAnswer solver problem o p jacobian x stats s r answer ∧ answer.inner = some inner ∧
    Judges problem o s inner t ∧ t.Accepts o ∧ t.buffers.step = answer.step ∧
    run.x = t.buffers.trialPoint ∧ run.solver.stepSolver = answer.solver ∧
    run.solver.buffers.step = answer.step ∧
    calls run.events = calls r.events ++
      [.step r.buffers.residuals r.buffers.dtd r.lambda, .residuals run.x] ∧
    (∃ before, reporterCalls run.events =
      before ++ [.report (t.verdict o inner), .finished stats]) ∧
    (t.verdict o inner).accepted = true ∧ stats.stepInf = Vec.maxAbs answer.step ∧
    ∀ entry ∈ answer.step, Scalar.isNaN entry = false ∧ Scalar.abs entry < o.tol
  limit : stats.status = .maxIterations → stats.outer = o.maxIters

end

variable {problem : Problem α J P} {o : Options α} {s a t : State α S J P} {inner k : Nat}

section Solves

variable {solver : Solver α S} {p : P} {jacobian : J} {x : Array α} {status : Status}

theorem LastAnswer.of_asks {inner : Option Nat} {stats : Stats α}
    (head : Head solver problem o p jacobian x k s) (houter : k + 1 = stats.outer)
    (asks : Asks problem o s a inner) :
    ∃ r answer, LastAnswer solver problem o p jacobian x stats s r answer ∧ answer.inner = inner ∧
      a = { (r.note (.step r.buffers.residuals r.buffers.dtd r.lambda)).noteAll answer.log with
        stepSolver := answer.solver
        buffers.step := answer.step } ∧
      calls a.events = calls r.events ++ [.step r.buffers.residuals r.buffers.dtd r.lambda] := by
  obtain ⟨r, hr, ha⟩ := asks
  obtain ⟨answer, hanswer, rfl, rfl⟩ := State.askStep_done ha
  exact ⟨r, answer, ⟨⟨k, head, houter⟩, hr, hanswer⟩, rfl, rfl, r.calls_asked answer.log⟩

theorem outer_le_of_exit (exit : Exit solver problem o p jacobian x t status) :
    t.outer ≤ o.maxIters := by
  cases exit with
  | failure => exact Nat.zero_le _
  | limit head => exact (outer_of_head head).le
  | zero head more => exact (outer_of_head head).trans_le more.le
  | stopped head more nonzero stops =>
    rw [outer_of_iterate (congrArg Step.state? stops), outer_of_head head]
    exact more

theorem justified_of_exit (hsmall : ∀ xs : Array α, Vec.maxAbs xs < o.tol →
      ∀ entry ∈ xs, Scalar.isNaN entry = false ∧ Scalar.abs entry < o.tol)
    (exit : Exit solver problem o p jacobian x t status) :
    Justified solver problem o p jacobian x (solver.solve problem o p jacobian x)
      (t.stats status) := by
  have hrun := solve_of_exit exit
  have hle := outer_le_of_exit exit
  have held : t.x = (replay x (t.events.push (.finished (t.stats status)))).1 := by
    rw [replay_push]
    exact (held_of_exit exit).symm
  rw [hrun]
  cases exit with
  | failure =>
    exact ⟨hle, held, fun _ => ⟨rfl, rfl, rfl, rfl, rfl⟩, nofun, nofun, nofun, nofun⟩
  | limit head => exact ⟨hle, held, nofun, nofun, nofun, nofun, fun _ => outer_of_head head⟩
  | zero head more iszero =>
    exact ⟨hle, held, nofun, fun _ => iszero, nofun, nofun, nofun⟩
  | @stopped k s _ _ head more nonzero stops =>
    have houter : k + 1 = (t.stats status).outer := by
      rw [← outer_of_head head]
      exact (outer_of_iterate (congrArg Step.state? stops)).symm
    rcases of_iterate_stop stops with
      ⟨a, inner, asks, rests, rfl, rfl⟩ | ⟨inner, j, judges, hacc, hlt, rfl, rfl⟩
    · refine ⟨hle, held, nofun, nofun, fun _ => ⟨rfl, ?_⟩, nofun, nofun⟩
      obtain ⟨r, answer, last, hinner, ha, -⟩ := LastAnswer.of_asks head houter asks
      refine ⟨s, r, answer, last, by rw [hinner]; rfl, ?_, asks.frame.1, ?_⟩
      · rw [ha] at rests
        exact rests
      · rw [ha]
        exact ⟨rfl, rfl, rfl⟩
    · refine ⟨hle, held, nofun, nofun, nofun, fun _ => ?_, nofun⟩
      obtain ⟨a, asks, -, evaluates⟩ := judges.evaluates
      obtain ⟨r, answer, last, hinner, ha, hasked⟩ := LastAnswer.of_asks head houter asks
      have hstep : j.buffers.step = answer.step := by rw [evaluates.step, ha]
      have hstepInf : j.stepInf = Vec.maxAbs answer.step := by rw [evaluates.stepInf, ha]
      have hcalls : calls j.events = calls r.events ++
          [.step r.buffers.residuals r.buffers.dtd r.lambda, .residuals j.buffers.trialPoint] := by
        rw [evaluates.events, evaluates.trialPoint, calls_push, hasked]
        exact List.append_assoc _ _ _
      refine ⟨s, r, answer, inner, j, last, hinner, judges, hacc, hstep, rfl, ?_, hstep, ?_, ?_,
        decide_eq_true hacc, hstepInf, hsmall _ (hstepInf ▸ hlt)⟩
      · change j.stepSolver = answer.solver
        rw [evaluates.stepSolver, ha]
      · simpa [Solver.leave, State.accept, State.reported, State.note, calls_push, Event.isCall]
          using hcalls
      · refine ⟨reporterCalls j.events, ?_⟩
        change reporterCalls ((j.reported o inner).events.push _) = _
        rw [reporterCalls_push, State.reporterCalls_reported, List.append_assoc]
        rfl

theorem failure_iff :
    (∃ stats, (solver.solve problem o p jacobian x).ending = .finished stats ∧
      stats.status = .numericalFailure) ↔
    solver.misfit? jacobian x = none ∧ ∃ p' r,
      problem.residuals p x solver.buffers.residuals = .done (p', r) ∧
        Scalar.isFinite (Vec.dot r r) = false := by
  constructor
  · rintro ⟨stats, h, hstatus⟩
    obtain ⟨t, status, exit, rfl, -⟩ := exit_of_finished h
    obtain rfl : status = .numericalFailure := hstatus
    cases exit with
    | failure fits evaluates infinite => exact ⟨fits, _, _, evaluates, infinite⟩
    | stopped head more nonzero stops =>
      rcases of_iterate_stop stops with ⟨_, _, -, -, -, hstatus⟩ | ⟨_, _, -, -, -, -, hstatus⟩ <;>
        cases hstatus
  · rintro ⟨fits, p', r, evaluates, infinite⟩
    have exit := Exit.failure (o := o) fits evaluates infinite
    exact ⟨_, finished_of_exit exit, rfl⟩

theorem finished_of_head (head : Head solver problem o p jacobian x k s)
    (ends : k = o.maxIters ∨ (s.residual == 0) = true) :
    ∃ stats, (solver.solve problem o p jacobian x).ending = .finished stats ∧ stats.outer = k := by
  have houter := outer_of_head head
  by_cases hlimit : k = o.maxIters
  · have exit : Exit solver problem o p jacobian x s .maxIterations := .limit (hlimit ▸ head)
    exact ⟨_, finished_of_exit exit, houter⟩
  · have more := lt_of_le_of_ne (iterations_le_of_head head) hlimit
    have exit := Exit.zero head more (ends.resolve_left hlimit)
    exact ⟨_, finished_of_exit exit, houter⟩

theorem finished_of_stop (head : Head solver problem o p jacobian x k s) (more : k < o.maxIters)
    (nonzero : (s.residual == 0) = false) (stops : s.iterate problem o = .stop t status) :
    ∃ stats, (solver.solve problem o p jacobian x).ending = .finished stats ∧
      stats.status = status ∧ stats.outer = k + 1 := by
  have exit := Exit.stopped head more nonzero stops
  refine ⟨_, finished_of_exit exit, rfl, ?_⟩
  rw [← outer_of_head head]
  exact outer_of_iterate (congrArg Step.state? stops)

end Solves

/-- The status of a solve over machine numbers is justified.  It is a failure exactly where the
residual at the start is not finite, and no iteration is made after the first point where the solve
could end. -/
theorem solve_status {S J P : Type} [LinearOperator J Float] [StepSolver S J Float]
    {solver : Solver Float S} {problem : Problem Float J P} {o : Options Float} {p : P}
    {jacobian : J} {x : Array Float} :
    (∀ stats, (solver.solve problem o p jacobian x).ending = .finished stats →
      Justified solver problem o p jacobian x (solver.solve problem o p jacobian x) stats) ∧
    ((∃ stats, (solver.solve problem o p jacobian x).ending = .finished stats ∧
        stats.status = .numericalFailure) ↔
      solver.misfit? jacobian x = none ∧ ∃ p' r,
        problem.residuals p x solver.buffers.residuals = .done (p', r) ∧
          (Vec.dot r r).isFinite = false) ∧
    (∀ k s, Head solver problem o p jacobian x k s →
      (k = o.maxIters ∨ (s.residual == 0) = true →
        ∃ stats, (solver.solve problem o p jacobian x).ending = .finished stats ∧
          stats.outer = k) ∧
      (k < o.maxIters → (s.residual == 0) = false →
        (∀ a inner, Asks problem o s a (some inner) → a.buffers.step.all (· == 0) = true →
          ∃ stats, (solver.solve problem o p jacobian x).ending = .finished stats ∧
            stats.status = .convergedGradient ∧ stats.outer = k + 1) ∧
        (∀ inner t, Judges problem o s inner t → t.Accepts o → t.stepInf < o.tol →
          ∃ stats, (solver.solve problem o p jacobian x).ending = .finished stats ∧
            stats.status = .convergedStep ∧ stats.outer = k + 1))) := by
  refine ⟨fun stats h => ?_, ?_, fun k s head => ⟨finished_of_head head, fun more nonzero =>
    ⟨fun a inner asks rests => ?_, fun inner t judges hacc hlt => ?_⟩⟩⟩
  · obtain ⟨t, status, exit, rfl, -⟩ := exit_of_finished h
    refine justified_of_exit (fun xs hxs entry hentry => ?_) exit
    rw [Double.scalar_isNaN]
    exact Double.lt_of_maxAbs_lt hxs entry hentry
  · simp only [← Double.scalar_isFinite]
    exact failure_iff
  · exact finished_of_stop head more nonzero (asks.iterate_eq rests)
  · have stops := judges.iterate_eq.trans (State.judge_eq_stop_iff.2 ⟨hacc, hlt, rfl, rfl⟩)
    exact finished_of_stop head more nonzero stops

/-- A solve that ends on a small step after a rejection, one that is told to rest, and one from a
start that is NaN.  The last answer of either script is its last but one. -/
theorem solve_status_scripts :
    let problem : Problem Float (Dense.Matrix Float) Unit := identityProblem
    let jacobian : Dense.Matrix Float := .ofFn 1 1 fun _ _ => 1
    let small := Script.solver 1 1 [some (#[5], 1), none, some (#[-1e-9], 2), some (#[-1], 0)]
    let zero := Script.solver 1 1 [some (#[-1], 3), some (#[0], 1), some (#[-1], 0)]
    let fails := small.solve problem .default () jacobian #[0 / 0]
    (∃ stats s r answer inner t,
      (small.solve problem .default () jacobian #[2]).ending = .finished stats ∧
      stats.status = .convergedStep ∧ stats.outer = 3 ∧
      LastAnswer small problem .default () jacobian #[2] stats s r answer ∧
      answer.solver.answers.length = 1 ∧ answer.inner = some inner ∧
      Judges problem .default s inner t ∧
      (∃ before, reporterCalls (small.solve problem .default () jacobian #[2]).events =
        before ++ [.report (t.verdict .default inner), .finished stats]) ∧
      (t.verdict .default inner).accepted = true ∧
      ∀ entry ∈ answer.step, Scalar.isNaN entry = false ∧ Scalar.abs entry < 1e-8) ∧
    (∃ stats s r answer, (zero.solve problem .default () jacobian #[2]).ending = .finished stats ∧
      stats.status = .convergedGradient ∧ stats.outer = 2 ∧
      LastAnswer zero problem .default () jacobian #[2] stats s r answer ∧
      answer.solver.answers.length = 1 ∧ answer.inner.isSome = true ∧
      answer.step.all (· == 0) = true) ∧
    ∃ stats, fails.ending = .finished stats ∧ stats.status = .numericalFailure ∧
      fails.events = #[.residuals #[0 / 0], .finished stats] := by
  intro problem jacobian small zero fails
  refine ⟨?_, ?_, ?_⟩
  · have hrun : ((small.solve problem .default () jacobian #[2]).ending.stats?.any fun stats =>
        decide (stats.status = .convergedStep ∧ stats.outer = 3 ∧
          (small.solve problem .default () jacobian #[2]).solver.stepSolver.answers.length = 1)) =
        true := by
      decide +kernel
    obtain ⟨stats, hstats, h⟩ := Ending.exists_of_any hrun
    obtain ⟨hstatus, houter, hleft⟩ := of_decide_eq_true h
    obtain ⟨s, r, answer, inner, t, last, hinner, judges, -, -, -, hsolver, -, -, hcalls, hacc, -,
      hsmall⟩ := (solve_status.1 stats hstats).step hstatus
    exact ⟨stats, s, r, answer, inner, t, hstats, hstatus, houter, last, hsolver ▸ hleft, hinner,
      judges, hcalls, hacc, hsmall⟩
  · have hrun : ((zero.solve problem .default () jacobian #[2]).ending.stats?.any fun stats =>
        decide (stats.status = .convergedGradient ∧ stats.outer = 2 ∧
          (zero.solve problem .default () jacobian #[2]).solver.stepSolver.answers.length = 1)) =
        true := by
      decide +kernel
    obtain ⟨stats, hstats, h⟩ := Ending.exists_of_any hrun
    obtain ⟨hstatus, houter, hleft⟩ := of_decide_eq_true h
    obtain ⟨-, s, r, answer, last, hsome, hrests, -, hsolver, -⟩ :=
      (solve_status.1 stats hstats).gradient hstatus
    exact ⟨stats, s, r, answer, hstats, hstatus, houter, last, hsolver ▸ hleft, hsome, hrests⟩
  · have hnan : (Vec.dot #[0 / 0] #[0 / 0] : Float).isFinite = false := by decide +kernel
    have hfits : small.misfit? jacobian #[0 / 0] = none := by decide +kernel
    have hevaluates : problem.residuals () #[0 / 0] small.buffers.residuals =
        .done ((), #[0 / 0]) := rfl
    obtain ⟨stats, hstats, hstatus⟩ :=
      solve_status.2.1.2 ⟨hfits, (), #[0 / 0], hevaluates, hnan⟩
    exact ⟨stats, hstats, hstatus, ((solve_status.1 stats hstats).failure hstatus).2.2.2.1⟩

end LeastSquares.Marquardt
