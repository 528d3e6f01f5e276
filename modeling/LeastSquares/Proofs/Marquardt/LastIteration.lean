import Mathlib
import LeastSquares.Dense.Matrix
import LeastSquares.Double
import LeastSquares.Proofs.Marquardt.Run
import LeastSquares.Proofs.Marquardt.Script

/-!
# Levenberg–Marquardt: a residual of zero and the limit on the iterations

The loop head tests the limit before the residual, so a residual that becomes zero in the last
allowed iteration is never looked at.  Such a solve counts as converged only where its last step is
below the tolerance as well; in every earlier iteration, and at the start, a zero is seen.
-/

namespace LeastSquares.Marquardt

variable {α S J P : Type} [Scalar α] [LinearOperator J α] [StepSolver S J α]

/-- The last allowed iteration accepts a step onto a residual of zero that is not below the
tolerance. -/
def MissesZero (solver : Solver α S) (problem : Problem α J P) (o : Options α) (p : P)
    (jacobian : J) (x : Array α) : Prop :=
  ∃ s inner t, Head solver problem o p jacobian x (o.maxIters - 1) s ∧
    (s.residual == 0) = false ∧ Judges problem o s inner t ∧ t.Accepts o ∧
    (t.trial == 0) = true ∧ ¬ t.stepInf < o.tol

variable {solver : Solver α S} {problem : Problem α J P} {o : Options α} {p : P} {jacobian : J}
  {x : Array α} {s t : State α S J P} {k inner : Nat}

theorem exit_of_zero_trial (head : Head solver problem o p jacobian x k s) (more : k < o.maxIters)
    (nonzero : (s.residual == 0) = false) (judges : Judges problem o s inner t)
    (accepts : t.Accepts o) (iszero : (t.trial == 0) = true) :
    Exit solver problem o p jacobian x ((t.reported o inner).accept o t.ratio t.trial)
      (if t.stepInf < o.tol then .convergedStep
        else if k + 1 < o.maxIters then .convergedResidual else .maxIterations) := by
  by_cases hsmall : t.stepInf < o.tol
  · rw [if_pos hsmall]
    have stops := judges.iterate_eq.trans
      (State.judge_eq_stop_iff.2 ⟨accepts, hsmall, rfl, rfl⟩)
    exact .stopped head more nonzero stops
  · have goes := judges.iterate_eq.trans
      (State.judge_eq_next_iff.2 (.inl ⟨accepts, hsmall, rfl⟩))
    have next := head.next more nonzero goes
    rw [if_neg hsmall]
    by_cases hlast : k + 1 < o.maxIters
    · rw [if_pos hlast]
      exact .zero next hlast iszero
    · rw [if_neg hlast]
      have hlimit : k + 1 = o.maxIters := by omega
      exact .limit (hlimit ▸ next)

theorem missesZero_of_head (hpos : 0 < o.maxIters)
    (head : Head solver problem o p jacobian x o.maxIters t) (iszero : (t.residual == 0) = true) :
    MissesZero solver problem o p jacobian x := by
  -- The limit becomes a variable, so that the last iteration can be split off.
  generalize hlimit : o.maxIters = limit at head
  cases head with
  | first => omega
  | @next k s _ head more nonzero goes =>
    rcases residual_of_iterate (congrArg Step.state? goes) with heq | ⟨inner, j, judges, hacc, heq⟩
    · rw [heq, nonzero] at iszero
      cases iszero
    · rw [judges.iterate_eq] at goes
      have hlarge : ¬ j.stepInf < o.tol := by
        rcases State.judge_eq_next_iff.1 goes with ⟨-, hlarge, -⟩ | ⟨hrejects, -⟩
        · exact hlarge
        · exact absurd hacc hrejects
      have hk : o.maxIters - 1 = k := by omega
      exact ⟨s, inner, j, hk ▸ head, nonzero, judges, hacc, heq ▸ iszero, hlarge⟩

theorem missesZero_of_finished (hpos : 0 < o.maxIters) {stats : Stats α}
    (h : (solver.solve problem o p jacobian x).ending = .finished stats)
    (hstatus : stats.status = .maxIterations) (iszero : (stats.residual == 0) = true) :
    MissesZero solver problem o p jacobian x := by
  obtain ⟨t, status, exit, rfl, -⟩ := exit_of_finished h
  obtain rfl : status = .maxIterations := hstatus
  cases exit with
  | limit head => exact missesZero_of_head hpos head iszero
  | stopped head more nonzero stops =>
    rcases of_iterate_stop stops with ⟨_, _, -, -, -, hstatus⟩ | ⟨_, _, -, -, -, -, hstatus⟩ <;>
      cases hstatus

/-- A solve whose residual becomes zero is converged, save where this happens in the very last
allowed iteration by a step that is not below the tolerance. -/
theorem zero_residual_status (hpos : 0 < o.maxIters) :
    (∀ k s, Head solver problem o p jacobian x k s → k < o.maxIters → (s.residual == 0) = true →
      ∃ stats, (solver.solve problem o p jacobian x).ending = .finished stats ∧
        stats.residual = s.residual ∧ stats.outer = k ∧ stats.status = .convergedResidual) ∧
    (∀ k s inner t, Head solver problem o p jacobian x k s → k < o.maxIters →
      (s.residual == 0) = false → Judges problem o s inner t → t.Accepts o →
      (t.trial == 0) = true →
      ∃ stats, (solver.solve problem o p jacobian x).ending = .finished stats ∧
        stats.residual = t.trial ∧ stats.outer = k + 1 ∧
        stats.status = if t.stepInf < o.tol then .convergedStep
          else if k + 1 < o.maxIters then .convergedResidual else .maxIterations) ∧
    ((∃ stats, (solver.solve problem o p jacobian x).ending = .finished stats ∧
        stats.status = .maxIterations ∧ (stats.residual == 0) = true) ↔
      MissesZero solver problem o p jacobian x) := by
  refine ⟨fun k s head more iszero => ?_,
    fun k s inner t head more nonzero judges hacc iszero => ?_, ?_, ?_⟩
  · exact ⟨_, finished_of_exit (.zero head more iszero), rfl, outer_of_head head, rfl⟩
  · have exit := exit_of_zero_trial head more nonzero judges hacc iszero
    have houter : t.outer = k + 1 := by rw [judges.frame.2.2.2, outer_of_head head]
    exact ⟨_, finished_of_exit exit, rfl, houter, rfl⟩
  · rintro ⟨stats, h, hstatus, iszero⟩
    exact missesZero_of_finished hpos h hstatus iszero
  · rintro ⟨s, inner, t, head, nonzero, judges, hacc, iszero, hlarge⟩
    have more : o.maxIters - 1 < o.maxIters := by omega
    have hlast : ¬ o.maxIters - 1 + 1 < o.maxIters := by omega
    have exit := exit_of_zero_trial head more nonzero judges hacc iszero
    rw [if_neg hlarge, if_neg hlast] at exit
    exact ⟨_, finished_of_exit exit, rfl, iszero⟩

/-- A zero reached by a step of length one is missed with one iteration, and seen with two. -/
theorem zero_residual_status_script :
    let solver := Script.solver 1 1 [some (#[-1], 0)]
    let jacobian : Dense.Matrix Float := .ofFn 1 1 fun _ _ => 1
    let once := { (Options.default : Options Float) with maxIters := 1 }
    let twice := { (Options.default : Options Float) with maxIters := 2 }
    0 < once.maxIters ∧ MissesZero solver identityProblem once () jacobian #[1] ∧
      0 < twice.maxIters ∧ ¬ MissesZero solver identityProblem twice () jacobian #[1] := by
  intro solver jacobian once twice
  have honce : 0 < once.maxIters := Nat.zero_lt_one
  have htwice : 0 < twice.maxIters := Nat.zero_lt_two
  refine ⟨honce, (zero_residual_status honce).2.2.1 ?_, htwice, fun misses => ?_⟩
  · have hrun : ((solver.solve identityProblem once () jacobian #[1]).ending.stats?.any fun stats =>
        decide (stats.status = .maxIterations ∧ (stats.residual == 0) = true)) = true := by
      decide +kernel
    obtain ⟨stats, hstats, h⟩ := Ending.exists_of_any hrun
    exact ⟨stats, hstats, of_decide_eq_true h⟩
  · have hrun : ((solver.solve identityProblem twice () jacobian #[1]).ending.stats?.any
        fun stats => decide (stats.status = .convergedResidual)) = true := by
      decide +kernel
    obtain ⟨stats, hstats, h⟩ := Ending.exists_of_any hrun
    obtain ⟨stats', hstats', hlimit, -⟩ := (zero_residual_status htwice).2.2.2 misses
    obtain rfl : stats = stats' := Ending.finished.inj (hstats.symm.trans hstats')
    cases (of_decide_eq_true h).symm.trans hlimit

/-- One iteration from one to zero: the step is accepted, and the solve counts as unconverged. -/
theorem zero_residual_unconverged :
    let solver := Script.solver 1 1 [some (#[-1], 0)]
    let o := { (Options.default : Options Float) with maxIters := 1 }
    let jacobian : Dense.Matrix Float := .ofFn 1 1 fun _ _ => 1
    0 < o.maxIters ∧ MissesZero solver identityProblem o () jacobian #[1] ∧
      ∃ stats, (solver.solve identityProblem o () jacobian #[1]).ending = .finished stats ∧
        stats.status = .maxIterations ∧ stats.converged = false ∧
        (stats.residual == 0) = true := by
  intro solver o jacobian
  have hrun : ((solver.solve identityProblem o () jacobian #[1]).ending.stats?.any fun stats =>
      decide (stats.status = .maxIterations ∧ stats.converged = false ∧
        (stats.residual == 0) = true)) = true := by
    decide +kernel
  obtain ⟨stats, hstats, h⟩ := Ending.exists_of_any hrun
  obtain ⟨hstatus, hconverged, iszero⟩ := of_decide_eq_true h
  have misses := missesZero_of_finished Nat.zero_lt_one hstats hstatus iszero
  exact ⟨Nat.zero_lt_one, misses, stats, hstats, hstatus, hconverged, iszero⟩

end LeastSquares.Marquardt
