import Mathlib
import LeastSquares.Dense.Matrix
import LeastSquares.Proofs.Double.Sign
import LeastSquares.Proofs.Marquardt.Run
import LeastSquares.Proofs.Marquardt.Script

/-!
# Levenberg–Marquardt: accepted steps over machine numbers

The gain ratio is a quotient of two differences, and a positive one has sides of one sign.  So an
accepted step decreases the residual where the linear model predicts no increase, and increases it
where the model predicts an increase.  Along a solve without accepted steps of the second kind the
residual never increases.
-/

namespace LeastSquares.Marquardt

open Double

theorem sides_of_gainRatio {quality residual trial predicted : Float} (hq : 0 ≤ quality)
    (hr : Unsigned residual) (ht : Unsigned trial) (hp : Unsigned predicted)
    (h : quality < State.gainRatio residual trial predicted) :
    (predicted ≤ residual ∧ trial < residual) ∨ (residual < predicted ∧ residual < trial) := by
  have hpos : 0 < value ((residual - trial) / (residual - predicted)) :=
    (lt_iff_value.1 (lt_of_le_of_lt hq h)).2.2
  obtain ⟨s, hnum, hden, hne⟩ := sign_div hpos
  cases s with
  | negative => exact .inr ⟨lt_of_sign_sub hr hp hden, lt_of_sign_sub hr ht hnum⟩
  | positive =>
    have hle := le_iff_value.1 (le_of_sign_sub hr ht hnum)
    have hvalue : value residual ≠ value trial := fun heq => hne ((sign_sub hr ht).2.2 heq)
    exact .inl ⟨le_of_sign_sub hr hp hden,
      lt_iff_value.2 ⟨hle.1, hle.2.1, lt_of_le_of_ne hle.2.2 hvalue.symm⟩⟩

variable {S J P : Type} [LinearOperator J Float] [StepSolver S J Float]
  {solver : Solver Float S} {problem : Problem Float J P} {o : Options Float} {p : P}
  {jacobian : J} {x : Array Float} {s t : State Float S J P} {k inner : Nat}

theorem unsigned_of_head (head : Head solver problem o p jacobian x k s) :
    Unsigned s.residual := by
  induction head with
  | first => exact unsigned_dot_self _
  | next _ _ _ goes ih =>
    rcases residual_of_iterate (congrArg Step.state? goes) with h | ⟨_, j, -, -, h⟩
    · exact h ▸ ih
    · exact h ▸ unsigned_dot_self _

structure Tries (solver : Solver Float S) (problem : Problem Float J P) (o : Options Float)
    (p : P) (jacobian : J) (x : Array Float) (s : State Float S J P) (inner : Nat)
    (t : State Float S J P) : Prop where
  head : ∃ k, k < o.maxIters ∧ Head solver problem o p jacobian x k s
  nonzero : (s.residual == 0) = false
  judges : Judges problem o s inner t

/-- No step is accepted for which the linear model predicts an increase. -/
def NoUphill (solver : Solver Float S) (problem : Problem Float J P) (o : Options Float) (p : P)
    (jacobian : J) (x : Array Float) : Prop :=
  ∀ s inner t, Tries solver problem o p jacobian x s inner t → t.Accepts o →
    t.predicted ≤ s.residual

namespace Tries

theorem sides (hq : 0 ≤ o.minStepQuality) (tries : Tries solver problem o p jacobian x s inner t)
    (h : t.Accepts o) :
    (t.predicted ≤ s.residual ∧ t.trial < s.residual) ∨
      (s.residual < t.predicted ∧ s.residual < t.trial) := by
  obtain ⟨⟨k, -, head⟩, -, judges⟩ := tries
  have hres : t.residual = s.residual := judges.frame.2.1
  have hunsigned : Unsigned t.residual := hres ▸ unsigned_of_head head
  rw [← hres]
  exact sides_of_gainRatio hq hunsigned (unsigned_dot_self _) (unsigned_dot_self _) h

theorem not_accepts_of_isNaN (hq : 0 ≤ o.minStepQuality)
    (tries : Tries solver problem o p jacobian x s inner t) (hnan : t.trial.isNaN = true) :
    ¬ t.Accepts o := by
  intro hacc
  rcases tries.sides hq hacc with h | h
  · exact (not_lt_of_isNaN hnan).1 h.2
  · exact (not_lt_of_isNaN hnan).2 h.2

theorem not_accepts_of_not_lt (hq : 0 ≤ o.minStepQuality)
    (tries : Tries solver problem o p jacobian x s inner t)
    (hpredicted : ¬ s.residual < t.predicted) (htrial : ¬ t.trial < s.residual) :
    ¬ t.Accepts o := by
  intro hacc
  rcases tries.sides hq hacc with h | h
  · exact htrial h.2
  · exact hpredicted h.1

theorem downhill_iff (hq : 0 ≤ o.minStepQuality)
    (tries : Tries solver problem o p jacobian x s inner t) (h : t.Accepts o) :
    (t.trial.isFinite = true ∧ t.trial < s.residual) ↔ t.predicted ≤ s.residual := by
  rcases tries.sides hq h with ⟨hpredicted, htrial⟩ | ⟨hpredicted, htrial⟩
  · exact ⟨fun _ => hpredicted, fun _ => ⟨isFinite_of_lt (unsigned_dot_self _) htrial, htrial⟩⟩
  · constructor
    · rintro ⟨-, hlt⟩
      exact absurd htrial (not_lt_of_le (le_of_lt hlt))
    · intro hle
      exact absurd hpredicted (not_lt_of_le hle)

end Tries

theorem residual_le_of_iterate (hq : 0 ≤ o.minStepQuality)
    (safe : NoUphill solver problem o p jacobian x)
    (head : Head solver problem o p jacobian x k s) (more : k < o.maxIters)
    (nonzero : (s.residual == 0) = false) (finite : s.residual.isFinite = true)
    (h : (s.iterate problem o).state? = some t) :
    t.residual.isFinite = true ∧ t.residual ≤ s.residual := by
  rcases residual_of_iterate h with heq | ⟨inner, j, judges, hacc, heq⟩
  · rw [heq]
    exact ⟨finite, le_refl_of_isFinite finite⟩
  · have tries : Tries solver problem o p jacobian x s inner j := ⟨⟨k, more, head⟩, nonzero, judges⟩
    have hdown := (tries.downhill_iff hq hacc).2 (safe _ _ _ tries hacc)
    rw [heq]
    exact ⟨hdown.1, le_of_lt hdown.2⟩

theorem residual_le_of_head (hq : 0 ≤ o.minStepQuality)
    (safe : NoUphill solver problem o p jacobian x)
    (head : Head solver problem o p jacobian x k s) :
    s.residual.isFinite = true ∧
      ∀ p' r, problem.residuals p x solver.buffers.residuals = .done (p', r) →
        s.residual ≤ Vec.dot r r := by
  induction head with
  | first fits evaluates finite =>
    have hfinite := finite
    rw [scalar_isFinite] at hfinite
    refine ⟨hfinite, fun p' r h => ?_⟩
    obtain ⟨-, rfl⟩ := Prod.mk.inj (Outcome.done.inj (evaluates.symm.trans h))
    exact le_refl_of_isFinite hfinite
  | next head more nonzero goes ih =>
    have hstep := residual_le_of_iterate hq safe head more nonzero ih.1
      (congrArg Step.state? goes)
    exact ⟨hstep.1, fun p' r h => le_trans hstep.2 (ih.2 p' r h)⟩

theorem residual_le_of_exit (hq : 0 ≤ o.minStepQuality)
    (safe : NoUphill solver problem o p jacobian x) {status : Status}
    (exit : Exit solver problem o p jacobian x t status) (hstatus : status ≠ .numericalFailure) :
    t.residual.isFinite = true ∧
      ∀ p' r, problem.residuals p x solver.buffers.residuals = .done (p', r) →
        t.residual ≤ Vec.dot r r := by
  cases exit with
  | failure => exact absurd rfl hstatus
  | limit head => exact residual_le_of_head hq safe head
  | zero head => exact residual_le_of_head hq safe head
  | stopped head more nonzero stops =>
    have hhead := residual_le_of_head hq safe head
    have hstep := residual_le_of_iterate hq safe head more nonzero hhead.1
      (congrArg Step.state? stops)
    exact ⟨hstep.1, fun p' r h => le_trans hstep.2 (hhead.2 p' r h)⟩

/-- Acceptance is safe exactly as long as no step is accepted for which the linear model predicts
an increase.  Every accepted step then lowers the residual, so it never rises along a solve. -/
theorem acceptance_safe_iff_noUphill (hq : 0 ≤ o.minStepQuality) :
    (∀ s inner t, Tries solver problem o p jacobian x s inner t →
      (t.trial.isNaN = true → ¬ t.Accepts o) ∧
      (¬ s.residual < t.predicted → ¬ t.trial < s.residual → ¬ t.Accepts o) ∧
      (t.Accepts o →
        ((t.trial.isFinite = true ∧ t.trial < s.residual) ↔ t.predicted ≤ s.residual))) ∧
    ((∀ s inner t, Tries solver problem o p jacobian x s inner t → t.Accepts o →
      t.trial.isFinite = true ∧ t.trial < s.residual) ↔
        NoUphill solver problem o p jacobian x) ∧
    (NoUphill solver problem o p jacobian x →
      (∀ k s t, k < o.maxIters → Head solver problem o p jacobian x k s →
        (s.residual == 0) = false → (s.iterate problem o).state? = some t →
          t.residual.isFinite = true ∧ t.residual ≤ s.residual) ∧
      ∀ stats, (solver.solve problem o p jacobian x).ending = .finished stats →
        stats.status ≠ .numericalFailure →
          stats.residual.isFinite = true ∧
            ∀ p' r, problem.residuals p x solver.buffers.residuals = .done (p', r) →
              stats.residual ≤ Vec.dot r r) := by
  refine ⟨fun s inner t tries => ⟨tries.not_accepts_of_isNaN hq, tries.not_accepts_of_not_lt hq,
    tries.downhill_iff hq⟩, ⟨?_, ?_⟩, fun safe => ⟨?_, ?_⟩⟩
  · intro h s inner t tries hacc
    exact (tries.downhill_iff hq hacc).1 (h s inner t tries hacc)
  · intro h s inner t tries hacc
    exact (tries.downhill_iff hq hacc).2 (h s inner t tries hacc)
  · intro k s t more head nonzero h
    exact residual_le_of_iterate hq safe head more nonzero (residual_le_of_head hq safe head).1 h
  · intro stats h hstatus
    obtain ⟨t, status, exit, rfl, -⟩ := exit_of_finished h
    exact residual_le_of_exit hq safe exit hstatus

/-- A step from two to one that the model predicts is accepted, and the solve ends below its
start. -/
theorem acceptance_safe_downhill :
    let solver := Script.solver 1 1 [some (#[-1], 0)]
    let o := { (Options.default : Options Float) with maxIters := 1 }
    let jacobian : Dense.Matrix Float := .ofFn 1 1 fun _ _ => 1
    0 ≤ o.minStepQuality ∧ NoUphill solver identityProblem o () jacobian #[2] ∧
      ∃ stats, (solver.solve identityProblem o () jacobian #[2]).ending = .finished stats ∧
        stats.status ≠ .numericalFailure ∧ stats.residual.isFinite = true ∧
          stats.residual ≤ Vec.dot #[2] #[2] := by
  intro solver o jacobian
  have hq : 0 ≤ o.minStepQuality := by decide +kernel
  have spec := @acceptance_safe_iff_noUphill _ _ _ _ _ solver identityProblem o () jacobian #[2] hq
  have safe : NoUphill solver identityProblem o () jacobian #[2] := by
    refine spec.2.1.1 fun s inner t ⟨⟨k, more, head⟩, _, judges⟩ hacc => ?_
    -- One iteration is all there is, so its loop head is the first one.
    have hhead : s = solver.evaluated o () jacobian #[2] () #[2] := by
      cases head with
      | first _ evaluates =>
        obtain ⟨-, rfl⟩ := Prod.mk.inj (Outcome.done.inj evaluates)
        rfl
      | next _ more' => exact absurd (Nat.le_of_lt_succ more) (Nat.not_succ_le_zero _)
    subst hhead
    have hstate := State.state?_judge_of_accepts hacc inner
    rw [← judges.iterate_eq] at hstate
    have hrun : (((solver.evaluated o () jacobian #[2] () #[2]).iterate
        identityProblem o).state?.any fun t =>
          t.residual.isFinite && decide (t.residual < Vec.dot #[2] #[2])) = true := by
      decide +kernel
    rw [hstate] at hrun
    obtain ⟨hfinite, hlt⟩ := Bool.and_eq_true_iff.1 hrun
    exact ⟨hfinite, of_decide_eq_true hlt⟩
  have hrun : ((solver.solve identityProblem o () jacobian #[2]).ending.stats?.any fun stats =>
      decide (stats.status ≠ .numericalFailure)) = true := by
    decide +kernel
  obtain ⟨stats, hstats, hstatus⟩ := Ending.exists_of_any hrun
  have hstatus := of_decide_eq_true hstatus
  obtain ⟨hfinite, hle⟩ := (spec.2.2 safe).2 stats hstats hstatus
  exact ⟨hq, safe, stats, hstats, hstatus, hfinite, hle () #[2] rfl⟩

/-- Where the model predicts an increase, the increase is accepted: from one to four. -/
theorem acceptance_unsafe_uphill :
    let solver := Script.solver 1 1 [some (#[1], 0)]
    let o := { (Options.default : Options Float) with maxIters := 1 }
    let jacobian : Dense.Matrix Float := .ofFn 1 1 fun _ _ => 1
    0 ≤ o.minStepQuality ∧
      ∃ stats, (solver.solve identityProblem o () jacobian #[1]).ending = .finished stats ∧
        stats.status = .maxIterations ∧ Vec.dot #[1] #[1] < stats.residual := by
  intro solver o jacobian
  refine ⟨by decide +kernel, ?_⟩
  have hrun : ((solver.solve identityProblem o () jacobian #[1]).ending.stats?.any fun stats =>
      decide (stats.status = .maxIterations ∧ Vec.dot #[1] #[1] < stats.residual)) = true := by
    decide +kernel
  obtain ⟨stats, hstats, h⟩ := Ending.exists_of_any hrun
  exact ⟨stats, hstats, of_decide_eq_true h⟩

end LeastSquares.Marquardt
