import LeastSquares.Marquardt.Solve

/-!
# Levenberg–Marquardt: the ways through an iteration

An iteration is skipped where the step solver has no step, ends the solve where the step is zero,
and is judged where the step was evaluated.  `Pass` has one constructor for each of these ways and
says all that an iteration can do; `Head` and `Exit` say the same of a solve, whose loop heads are
reached by iterations alone.
-/

namespace LeastSquares.Marquardt

variable {α S J P : Type} [Scalar α]

namespace State

def trial (s : State α S J P) : α := Vec.dot s.buffers.trialResiduals s.buffers.trialResiduals

def predicted (s : State α S J P) : α := Vec.dot s.buffers.predicted s.buffers.predicted

def ratio (s : State α S J P) : α := gainRatio s.residual s.trial s.predicted

def Accepts (o : Options α) (s : State α S J P) : Prop := o.minStepQuality < s.ratio

instance (o : Options α) (s : State α S J P) : Decidable (s.Accepts o) :=
  inferInstanceAs (Decidable (_ < _))

def verdict (o : Options α) (inner : Nat) (s : State α S J P) : IterationReport α where
  iteration := s.outer
  residual := s.residual
  trialResidual := s.trial
  rho := s.ratio
  lambda := s.lambda
  stepInf := s.stepInf
  inner := inner
  accepted := decide (s.Accepts o)

def reported (o : Options α) (inner : Nat) (s : State α S J P) : State α S J P :=
  (s.note (.report (s.verdict o inner))).note
    (.record (.iteration s.outer s.residual s.trial s.ratio s.lambda))

theorem judge_eq (o : Options α) (inner : Nat) (s : State α S J P) :
    s.judge o inner =
      if s.Accepts o then
        if s.stepInf < o.tol then
          .stop ((s.reported o inner).accept o s.ratio s.trial) .convergedStep
        else .next ((s.reported o inner).accept o s.ratio s.trial)
      else .next ((s.reported o inner).reject o) := by
  change (if decide (s.Accepts o) = true then
      if s.stepInf < o.tol then
        Step.stop ((s.reported o inner).accept o s.ratio s.trial) Status.convergedStep
      else Step.next ((s.reported o inner).accept o s.ratio s.trial)
    else Step.next ((s.reported o inner).reject o)) = _
  simp only [decide_eq_true_eq]

theorem refresh_done [LinearOperator J α] {problem : Problem α J P} {o : Options α}
    {s t : State α S J P} (h : s.refresh problem o = .done t) :
    (s.stale = false ∧ t = s) ∨
      (s.stale = true ∧ ∃ p j squares,
        problem.jacobian s.problem s.x s.jacobian = .done (p, j) ∧
        LinearOperator.columnSquares j s.buffers.dtd = .done squares ∧
        t = { s.note (.jacobian s.x) with
          problem := p
          jacobian := j
          buffers.dtd := squares.map fun d => Scalar.max d o.minDiagonal
          stale := false }) := by
  unfold refresh at h
  split at h
  case isFalse hs => exact .inl ⟨by simpa using hs, by cases h; rfl⟩
  case isTrue hs =>
    refine .inr ⟨hs, ?_⟩
    dsimp only at h
    split at h
    · cases h
    · rename_i p j hj
      split at h
      · cases h
      · rename_i squares hsq
        cases h
        exact ⟨p, j, squares, hj, hsq, rfl⟩

theorem refresh_eq_done [LinearOperator J α] {problem : Problem α J P} {s : State α S J P} {p : P}
    {j : J} {squares : Array α} (o : Options α) (hstale : s.stale = true)
    (hj : problem.jacobian s.problem s.x s.jacobian = .done (p, j))
    (hsquares : LinearOperator.columnSquares j s.buffers.dtd = .done squares) :
    s.refresh problem o = .done { s.note (.jacobian s.x) with
      problem := p
      jacobian := j
      buffers.dtd := squares.map fun d => Scalar.max d o.minDiagonal
      stale := false } := by
  simp [refresh, note, hstale, hj, hsquares]

omit [Scalar α] in
theorem askStep_done [StepSolver S J α] {s t : State α S J P} {inner : Option Nat}
    (h : s.askStep = .done (t, inner)) :
    ∃ a, StepSolver.solveStep s.stepSolver s.jacobian s.buffers.residuals s.buffers.dtd s.lambda
        s.buffers.step = .done a ∧ inner = a.inner ∧
      t = { (s.note (.step s.buffers.residuals s.buffers.dtd s.lambda)).noteAll a.log with
        stepSolver := a.solver
        buffers.step := a.step } := by
  unfold askStep at h
  cases ha : StepSolver.solveStep s.stepSolver s.jacobian s.buffers.residuals s.buffers.dtd
      s.lambda s.buffers.step with
  | done a =>
    simp only [note, ha, Outcome.map, Outcome.done.injEq, Prod.mk.injEq] at h
    exact ⟨a, rfl, h.2.symm, h.1.symm⟩
  | brokenOff a =>
    simp only [note, ha, Outcome.map] at h
    cases h

omit [Scalar α] in
theorem askStep_eq_done [StepSolver S J α] {s : State α S J P} {answer : StepAnswer S α}
    (h : StepSolver.solveStep s.stepSolver s.jacobian s.buffers.residuals s.buffers.dtd s.lambda
      s.buffers.step = .done answer) :
    s.askStep = .done ({ (s.note (.step s.buffers.residuals s.buffers.dtd s.lambda)).noteAll
        answer.log with
      stepSolver := answer.solver
      buffers.step := answer.step }, answer.inner) := by
  simp [askStep, note, h, Outcome.map]

theorem predict_done [LinearOperator J α] {s t : State α S J P} (h : s.predict = .done t) :
    ∃ r, LinearOperator.apply s.jacobian 1 s.buffers.step 1 s.buffers.residuals = .done r ∧
      t = { s with buffers.predicted := r } := by
  unfold predict at h
  cases hr : LinearOperator.apply s.jacobian 1 s.buffers.step 1 s.buffers.residuals with
  | done r =>
    simp only [hr, Outcome.map, Outcome.done.injEq] at h
    exact ⟨r, rfl, h.symm⟩
  | brokenOff r =>
    simp only [hr, Outcome.map] at h
    cases h

def candidate (s : State α S J P) : Array α :=
  Vec.zipUpdate (fun _ xp => xp.1 + xp.2) s.buffers.trialPoint (s.x.zip s.buffers.step)

@[simp] theorem size_candidate (s : State α S J P) :
    s.candidate.size = s.buffers.trialPoint.size := by
  simp [candidate]

theorem evaluateTrial_done {problem : Problem α J P} {s t : State α S J P}
    (h : s.evaluateTrial problem = .done t) :
    ∃ p r, problem.residuals s.problem s.candidate s.buffers.trialResiduals = .done (p, r) ∧
      t = { s.note (.residuals s.candidate) with
        problem := p
        buffers.trialPoint := s.candidate
        buffers.trialResiduals := r } := by
  unfold evaluateTrial at h
  cases hr : problem.residuals s.problem s.candidate s.buffers.trialResiduals with
  | done pr =>
    simp only [candidate] at hr
    simp only [note, hr, Outcome.map, Outcome.done.injEq] at h
    exact ⟨pr.1, pr.2, rfl, h.symm⟩
  | brokenOff pr =>
    simp only [candidate] at hr
    simp only [note, hr, Outcome.map] at h
    cases h

end State

def Step.state? : Step α S J P → Option (State α S J P)
  | .next s => some s
  | .stop s _ => some s
  | .brokenOff _ => none

theorem State.state?_judge_of_accepts {o : Options α} {s : State α S J P} (h : s.Accepts o)
    (inner : Nat) :
    (s.judge o inner).state? = some ((s.reported o inner).accept o s.ratio s.trial) := by
  rw [judge_eq, if_pos h]
  split <;> rfl

theorem State.state?_judge_of_not_accepts {o : Options α} {s : State α S J P}
    (h : ¬ s.Accepts o) (inner : Nat) :
    (s.judge o inner).state? = some ((s.reported o inner).reject o) := by
  rw [judge_eq, if_neg h]
  rfl

theorem State.judge_eq_next_iff {o : Options α} {inner : Nat} {s t : State α S J P} :
    s.judge o inner = .next t ↔
      (s.Accepts o ∧ ¬ s.stepInf < o.tol ∧
        t = (s.reported o inner).accept o s.ratio s.trial) ∨
      (¬ s.Accepts o ∧ t = (s.reported o inner).reject o) := by
  rw [judge_eq]
  by_cases hacc : s.Accepts o
  · by_cases hsmall : s.stepInf < o.tol <;> simp [hacc, hsmall, eq_comm]
  · simp [hacc, eq_comm]

theorem State.judge_eq_stop_iff {o : Options α} {inner : Nat} {s t : State α S J P}
    {status : Status} :
    s.judge o inner = .stop t status ↔ s.Accepts o ∧ s.stepInf < o.tol ∧
      t = (s.reported o inner).accept o s.ratio s.trial ∧ status = .convergedStep := by
  rw [judge_eq]
  by_cases hacc : s.Accepts o
  · by_cases hsmall : s.stepInf < o.tol <;> simp [hacc, hsmall, eq_comm]
  · simp [hacc]

section Passes

variable [LinearOperator J α] [StepSolver S J α] (problem : Problem α J P) (o : Options α)

/-- From a loop head the step solver is asked over a fresh Jacobian, with this answer. -/
def Asks (s a : State α S J P) (inner : Option Nat) : Prop :=
  ∃ r, ({ s with outer := s.outer + 1 }).refresh problem o = .done r ∧
    r.askStep = .done (a, inner)

/-- From a loop head the iteration comes to judge a trial point. -/
inductive Judges (s : State α S J P) : Nat → State α S J P → Prop
  | intro {a p t : State α S J P} {inner : Nat} (asks : Asks problem o s a (some inner))
      (moves : a.buffers.step.all (· == 0) = false)
      (predicts : ({ a with
        inner := addCounts a.inner inner
        stepInf := Vec.maxAbs a.buffers.step }).predict = .done p)
      (tries : p.evaluateTrial problem = .done t) : Judges s inner t

inductive Pass (s : State α S J P) : Step α S J P → Prop
  | brokenOff (t : State α S J P) : Pass s (.brokenOff t)
  | skipped {a : State α S J P} (asks : Asks problem o s a none) : Pass s (.next (a.skipStep o))
  | zeroStep {a : State α S J P} {inner : Nat} (asks : Asks problem o s a (some inner))
      (rests : a.buffers.step.all (· == 0) = true) :
      Pass s (.stop { a with inner := addCounts a.inner inner, stepInf := 0 } .convergedGradient)
  | judged {t : State α S J P} {inner : Nat} (judges : Judges problem o s inner t) :
      Pass s (t.judge o inner)

theorem pass_iterate (s : State α S J P) : Pass problem o s (s.iterate problem o) := by
  unfold State.iterate
  split
  · exact .brokenOff _
  · rename_i r hr
    split
    · exact .brokenOff _
    · rename_i a ha
      exact .skipped ⟨r, hr, ha⟩
    · rename_i a inner ha
      have asks : Asks problem o s a (some inner) := ⟨r, hr, ha⟩
      unfold State.tryStep
      dsimp only
      split
      · rename_i hz
        exact .zeroStep asks hz
      · rename_i hz
        split
        · exact .brokenOff _
        · rename_i p hp
          split
          · exact .brokenOff _
          · rename_i t ht
            exact .judged ⟨asks, by simpa using hz, hp, ht⟩

variable {problem o}

theorem Asks.frame {s a : State α S J P} {answer : Option Nat} (h : Asks problem o s a answer) :
    a.x = s.x ∧ a.residual = s.residual ∧ a.lambda = s.lambda ∧ a.outer = s.outer + 1 := by
  obtain ⟨r, hr, ha⟩ := h
  obtain ⟨answer, -, -, rfl⟩ := State.askStep_done ha
  rcases State.refresh_done hr with ⟨-, rfl⟩ | ⟨-, p, j, squares, -, -, rfl⟩ <;>
    exact ⟨rfl, rfl, rfl, rfl⟩

theorem Judges.frame {s t : State α S J P} {inner : Nat} (h : Judges problem o s inner t) :
    t.x = s.x ∧ t.residual = s.residual ∧ t.lambda = s.lambda ∧ t.outer = s.outer + 1 := by
  obtain ⟨asks, -, predicts, tries⟩ := h
  obtain ⟨predicted, -, rfl⟩ := State.predict_done predicts
  obtain ⟨p, r, -, rfl⟩ := State.evaluateTrial_done tries
  exact asks.frame

structure Evaluates (problem : Problem α J P) (a t : State α S J P) : Prop where
  x : t.x = a.x
  jacobian : t.jacobian = a.jacobian
  stepSolver : t.stepSolver = a.stepSolver
  residual : t.residual = a.residual
  stale : t.stale = a.stale
  outer : t.outer = a.outer
  stepInf : t.stepInf = Vec.maxAbs a.buffers.step
  residuals : t.buffers.residuals = a.buffers.residuals
  dtd : t.buffers.dtd = a.buffers.dtd
  step : t.buffers.step = a.buffers.step
  trialPoint : t.buffers.trialPoint = a.candidate
  predicts : LinearOperator.apply a.jacobian 1 a.buffers.step 1 a.buffers.residuals =
    .done t.buffers.predicted
  tries : problem.residuals a.problem a.candidate a.buffers.trialResiduals =
    .done (t.problem, t.buffers.trialResiduals)
  events : t.events = a.events.push (.residuals a.candidate)

theorem Judges.evaluates {s t : State α S J P} {inner : Nat} (h : Judges problem o s inner t) :
    ∃ a, Asks problem o s a (some inner) ∧ a.buffers.step.all (· == 0) = false ∧
      Evaluates problem a t := by
  obtain ⟨asks, moves, predicts, tries⟩ := h
  obtain ⟨predicted, hpredicted, rfl⟩ := State.predict_done predicts
  obtain ⟨p, r, hr, rfl⟩ := State.evaluateTrial_done tries
  exact ⟨_, asks, moves, rfl, rfl, rfl, rfl, rfl, rfl, rfl, rfl, rfl, rfl, rfl, hpredicted, hr, rfl⟩

/-- Where every part of an iteration ends and the step moves, a trial point is judged. -/
theorem exists_judges {s r : State α S J P} {answer : StepAnswer S α} {inner : Nat}
    {predicted : Array α}
    (hr : ({ s with outer := s.outer + 1 }).refresh problem o = .done r)
    (answers : StepSolver.solveStep r.stepSolver r.jacobian r.buffers.residuals r.buffers.dtd
      r.lambda r.buffers.step = .done answer)
    (hinner : answer.inner = some inner) (moves : answer.step.all (· == 0) = false)
    (predicts : LinearOperator.apply r.jacobian 1 answer.step 1 r.buffers.residuals =
      .done predicted)
    (tries : ∀ y, ∃ p' tried, problem.residuals r.problem y r.buffers.trialResiduals =
      .done (p', tried)) : ∃ t, Judges problem o s inner t := by
  let a : State α S J P :=
    { (r.note (.step r.buffers.residuals r.buffers.dtd r.lambda)).noteAll answer.log with
      stepSolver := answer.solver
      buffers.step := answer.step }
  have ha : r.askStep = .done (a, some inner) := hinner ▸ State.askStep_eq_done answers
  let b : State α S J P :=
    { a with
      inner := addCounts a.inner inner
      stepInf := Vec.maxAbs a.buffers.step
      buffers.predicted := predicted }
  have hb : ({ a with
      inner := addCounts a.inner inner
      stepInf := Vec.maxAbs a.buffers.step }).predict = .done b := by
    simp only [State.predict]
    change Outcome.map _ (LinearOperator.apply r.jacobian 1 answer.step 1 r.buffers.residuals) = _
    rw [predicts]
    rfl
  obtain ⟨p', tried, htried⟩ := tries b.candidate
  have hc : ∃ t, b.evaluateTrial problem = .done t := by
    simp only [State.evaluateTrial]
    change ∃ t, Outcome.map _ (problem.residuals r.problem b.candidate r.buffers.trialResiduals) = _
    rw [htried]
    exact ⟨_, rfl⟩
  obtain ⟨t, ht⟩ := hc
  exact ⟨t, ⟨r, hr, ha⟩, moves, hb, ht⟩

theorem Judges.iterate_eq {s t : State α S J P} {inner : Nat} (h : Judges problem o s inner t) :
    s.iterate problem o = t.judge o inner := by
  obtain ⟨⟨r, hr, ha⟩, moves, predicts, tries⟩ := h
  simp only [State.iterate, hr, ha, State.tryStep, moves, predicts, tries]
  rfl

theorem of_iterate_next {s t : State α S J P} (h : s.iterate problem o = .next t) :
    (∃ a, Asks problem o s a none ∧ t = a.skipStep o) ∨
      ∃ inner j, Judges problem o s inner j ∧ j.judge o inner = .next t := by
  have pass := pass_iterate problem o s
  generalize s.iterate problem o = r at h pass
  cases pass with
  | brokenOff => cases h
  | skipped asks =>
    cases h
    exact .inl ⟨_, asks, rfl⟩
  | zeroStep => cases h
  | judged judges => exact .inr ⟨_, _, judges, h⟩

theorem of_iterate_stop {s t : State α S J P} {status : Status}
    (h : s.iterate problem o = .stop t status) :
    (∃ a inner, Asks problem o s a (some inner) ∧ a.buffers.step.all (· == 0) = true ∧
      t = { a with inner := addCounts a.inner inner, stepInf := 0 } ∧ status = .convergedGradient) ∨
      ∃ inner j, Judges problem o s inner j ∧ j.Accepts o ∧ j.stepInf < o.tol ∧
        t = (j.reported o inner).accept o j.ratio j.trial ∧ status = .convergedStep := by
  have pass := pass_iterate problem o s
  generalize s.iterate problem o = r at h pass
  cases pass with
  | brokenOff => cases h
  | skipped => cases h
  | zeroStep asks rests =>
    cases h
    exact .inl ⟨_, _, asks, rests, rfl, rfl⟩
  | judged judges => exact .inr ⟨_, _, judges, State.judge_eq_stop_iff.1 h⟩

theorem Asks.iterate_eq {s a : State α S J P} {inner : Nat} (h : Asks problem o s a (some inner))
    (rests : a.buffers.step.all (· == 0) = true) :
    s.iterate problem o =
      .stop { a with inner := addCounts a.inner inner, stepInf := 0 } .convergedGradient := by
  obtain ⟨r, hr, ha⟩ := h
  simp only [State.iterate, hr, ha, State.tryStep, rests, if_true]

/-- The four ways through an iteration that does not break off. -/
theorem of_iterate {s t : State α S J P} (h : (s.iterate problem o).state? = some t) :
    (∃ a, Asks problem o s a none ∧ t = a.skipStep o) ∨
      (∃ a inner, Asks problem o s a (some inner) ∧ a.buffers.step.all (· == 0) = true ∧
        t = { a with inner := addCounts a.inner inner, stepInf := 0 }) ∨
      (∃ inner j, Judges problem o s inner j ∧ j.Accepts o ∧
        t = (j.reported o inner).accept o j.ratio j.trial) ∨
      ∃ inner j, Judges problem o s inner j ∧ ¬ j.Accepts o ∧
        t = (j.reported o inner).reject o := by
  have pass := pass_iterate problem o s
  generalize s.iterate problem o = r at h pass
  cases pass with
  | brokenOff => simp [Step.state?] at h
  | skipped asks =>
    cases h
    exact .inl ⟨_, asks, rfl⟩
  | zeroStep asks rests =>
    cases h
    exact .inr (.inl ⟨_, _, asks, rests, rfl⟩)
  | @judged j inner judges =>
    by_cases hacc : j.Accepts o
    · rw [State.state?_judge_of_accepts hacc] at h
      cases h
      exact .inr (.inr (.inl ⟨inner, j, judges, hacc, rfl⟩))
    · rw [State.state?_judge_of_not_accepts hacc] at h
      cases h
      exact .inr (.inr (.inr ⟨inner, j, judges, hacc, rfl⟩))

theorem outer_of_iterate {s t : State α S J P} (h : (s.iterate problem o).state? = some t) :
    t.outer = s.outer + 1 := by
  rcases of_iterate h with ⟨a, asks, rfl⟩ | ⟨a, inner, asks, -, rfl⟩ | ⟨inner, j, judges, -, rfl⟩ |
    ⟨inner, j, judges, -, rfl⟩
  · exact asks.frame.2.2.2
  · exact asks.frame.2.2.2
  · exact judges.frame.2.2.2
  · exact judges.frame.2.2.2

theorem residual_of_iterate {s t : State α S J P} (h : (s.iterate problem o).state? = some t) :
    t.residual = s.residual ∨
      ∃ inner j, Judges problem o s inner j ∧ j.Accepts o ∧ t.residual = j.trial := by
  rcases of_iterate h with ⟨a, asks, rfl⟩ | ⟨a, inner, asks, -, rfl⟩ |
    ⟨inner, j, judges, hacc, rfl⟩ | ⟨inner, j, judges, -, rfl⟩
  · exact .inl asks.frame.2.1
  · exact .inl asks.frame.2.1
  · exact .inr ⟨inner, j, judges, hacc, rfl⟩
  · exact .inl judges.frame.2.1

theorem x_of_iterate {s t : State α S J P} (h : (s.iterate problem o).state? = some t)
    (hfresh : t.stale = false) : t.x = s.x := by
  rcases of_iterate h with ⟨a, asks, rfl⟩ | ⟨a, inner, asks, -, rfl⟩ | ⟨inner, j, judges, -, rfl⟩ |
    ⟨inner, j, judges, -, rfl⟩
  · exact asks.frame.1
  · exact asks.frame.1
  · cases hfresh
  · exact judges.frame.1

end Passes

end LeastSquares.Marquardt
