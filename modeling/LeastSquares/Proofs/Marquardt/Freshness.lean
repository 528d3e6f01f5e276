import LeastSquares.Proofs.Marquardt.Script
import LeastSquares.Proofs.Marquardt.Run
import LeastSquares.Dense.Matrix
import LeastSquares.Double

/-!
# Levenberg–Marquardt: when the Jacobian is evaluated

A solve keeps a Jacobian, its column norms and a flag that says whether they are stale.  `Account`
tells the calls of a solve that knows nothing of the flag: an iteration evaluates the Jacobian where
it is the first one or follows an accepted step, asks for one step, and evaluates the residuals
where that step moves.  Every solve calls exactly as its account tells, asks every question about
the Jacobian, the residuals and the column norms of the parameters it stands at, and asks it of the
step solver and over the buffer that the last answer left.
-/

namespace LeastSquares.Marquardt

variable {α S J P : Type}

def Event.isCall : Event α → Bool
  | .residuals _ | .jacobian _ | .step .. => true
  | .report _ | .record _ | .finished _ => false

def calls (events : Array (Event α)) : List (Event α) := events.toList.filter Event.isCall

theorem calls_push (events : Array (Event α)) (e : Event α) :
    calls (events.push e) = calls events ++ if e.isCall then [e] else [] := by
  cases h : e.isCall <;> simp [calls, h]

theorem calls_records (events : Array (Event α)) (log : List (Log.Record α)) :
    calls (events ++ (log.map Event.record).toArray) = calls events := by
  simp [calls, Event.isCall]

theorem State.calls_asked {S J P : Type} (s : State α S J P) (log : List (Log.Record α)) :
    calls ((s.note (.step s.buffers.residuals s.buffers.dtd s.lambda)).noteAll log).events =
      calls s.events ++ [.step s.buffers.residuals s.buffers.dtd s.lambda] := by
  rw [State.noteAll, calls_records, State.note, calls_push]
  rfl

structure Question (α S J : Type) where
  stepSolver : S
  jacobian : J
  residuals : Array α
  dtd : Array α
  lambda : α
  buffer : Array α
  answer : StepAnswer S α

/-- Where a solve stands between two iterations: the Jacobian was written last, and the parameters
have `moved` where there was no iteration yet or the last one was accepted. -/
structure Place (α S J : Type) where
  x : Array α
  jacobian : J
  moved : Bool
  stepSolver : S
  step : Array α

def Solver.place (solver : Solver α S) (jacobian : J) (x : Array α) : Place α S J :=
  ⟨x, jacobian, true, solver.stepSolver, solver.buffers.step⟩

def State.place {P : Type} (s : State α S J P) : Place α S J :=
  ⟨s.x, s.jacobian, s.stale, s.stepSolver, s.buffers.step⟩

variable [Scalar α]

/-- The parameters that are tried after a question at `x`: none where the step solver has no step,
and none where its step is zero. -/
def Question.trial? (q : Question α S J) (x : Array α) : Option (Array α) :=
  if q.answer.inner.isSome && !q.answer.step.all (· == 0) then
    some (Array.zipWith (· + ·) x q.answer.step)
  else none

def Question.place (q : Question α S J) (x : Array α) (accepted : Bool) : Place α S J where
  x := if accepted then (q.trial? x).getD x else x
  jacobian := q.jacobian
  moved := accepted
  stepSolver := q.answer.solver
  step := q.answer.step

section Accounts

variable [LinearOperator J α] [StepSolver S J α] (problem : Problem α J P) (o : Options α)

/-- The Jacobian, the residuals and the damping are those of the parameters `x`. -/
structure Current (x : Array α) (jacobian : J) (residuals dtd : Array α) : Prop where
  evaluated : ∃ p old p', problem.jacobian p x old = .done (p', jacobian)
  residuals : ∃ p old p', problem.residuals p x old = .done (p', residuals)
  damping : ∃ old squares, LinearOperator.columnSquares jacobian old = .done squares ∧
    dtd = squares.map fun d => Scalar.max d o.minDiagonal

/-- The step solver that stands here answers a question about these parameters over the buffer that
stands here.  The Jacobian of the question is the old one, or has overwritten the old one where the
parameters have moved. -/
structure Question.Asked (here : Place α S J) (q : Question α S J) : Prop where
  current : Current problem o here.x q.jacobian q.residuals q.dtd
  kept : here.moved = false → q.jacobian = here.jacobian
  rewritten : here.moved = true →
    ∃ p p', problem.jacobian p here.x here.jacobian = .done (p', q.jacobian)
  stepSolver : q.stepSolver = here.stepSolver
  buffer : q.buffer = here.step
  answer : StepSolver.solveStep q.stepSolver q.jacobian q.residuals q.dtd q.lambda q.buffer =
    .done q.answer

/-- What becomes of the step that answers a question: a trial point is accepted by its own residuals
and the prediction over the Jacobian and the residuals of the question. -/
structure Question.Settled (x : Array α) (q : Question α S J) (accepted : Bool) : Prop where
  rests : q.trial? x = none → accepted = false
  judged : ∀ y, q.trial? x = some y → ∃ predicted tried : Array α,
    LinearOperator.apply q.jacobian 1 q.answer.step 1 q.residuals = .done predicted ∧
    (∃ p old p', problem.residuals p y old = .done (p', tried)) ∧
    accepted = decide (o.minStepQuality < State.gainRatio (Vec.dot q.residuals q.residuals)
      (Vec.dot tried tried) (Vec.dot predicted predicted))

/-- `Account first trace here k`: from the place `first` the calls `trace` lead to the place `here`
in `k` iterations. -/
inductive Account (first : Place α S J) : List (Event α) → Place α S J → Nat → Prop
  | start : Account first [.residuals first.x] first 0
  | iteration {trace : List (Event α)} {here : Place α S J} {k : Nat}
      (before : Account first trace here k) (q : Question α S J) (asked : q.Asked problem o here)
      {accepted : Bool} (settled : q.Settled problem o here.x accepted) :
      Account first
        (trace ++ (if here.moved then [.jacobian here.x] else []) ++
          [.step q.residuals q.dtd q.lambda] ++ ((q.trial? here.x).map Event.residuals).toList)
        (q.place here.x accepted) (k + 1)

structure State.Accounted (n : Nat) (first : Place α S J) (k : Nat) (s : State α S J P) :
    Prop where
  account : Account problem o first (calls s.events) s.place k
  outer : s.outer = k
  residuals : ∃ p old p', problem.residuals p s.x old = .done (p', s.buffers.residuals)
  residual : s.residual = Vec.dot s.buffers.residuals s.buffers.residuals
  current : s.stale = false →
    Current problem o s.x s.jacobian s.buffers.residuals s.buffers.dtd
  size_x : s.x.size = n
  size_step : s.buffers.step.size = n
  size_trialPoint : s.buffers.trialPoint.size = n

/-- An iteration from `s` has come to `a` by this question, and has made further calls since. -/
structure State.Asking (n k : Nat) (s a : State α S J P) (q : Question α S J)
    (further : List (Event α)) : Prop where
  asked : q.Asked problem o s.place
  place : a.place = q.place s.x false
  residuals : a.buffers.residuals = q.residuals
  dtd : a.buffers.dtd = q.dtd
  calls : calls a.events = calls s.events ++ (if s.stale then [.jacobian s.x] else []) ++
    [.step q.residuals q.dtd q.lambda] ++ further
  residual : a.residual = Vec.dot q.residuals q.residuals
  outer : a.outer = k + 1
  size_step : a.buffers.step.size = n
  size_trialPoint : a.buffers.trialPoint.size = n

end Accounts

def KeepsStep (S J : Type) {α : Type} [StepSolver S J α] : Prop :=
  ∀ (s : S) (j : J) (f dtd : Array α) (lambda : α) (step : Array α) (a : StepAnswer S α),
    StepSolver.solveStep s j f dtd lambda step = .done a → a.step.size = step.size

variable [LinearOperator J α] [StepSolver S J α] {problem : Problem α J P} {o : Options α}
  {n k : Nat} {first : Place α S J} {s t a r : State α S J P} {q : Question α S J}
  {further : List (Event α)}

namespace State.Asking

variable (h : s.Asking problem o n k a q further)

include h

theorem x : a.x = s.x := congrArg Place.x h.place

theorem jacobian : a.jacobian = q.jacobian := congrArg Place.jacobian h.place

theorem step : a.buffers.step = q.answer.step := congrArg Place.step h.place

theorem current : Current problem o a.x a.jacobian a.buffers.residuals a.buffers.dtd := by
  rw [h.x, h.jacobian, h.residuals, h.dtd]
  exact h.asked.current

end State.Asking

theorem State.Accounted.refresh (hs : s.Accounted problem o n first k)
    (hr : ({ s with outer := s.outer + 1 }).refresh problem o = .done r) :
    Current problem o s.x r.jacobian r.buffers.residuals r.buffers.dtd ∧
      (s.stale = false → r.jacobian = s.jacobian) ∧
      (s.stale = true → ∃ p p', problem.jacobian p s.x s.jacobian = .done (p', r.jacobian)) ∧
      calls r.events = calls s.events ++ if s.stale then [.jacobian s.x] else [] := by
  rcases State.refresh_done hr with ⟨hstale, rfl⟩ | ⟨hstale, p, j, squares, hj, hsq, rfl⟩
  · have hstale : s.stale = false := hstale
    refine ⟨hs.current hstale, fun _ => rfl, fun h => ?_, ?_⟩
    · rw [hstale] at h
      cases h
    · simp [hstale]
  · have hstale : s.stale = true := hstale
    refine ⟨⟨⟨_, _, _, hj⟩, hs.residuals, ⟨_, _, hsq, rfl⟩⟩, fun h => ?_, fun _ => ⟨_, _, hj⟩, ?_⟩
    · rw [hstale] at h
      cases h
    · simp [State.note, calls_push, Event.isCall, hstale]

theorem State.Accounted.asks (hS : KeepsStep S J) (hs : s.Accounted problem o n first k)
    {inner : Option Nat} (h : Asks problem o s a inner) :
    ∃ q, s.Asking problem o n k a q [] ∧ q.answer.inner = inner := by
  obtain ⟨r, hr, ha⟩ := h
  obtain ⟨answer, hanswer, rfl, rfl⟩ := State.askStep_done ha
  obtain ⟨current, kept, rewritten, hcalls⟩ := hs.refresh hr
  have frame : r.x = s.x ∧ r.residual = s.residual ∧ r.outer = k + 1 ∧ r.stale = false ∧
      r.stepSolver = s.stepSolver ∧ r.buffers.residuals = s.buffers.residuals ∧
      r.buffers.step = s.buffers.step ∧ r.buffers.trialPoint = s.buffers.trialPoint := by
    rcases State.refresh_done hr with ⟨hstale, rfl⟩ | ⟨-, p, j, squares, -, -, rfl⟩
    · exact ⟨rfl, rfl, congrArg (· + 1) hs.outer, hstale, rfl, rfl, rfl, rfl⟩
    · exact ⟨rfl, rfl, congrArg (· + 1) hs.outer, rfl, rfl, rfl, rfl, rfl⟩
  obtain ⟨hx, hresidual, houter, hstale, hsolver, hresiduals, hstep, htrial⟩ := frame
  let q : Question α S J := ⟨r.stepSolver, r.jacobian, r.buffers.residuals, r.buffers.dtd,
    r.lambda, r.buffers.step, answer⟩
  refine ⟨q, ⟨⟨current, kept, rewritten, hsolver, hstep, hanswer⟩, ?_, rfl, rfl, ?_, ?_, houter,
    ?_, htrial ▸ hs.size_trialPoint⟩, rfl⟩
  · change Place.mk r.x r.jacobian r.stale answer.solver answer.step = _
    rw [hx, hstale]
    rfl
  · rw [List.append_nil, ← hcalls]
    exact r.calls_asked answer.log
  · change r.residual = Vec.dot r.buffers.residuals r.buffers.residuals
    rw [hresidual, hresiduals, hs.residual]
  · exact (hS _ _ _ _ _ _ _ hanswer).trans (hstep ▸ hs.size_step)

omit [LinearOperator J α] [StepSolver S J α] in
theorem State.candidate_eq_zipWith (hx : s.x.size = n) (hstep : s.buffers.step.size = n)
    (htrial : s.buffers.trialPoint.size = n) :
    s.candidate = Array.zipWith (· + ·) s.x s.buffers.step := by
  have hzip : (s.x.zip s.buffers.step).size = n := by simp [hx, hstep]
  rw [State.candidate, Vec.zipUpdate_overwrite (fun xp : α × α => xp.1 + xp.2)
    (htrial.trans hzip.symm)]
  apply Array.ext <;> simp

theorem State.Asking.rests (hs : s.Accounted problem o n first k)
    (h : s.Asking problem o n k a q []) (hrests : q.trial? s.x = none) :
    a.Accounted problem o n first (k + 1) := by
  have settled : q.Settled problem o s.x false :=
    ⟨fun _ => rfl, fun y hy => by rw [hrests] at hy; cases hy⟩
  refine ⟨?_, h.outer, h.current.residuals, ?_, fun _ => h.current, h.x ▸ hs.size_x, h.size_step,
    h.size_trialPoint⟩
  · have account := hs.account.iteration q h.asked settled
    rw [show s.place.x = s.x from rfl, hrests] at account
    rw [h.calls, h.place]
    exact account
  · rw [h.residual, h.residuals]

theorem State.Asking.settled (h : s.Asking problem o n k t q further)
    (htrial : q.trial? s.x = some t.buffers.trialPoint)
    (predicts : LinearOperator.apply q.jacobian 1 q.answer.step 1 q.residuals =
      .done t.buffers.predicted)
    (tries : ∃ p old p', problem.residuals p t.buffers.trialPoint old =
      .done (p', t.buffers.trialResiduals)) :
    q.Settled problem o s.x (decide (t.Accepts o)) := by
  refine ⟨fun hnone => ?_, fun y hy => ⟨t.buffers.predicted, t.buffers.trialResiduals, predicts, ?_,
    ?_⟩⟩
  · rw [htrial] at hnone
    cases hnone
  · obtain rfl : t.buffers.trialPoint = y := Option.some.inj (htrial.symm.trans hy)
    exact tries
  · rw [← h.residual]
    rfl

/-- A judged iteration tried the point that its question leads to. -/
theorem State.Accounted.judges (hS : KeepsStep S J) (hs : s.Accounted problem o n first k)
    {inner : Nat} (h : Judges problem o s inner t) :
    ∃ q, s.Asking problem o n k t q [.residuals t.buffers.trialPoint] ∧
      q.trial? s.x = some t.buffers.trialPoint ∧ q.Settled problem o s.x (decide (t.Accepts o)) ∧
      ∃ p old p', problem.residuals p t.buffers.trialPoint old =
        .done (p', t.buffers.trialResiduals) := by
  obtain ⟨a, asks, moves, ht⟩ := h.evaluates
  obtain ⟨q, ha, hinner⟩ := hs.asks hS asks
  have hcandidate := State.candidate_eq_zipWith (ha.x ▸ hs.size_x) ha.size_step ha.size_trialPoint
  have htrial : q.trial? s.x = some t.buffers.trialPoint := by
    rw [ht.trialPoint, hcandidate, ha.x, ha.step, Question.trial?, hinner, ← ha.step, moves]
    rfl
  have tries : ∃ p old p', problem.residuals p t.buffers.trialPoint old =
      .done (p', t.buffers.trialResiduals) := ⟨_, _, _, ht.trialPoint ▸ ht.tries⟩
  have hcalls : calls t.events =
      calls s.events ++ (if s.stale then [.jacobian s.x] else []) ++
        [.step q.residuals q.dtd q.lambda] ++ [.residuals t.buffers.trialPoint] := by
    rw [ht.events, calls_push, ha.calls, List.append_nil, ht.trialPoint]
    rfl
  have hplace : t.place = q.place s.x false := by
    rw [← ha.place]
    simp only [State.place, ht.x, ht.jacobian, ht.stale, ht.stepSolver, ht.step]
  have asking : s.Asking problem o n k t q [.residuals t.buffers.trialPoint] :=
    ⟨ha.asked, hplace, ht.residuals.trans ha.residuals, ht.dtd.trans ha.dtd, hcalls,
      ht.residual.trans ha.residual, ht.outer.trans ha.outer, ht.step ▸ ha.size_step,
      by rw [ht.trialPoint, State.size_candidate, ha.size_trialPoint]⟩
  have predicts : LinearOperator.apply q.jacobian 1 q.answer.step 1 q.residuals =
      .done t.buffers.predicted := by
    rw [← ha.jacobian, ← ha.step, ← ha.residuals]
    exact ht.predicts
  exact ⟨q, asking, htrial, asking.settled htrial predicts tries, tries⟩

/-- An iteration that does not break off adds its part to the account. -/
theorem State.Accounted.iterate (hS : KeepsStep S J) (hs : s.Accounted problem o n first k)
    (h : (s.iterate problem o).state? = some t) : t.Accounted problem o n first (k + 1) := by
  have reported : ∀ (inner : Nat) (j : State α S J P),
      calls (j.reported o inner).events = calls j.events := by
    intro inner j
    simp [State.reported, State.note, calls_push, Event.isCall]
  rcases of_iterate h with ⟨a, asks, rfl⟩ | ⟨a, inner, asks, rests, rfl⟩ |
    ⟨inner, j, judges, hacc, rfl⟩ | ⟨inner, j, judges, hacc, rfl⟩
  · obtain ⟨q, ha, hinner⟩ := hs.asks hS asks
    have hc := ha.rests hs (by simp [Question.trial?, hinner])
    refine ⟨?_, hc.outer, hc.residuals, hc.residual, hc.current, hc.size_x, hc.size_step,
      hc.size_trialPoint⟩
    have hcalls : calls (a.skipStep o).events = calls a.events := by
      simp [State.skipStep, State.reject, State.note, calls_push, Event.isCall]
    rw [hcalls]
    exact hc.account
  · obtain ⟨q, ha, hinner⟩ := hs.asks hS asks
    have hrests : q.trial? s.x = none := by
      rw [Question.trial?, ← ha.step, rests]
      simp
    have hc := ha.rests hs hrests
    exact ⟨hc.account, hc.outer, hc.residuals, hc.residual, hc.current, hc.size_x, hc.size_step,
      hc.size_trialPoint⟩
  · obtain ⟨q, hj, htrial, settled, tries⟩ := hs.judges hS judges
    have account := hs.account.iteration q hj.asked settled
    refine ⟨?_, hj.outer, tries, rfl, Bool.noConfusion, hj.size_trialPoint, hj.size_step,
      hj.size_trialPoint⟩
    have hplace : ((j.reported o inner).accept o j.ratio j.trial).place =
        q.place s.x (decide (j.Accepts o)) := by
      rw [decide_eq_true hacc, Question.place, htrial, ← hj.jacobian, ← hj.step,
        show q.answer.solver = j.stepSolver from (congrArg Place.stepSolver hj.place).symm]
      rfl
    rw [show s.place.x = s.x from rfl, htrial] at account
    rw [hplace]
    simp only [State.accept, reported, hj.calls]
    exact account
  · obtain ⟨q, hj, htrial, settled, -⟩ := hs.judges hS judges
    have account := hs.account.iteration q hj.asked settled
    refine ⟨?_, hj.outer, hj.current.residuals, hj.residual.trans (by rw [← hj.residuals]; rfl),
      fun _ => hj.current, hj.x ▸ hs.size_x, hj.size_step, hj.size_trialPoint⟩
    have hplace : ((j.reported o inner).reject o).place = q.place s.x (decide (j.Accepts o)) := by
      rw [decide_eq_false hacc, ← hj.place]
      rfl
    rw [show s.place.x = s.x from rfl, htrial] at account
    rw [hplace]
    simp only [State.reject, reported, hj.calls]
    exact account

section Solves

variable {solver : Solver α S} {p : P} {jacobian : J} {x : Array α}

theorem accounted_of_head (hS : KeepsStep S J)
    (hsolver : solver.buffers.Sized solver.nrows solver.ncols)
    (head : Head solver problem o p jacobian x k s) :
    s.Accounted problem o solver.ncols (solver.place jacobian x) k := by
  induction head with
  | first fits evaluates =>
    exact ⟨.start, rfl, ⟨_, _, _, evaluates⟩, rfl, nofun,
      (Solver.misfit?_eq_none_iff.1 fits).1, hsolver.step, hsolver.trialPoint⟩
  | next _ _ _ goes ih => exact ih.iterate hS (congrArg Step.state? goes)

theorem iterations_le_of_head (head : Head solver problem o p jacobian x k s) : k ≤ o.maxIters := by
  cases head with
  | first => exact Nat.zero_le _
  | next _ more => exact more

theorem accounted_of_exit (hS : KeepsStep S J)
    (hsolver : solver.buffers.Sized solver.nrows solver.ncols) {status : Status}
    (exit : Exit solver problem o p jacobian x t status) :
    t.outer ≤ o.maxIters ∧
      Account problem o (solver.place jacobian x) (calls t.events) t.place t.outer := by
  cases exit with
  | failure => exact ⟨Nat.zero_le _, .start⟩
  | limit head =>
    have ht := accounted_of_head hS hsolver head
    rw [ht.outer]
    exact ⟨Nat.le_refl _, ht.account⟩
  | zero head more =>
    have ht := accounted_of_head hS hsolver head
    rw [ht.outer]
    exact ⟨Nat.le_of_lt more, ht.account⟩
  | stopped head more _ stops =>
    have ht := (accounted_of_head hS hsolver head).iterate hS (congrArg Step.state? stops)
    rw [ht.outer]
    exact ⟨more, ht.account⟩

/-- At every loop head and at the end of every solve the calls are accounted for, and every question
and every prediction sees the evaluations at the parameters of its loop head. -/
theorem solve_fresh (hS : KeepsStep S J)
    (hsolver : solver.buffers.Sized solver.nrows solver.ncols) :
    (∀ k s, Head solver problem o p jacobian x k s →
      k ≤ o.maxIters ∧ s.outer = k ∧
        Account problem o ⟨x, jacobian, true, solver.stepSolver, solver.buffers.step⟩
          (calls s.events) ⟨s.x, s.jacobian, s.stale, s.stepSolver, s.buffers.step⟩ k ∧
        ∀ r, ({ s with outer := s.outer + 1 }).refresh problem o = .done r →
          r.x = s.x ∧ Current problem o s.x r.jacobian r.buffers.residuals r.buffers.dtd ∧
            ∀ a answer, r.askStep = .done (a, answer) →
              Current problem o s.x a.jacobian a.buffers.residuals a.buffers.dtd) ∧
    (∀ stats, (solver.solve problem o p jacobian x).ending = .finished stats →
      let run := solver.solve problem o p jacobian x
      stats.outer ≤ o.maxIters ∧ ∃ moved,
        Account problem o ⟨x, jacobian, true, solver.stepSolver, solver.buffers.step⟩
          (calls run.events)
          ⟨run.x, run.jacobian, moved, run.solver.stepSolver, run.solver.buffers.step⟩
          stats.outer) := by
  constructor
  · intro k s head
    have hs := accounted_of_head hS hsolver head
    refine ⟨iterations_le_of_head head, hs.outer, hs.account, fun r hr => ?_⟩
    have current := (hs.refresh hr).1
    refine ⟨?_, current, fun a answer ha => ?_⟩
    · rcases State.refresh_done hr with ⟨-, rfl⟩ | ⟨-, p, j, squares, -, -, rfl⟩ <;> rfl
    · obtain ⟨answer, -, -, rfl⟩ := State.askStep_done ha
      exact current
  · intro stats h
    obtain ⟨t, status, exit, rfl, hrun⟩ := exit_of_finished h
    obtain ⟨hle, account⟩ := accounted_of_exit hS hsolver exit
    refine ⟨hle, t.stale, ?_⟩
    have hcalls : calls (t.events.push (.finished (t.stats status))) = calls t.events := by
      simp [calls_push, Event.isCall]
    rw [hrun]
    exact hcalls ▸ account

end Solves

omit [Scalar α] in
theorem Script.keepsStep {J : Type} : KeepsStep (α := α) (Script α) J := by
  intro script j f dtd lambda step a h
  change script.next step = .done a at h
  unfold Script.next at h
  split at h
  · cases h
    rfl
  · cases h
    rfl
  · split at h
    · cases h
      assumption
    · cases h

/-- A solve that accepts a step, gets none, rejects one, is told to rest and then makes no call
more.  Its step solver is left with no answers. -/
theorem solve_fresh_script :
    let solver := Script.solver 1 1 [some (#[-1], 3), none, some (#[5], 0), some (#[0], 1)]
    let problem : Problem Float (Dense.Matrix Float) Unit := identityProblem
    let jacobian : Dense.Matrix Float := .ofFn 1 1 fun _ _ => 1
    let run := solver.solve problem .default () jacobian #[3]
    KeepsStep (Script Float) (Dense.Matrix Float) ∧
      solver.buffers.Sized solver.nrows solver.ncols ∧
      ∃ stats, run.ending = .finished stats ∧ stats.status = .convergedGradient ∧
        stats.outer = 4 ∧ stats.outer ≤ 1000 ∧ run.solver.stepSolver.answers = [] ∧
        ∃ moved, Account problem .default ⟨#[3], jacobian, true, solver.stepSolver, #[0]⟩
          (calls run.events)
          ⟨run.x, run.jacobian, moved, run.solver.stepSolver, run.solver.buffers.step⟩
          stats.outer := by
  intro solver problem jacobian run
  have hsolver : solver.buffers.Sized solver.nrows solver.ncols := Buffers.sized_new 1 1
  have hrun : (run.ending.stats?.any fun stats =>
      decide (stats.status = .convergedGradient ∧ stats.outer = 4 ∧
        run.solver.stepSolver.answers.isEmpty)) = true := by
    decide +kernel
  obtain ⟨stats, hstats, h⟩ := Ending.exists_of_any hrun
  obtain ⟨hstatus, houter, hanswers⟩ := of_decide_eq_true h
  obtain ⟨hle, account⟩ := (solve_fresh Script.keepsStep hsolver).2 stats hstats
  exact ⟨Script.keepsStep, hsolver, stats, hstats, hstatus, houter, hle,
    List.isEmpty_iff.1 hanswers, account⟩

end LeastSquares.Marquardt
