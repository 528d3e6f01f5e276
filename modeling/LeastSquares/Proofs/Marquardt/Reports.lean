import Mathlib
import LeastSquares.Dense.Matrix
import LeastSquares.Double
import LeastSquares.Proofs.Marquardt.Run
import LeastSquares.Proofs.Marquardt.Script
import LeastSquares.Proofs.Overflow

/-!
# Levenberg–Marquardt: the reports of a solve

An iteration is reported unless its step is zero, and the end of a solve is reported once, after all
iterations.  Every report begins with the number, the residual and the damping that the one before
it ends with, so the reports lead from the start of a solve to its statistics.
-/

namespace LeastSquares.Marquardt

variable {α S J P : Type}

def Event.isReported : Event α → Bool
  | .report _ | .finished _ => true
  | .residuals _ | .jacobian _ | .step .. | .record _ => false

def reporterCalls (events : Array (Event α)) : List (Event α) :=
  events.toList.filter Event.isReported

theorem reporterCalls_push (events : Array (Event α)) (e : Event α) :
    reporterCalls (events.push e) = reporterCalls events ++ if e.isReported then [e] else [] := by
  cases h : e.isReported <;> simp [reporterCalls, h]

theorem reporterCalls_records (events : Array (Event α)) (log : List (Log.Record α)) :
    reporterCalls (events ++ (log.map Event.record).toArray) = reporterCalls events := by
  simp [reporterCalls, Event.isReported]

structure Standing (α : Type) where
  iteration : Nat
  residual : α
  lambda : α

variable [Scalar α]

/-- Where a reported iteration leaves the solve. -/
def IterationReport.standing (o : Options α) (r : IterationReport α) : Standing α where
  iteration := r.iteration
  residual := if r.accepted then r.trialResidual else r.residual
  lambda :=
    if r.accepted then
      if o.goodStepQuality < r.rho then Scalar.max (r.lambda / o.lambdaFactor) o.lambdaMin
      else r.lambda
    else Scalar.min (r.lambda * o.lambdaFactor) o.lambdaMax

/-- The reports lead from one standing to another: each begins where the one before it ends. -/
def Leads (o : Options α) : Standing α → List (IterationReport α) → Standing α → Prop
  | s, [], t => s = t
  | s, r :: rest, t =>
    r.iteration = s.iteration + 1 ∧ r.residual = s.residual ∧ r.lambda = s.lambda ∧
      Leads o (r.standing o) rest t

namespace Leads

variable {o : Options α} {s t : Standing α} {rs : List (IterationReport α)}

theorem snoc (h : Leads o s rs t) {r : IterationReport α}
    (hiteration : r.iteration = t.iteration + 1) (hresidual : r.residual = t.residual)
    (hlambda : r.lambda = t.lambda) :
    Leads o s (rs ++ [r]) (r.standing o) := by
  induction rs generalizing s with
  | nil =>
    obtain rfl : s = t := h
    exact ⟨hiteration, hresidual, hlambda, rfl⟩
  | cons _ _ ih => exact ⟨h.1, h.2.1, h.2.2.1, ih h.2.2.2⟩

theorem iteration_eq (h : Leads o s rs t) : t.iteration = s.iteration + rs.length := by
  induction rs generalizing s with
  | nil =>
    obtain rfl : s = t := h
    rfl
  | cons r _ ih =>
    have hrest := ih h.2.2.2
    have hfirst : (r.standing o).iteration = s.iteration + 1 := h.1
    rw [List.length_cons]
    omega

theorem numbered (h : Leads o s rs t) :
    rs.map (·.iteration) = List.range' (s.iteration + 1) rs.length := by
  induction rs generalizing s with
  | nil => rfl
  | cons r _ ih =>
    have hfirst : (r.standing o).iteration = s.iteration + 1 := h.1
    rw [List.map_cons, ih h.2.2.2, hfirst, h.1, List.length_cons, List.range'_succ]

end Leads

def State.standing (s : State α S J P) : Standing α := ⟨s.outer, s.residual, s.lambda⟩

def State.skipReport (s : State α S J P) : IterationReport α where
  iteration := s.outer
  residual := s.residual
  trialResidual := s.residual
  rho := 0
  lambda := s.lambda
  stepInf := 0
  inner := 0
  accepted := false

variable {problem : Problem α J P} {o : Options α} {s a t : State α S J P} {inner : Nat}

theorem State.reporterCalls_skipStep (o : Options α) (s : State α S J P) :
    reporterCalls (s.skipStep o).events = reporterCalls s.events ++ [.report s.skipReport] :=
  reporterCalls_push s.events (.report s.skipReport)

theorem State.reporterCalls_reported (o : Options α) (inner : Nat) (s : State α S J P) :
    reporterCalls (s.reported o inner).events =
      reporterCalls s.events ++ [.report (s.verdict o inner)] := by
  simp only [State.reported, State.note, reporterCalls_push, Event.isReported, if_true,
    Bool.false_eq_true, if_false, List.append_nil]

theorem State.standing_accept (h : s.Accepts o) (inner : Nat) :
    ((s.reported o inner).accept o s.ratio s.trial).standing =
      (s.verdict o inner).standing o := by
  simp only [standing, IterationReport.standing, verdict, h, decide_true, if_true]
  rfl

theorem State.standing_reject (h : ¬ s.Accepts o) (inner : Nat) :
    ((s.reported o inner).reject o).standing = (s.verdict o inner).standing o := by
  simp only [standing, IterationReport.standing, verdict, h, decide_false, Bool.false_eq_true,
    if_false]
  rfl

variable [LinearOperator J α] [StepSolver S J α]

theorem Asks.unreported {answer : Option Nat} (h : Asks problem o s a answer) :
    reporterCalls a.events = reporterCalls s.events ∧ a.inner = s.inner := by
  obtain ⟨r, hr, ha⟩ := h
  obtain ⟨answer, -, -, rfl⟩ := State.askStep_done ha
  rcases State.refresh_done hr with ⟨-, rfl⟩ | ⟨-, p, j, squares, -, -, rfl⟩ <;>
    simp only [State.note, State.noteAll, reporterCalls_push, reporterCalls_records,
      Event.isReported, Bool.false_eq_true, if_false, List.append_nil, and_self]

theorem Judges.unreported (h : Judges problem o s inner t) :
    reporterCalls t.events = reporterCalls s.events ∧ t.inner = addCounts s.inner inner := by
  obtain ⟨asks, -, predicts, tries⟩ := h
  obtain ⟨predicted, -, rfl⟩ := State.predict_done predicts
  obtain ⟨p, r, -, rfl⟩ := State.evaluateTrial_done tries
  obtain ⟨hcalls, hinner⟩ := asks.unreported
  refine ⟨?_, congrArg (addCounts · inner) hinner⟩
  simpa only [State.note, reporterCalls_push, Event.isReported, Bool.false_eq_true, if_false,
    List.append_nil] using hcalls

/-- The reports `rs` have led to the state, which has counted the inner iterations of the answers of
the step solver. -/
structure State.Reported (o : Options α) (first : Standing α) (answers : List (Option Nat))
    (rs : List (IterationReport α)) (s : State α S J P) : Prop where
  calls : reporterCalls s.events = rs.map .report
  leads : Leads o first rs s.standing
  inner : s.inner = (answers.map (·.getD 0)).sum % UInt64.size
  counts : rs.map (·.inner) = answers.map (·.getD 0)

namespace State.Reported

variable {first : Standing α} {answers : List (Option Nat)} {rs : List (IterationReport α)}

omit [LinearOperator J α] [StepSolver S J α] in
theorem inner_snoc (hs : s.Reported o first answers rs) (inner : Nat) :
    addCounts s.inner inner = ((answers ++ [some inner]).map (·.getD 0)).sum % UInt64.size := by
  rw [addCounts, hs.inner, Nat.mod_add_mod, List.map_append, List.sum_append]
  rfl

theorem skipped (hs : s.Reported o first answers rs) (asks : Asks problem o s a none) :
    (a.skipStep o).Reported o first (answers ++ [none]) (rs ++ [a.skipReport]) := by
  obtain ⟨-, hresidual, hlambda, houter⟩ := asks.frame
  obtain ⟨hcalls, hinner⟩ := asks.unreported
  refine ⟨?_, ?_, ?_, ?_⟩
  · rw [State.reporterCalls_skipStep, hcalls, hs.calls, List.map_append, List.map_singleton]
  · exact hs.leads.snoc houter hresidual hlambda
  · simpa [State.skipStep, State.reject, State.note] using hinner.trans hs.inner
  · simpa [State.skipReport] using hs.counts

theorem judged (hs : s.Reported o first answers rs) (judges : Judges problem o s inner a)
    (h : (a.judge o inner).state? = some t) :
    t.Reported o first (answers ++ [some inner]) (rs ++ [a.verdict o inner]) := by
  obtain ⟨-, hresidual, hlambda, houter⟩ := judges.frame
  obtain ⟨hcalls, hinner⟩ := judges.unreported
  have leads : Leads o first (rs ++ [a.verdict o inner]) ((a.verdict o inner).standing o) :=
    hs.leads.snoc houter hresidual hlambda
  have calls : reporterCalls (a.reported o inner).events =
      (rs ++ [a.verdict o inner]).map .report := by
    rw [State.reporterCalls_reported, hcalls, hs.calls, List.map_append, List.map_singleton]
  have counted : a.inner = ((answers ++ [some inner]).map (·.getD 0)).sum % UInt64.size :=
    hinner.trans (hs.inner_snoc inner)
  have counts : (rs ++ [a.verdict o inner]).map (·.inner) =
      (answers ++ [some inner]).map (·.getD 0) := by
    simpa [State.verdict] using hs.counts
  by_cases hacc : a.Accepts o
  · rw [State.state?_judge_of_accepts hacc] at h
    cases h
    exact ⟨calls, State.standing_accept hacc inner ▸ leads, counted, counts⟩
  · rw [State.state?_judge_of_not_accepts hacc] at h
    cases h
    exact ⟨calls, State.standing_reject hacc inner ▸ leads, counted, counts⟩

end State.Reported

section Solves

variable (solver : Solver α S) (problem : Problem α J P) (o : Options α) (p : P) (jacobian : J)
  (x : Array α)

/-- The answers of the step solver in the first iterations of a solve, in order: the number of inner
iterations where it has a step. -/
def Answers (answers : List (Option Nat)) : Prop :=
  ∀ i answer, answers[i]? = some answer →
    ∃ s a, Head solver problem o p jacobian x i s ∧ Asks problem o s a answer

variable {solver problem o p jacobian x}

theorem Answers.snoc {answers : List (Option Nat)} {answer : Option Nat}
    (h : Answers solver problem o p jacobian x answers)
    (head : Head solver problem o p jacobian x answers.length s)
    (asks : Asks problem o s a answer) :
    Answers solver problem o p jacobian x (answers ++ [answer]) := by
  intro i given hgiven
  rw [List.getElem?_append] at hgiven
  split at hgiven
  · exact h i given hgiven
  · obtain ⟨hi, rfl⟩ : i = answers.length ∧ answer = given := by
      rw [List.getElem?_singleton] at hgiven
      split at hgiven
      · exact ⟨by omega, Option.some.inj hgiven⟩
      · cases hgiven
    exact hi ▸ ⟨s, a, head, asks⟩

theorem reported_of_head {k : Nat} (head : Head solver problem o p jacobian x k s) :
    ∃ p' r answers rs, problem.residuals p x solver.buffers.residuals = .done (p', r) ∧
      Answers solver problem o p jacobian x answers ∧ answers.length = k ∧
      s.Reported o ⟨0, Vec.dot r r, State.clamped o o.lambdaInit⟩ answers rs := by
  induction head with
  | @first p' r fits evaluates =>
    exact ⟨p', r, [], [], evaluates, nofun, rfl, rfl, rfl, rfl, rfl⟩
  | @next k s t head more nonzero goes ih =>
    obtain ⟨p', r, answers, rs, evaluates, hanswers, rfl, hs⟩ := ih
    -- Whether it is skipped or judged, the iteration adds one answer and one report.
    rcases of_iterate_next goes with ⟨a, asks, rfl⟩ | ⟨inner, j, judges, hnext⟩
    · exact ⟨p', r, _, _, evaluates, hanswers.snoc head asks, by simp, hs.skipped asks⟩
    · obtain ⟨a, asks, -⟩ := judges.evaluates
      exact ⟨p', r, _, _, evaluates, hanswers.snoc head asks, by simp,
        hs.judged judges (by rw [hnext]; rfl)⟩

/-- The statistics count the inner iterations of all answers and the iterations of both kinds. -/
structure Counted (counts : List Nat) (stats : Stats α) : Prop where
  inner : stats.inner = counts.sum % UInt64.size
  iterations : stats.iterations = (stats.outer + stats.inner) % UInt64.size
  /-- On either machine the statistics have the sums that the machine comes to. -/
  sums : ∀ (overflow : Overflow) (total iterations : Nat), overflow.total? counts = some total →
    overflow.add? stats.outer total = some iterations →
    stats.inner = total ∧ stats.iterations = iterations
  traps : ∀ total iterations : Nat, Overflow.traps.total? counts = some total →
    Overflow.traps.add? stats.outer total = some iterations →
    total = counts.sum ∧ iterations = stats.outer + counts.sum

/-- The reports `rs` are the whole account of a solve with these answers of the step solver, from
its first residual to its statistics. -/
structure Chronicle (o : Options α) (first : α) (answers : List (Option Nat))
    (rs : List (IterationReport α)) (events : Array (Event α)) (stats : Stats α) : Prop where
  calls : reporterCalls events = rs.map .report ++ [.finished stats]
  numbered : rs.map (·.iteration) = List.range' 1 rs.length
  /-- Only an iteration whose step is zero has no report. -/
  length : rs.length + (if stats.status = .convergedGradient then 1 else 0) = stats.outer
  leads : Leads o ⟨0, first, Scalar.min (Scalar.max o.lambdaInit o.lambdaMin) o.lambdaMax⟩ rs
    ⟨rs.length, stats.residual, stats.lambda⟩
  asked : answers.length = stats.outer
  counts : rs.map (·.inner) = (answers.take rs.length).map (·.getD 0)
  counted : Counted (answers.map (·.getD 0)) stats

omit [Scalar α] [LinearOperator J α] [StepSolver S J α] in
theorem Counted.of_inner {counts : List Nat} {stats : Stats α}
    (h : stats.inner = counts.sum % UInt64.size) : Counted counts stats where
  inner := h
  iterations := rfl
  sums overflow total iterations htotal hiterations := by
    cases overflow with
    | traps =>
      obtain ⟨hsum, hlt⟩ := Overflow.total?_traps htotal
      obtain ⟨hadd, hlt'⟩ := Overflow.add?_traps hiterations
      have hinner : stats.inner = total := by rw [h, hsum, Nat.mod_eq_of_lt hlt]
      refine ⟨hinner, ?_⟩
      rw [Stats.iterations, addCounts, hinner, hadd, Nat.mod_eq_of_lt hlt']
    | wraps =>
      have hinner : stats.inner = total :=
        h.trans (Option.some.inj ((Overflow.total?_wraps counts).symm.trans htotal))
      refine ⟨hinner, ?_⟩
      rw [Stats.iterations, addCounts, hinner]
      exact Option.some.inj hiterations
  traps total iterations htotal hiterations := by
    obtain ⟨rfl, -⟩ := Overflow.total?_traps htotal
    exact ⟨rfl, (Overflow.add?_traps hiterations).1.symm⟩

omit [LinearOperator J α] [StepSolver S J α] in
theorem State.Reported.length_eq {first : Standing α} {answers : List (Option Nat)}
    {rs : List (IterationReport α)} (hs : s.Reported o first answers rs) :
    rs.length = answers.length := by
  simpa using congrArg List.length hs.counts

omit [LinearOperator J α] [StepSolver S J α] in
theorem State.Reported.chronicle {first : α} {answers : List (Option Nat)}
    {rs : List (IterationReport α)} {status : Status}
    (hs : s.Reported o ⟨0, first, State.clamped o o.lambdaInit⟩ answers rs)
    (hstatus : status ≠ .convergedGradient) :
    Chronicle o first answers rs (s.events.push (.finished (s.stats status))) (s.stats status) := by
  have houter : s.outer = rs.length := hs.leads.iteration_eq.trans (Nat.zero_add _)
  refine ⟨?_, hs.leads.numbered, ?_, ?_, ?_, ?_, .of_inner hs.inner⟩
  · rw [reporterCalls_push, hs.calls]
    rfl
  · simp [State.stats, hstatus, houter]
  · exact houter ▸ hs.leads
  · exact hs.length_eq.symm.trans houter.symm
  · rw [hs.length_eq, List.take_length, hs.counts]

/-- A zero step counts its inner iterations, and ends the solve without a report. -/
theorem State.Reported.zeroStep {first : α} {answers : List (Option Nat)}
    {rs : List (IterationReport α)}
    (hs : s.Reported o ⟨0, first, State.clamped o o.lambdaInit⟩ answers rs)
    (asks : Asks problem o s a (some inner)) (stepInf : α) :
    let t := { a with inner := addCounts a.inner inner, stepInf := stepInf }
    Chronicle o first (answers ++ [some inner]) rs
      (t.events.push (.finished (t.stats .convergedGradient))) (t.stats .convergedGradient) := by
  intro t
  obtain ⟨-, hresidual, hlambda, houter⟩ := asks.frame
  obtain ⟨hcalls, hinner⟩ := asks.unreported
  have hlength : s.outer = rs.length := hs.leads.iteration_eq.trans (Nat.zero_add _)
  refine ⟨?_, hs.leads.numbered, ?_, ?_, ?_, ?_, .of_inner ?_⟩
  · rw [reporterCalls_push, hcalls, hs.calls]
    rfl
  · exact (houter.trans (by rw [hlength]; rfl)).symm
  · have hstanding : s.standing = ⟨rs.length, a.residual, a.lambda⟩ := by
      rw [State.standing, hlength, hresidual, hlambda]
    exact hstanding ▸ hs.leads
  · rw [List.length_append, ← hs.length_eq, ← hlength]
    exact houter.symm
  · rw [hs.length_eq, List.take_left, hs.counts]
  · exact (congrArg (addCounts · inner) hinner).trans (hs.inner_snoc inner)

theorem chronicle_of_exit {status : Status} (exit : Exit solver problem o p jacobian x t status) :
    ∃ p' r answers rs, problem.residuals p x solver.buffers.residuals = .done (p', r) ∧
      Answers solver problem o p jacobian x answers ∧
      Chronicle o (Vec.dot r r) answers rs (t.events.push (.finished (t.stats status)))
        (t.stats status) := by
  cases exit with
  | @failure p' r fits evaluates =>
    exact ⟨p', r, [], [], evaluates, nofun, rfl, rfl, rfl, rfl, rfl, rfl, .of_inner rfl⟩
  | limit head =>
    obtain ⟨p', r, answers, rs, evaluates, hanswers, -, hs⟩ := reported_of_head head
    exact ⟨p', r, answers, rs, evaluates, hanswers, hs.chronicle nofun⟩
  | zero head =>
    obtain ⟨p', r, answers, rs, evaluates, hanswers, -, hs⟩ := reported_of_head head
    exact ⟨p', r, answers, rs, evaluates, hanswers, hs.chronicle nofun⟩
  | stopped head more nonzero stops =>
    obtain ⟨p', r, answers, rs, evaluates, hanswers, rfl, hs⟩ := reported_of_head head
    rcases of_iterate_stop stops with
      ⟨a, inner, asks, -, rfl, rfl⟩ | ⟨inner, j, judges, hacc, -, rfl, rfl⟩
    · exact ⟨p', r, _, rs, evaluates, hanswers.snoc head asks, hs.zeroStep asks 0⟩
    · obtain ⟨a, asks, -⟩ := judges.evaluates
      have hj := hs.judged judges (State.state?_judge_of_accepts hacc inner)
      exact ⟨p', r, _, _, evaluates, hanswers.snoc head asks, hj.chronicle nofun⟩

/-- The reports of a solve that comes to its end lead from its start to its statistics, without a
gap, and the end is reported once after them.  A solve that is refused reports nothing. -/
theorem solve_reports :
    (∀ stats, (solver.solve problem o p jacobian x).ending = .finished stats →
      ∃ p' r answers rs, problem.residuals p x solver.buffers.residuals = .done (p', r) ∧
        Answers solver problem o p jacobian x answers ∧
        Chronicle o (Vec.dot r r) answers rs (solver.solve problem o p jacobian x).events stats) ∧
    ∀ e, (solver.solve problem o p jacobian x).ending = .refused e →
      reporterCalls (solver.solve problem o p jacobian x).events = [] := by
  constructor
  · intro stats h
    obtain ⟨t, status, exit, rfl, hrun⟩ := exit_of_finished h
    rw [hrun]
    exact chronicle_of_exit exit
  · intro e h
    unfold Solver.solve at h ⊢
    cases fits : solver.misfit? jacobian x with
    | some e => rfl
    | none =>
      simp only [fits] at h
      split at h <;> cases h

end Solves

/-- A solve that accepts a step, gets none, rejects one and ends on a zero step, and the same with
counts that add up to a number past the last word. -/
theorem solve_reports_script :
    let solver (count : Nat) :=
      Script.solver 1 1 [some (#[-1], 3), none, some (#[5], 2), some (#[0], count)]
    let problem : Problem Float (Dense.Matrix Float) Unit := identityProblem
    let jacobian : Dense.Matrix Float := .ofFn 1 1 fun _ _ => 1
    ∀ count inner iterations, (count, inner, iterations) ∈ [(1, 6, 10), (2 ^ 64 - 2, 3, 7)] →
      let run := (solver count).solve problem .default () jacobian #[3]
      ∃ stats, run.ending = .finished stats ∧ stats.status = .convergedGradient ∧
        stats.outer = 4 ∧ stats.inner = inner ∧ stats.iterations = iterations ∧ ∃ answers rs,
          Answers (solver count) problem .default () jacobian #[3] answers ∧
          Chronicle .default (Vec.dot #[3] #[3]) answers rs run.events stats := by
  intro solver problem jacobian count inner iterations hcase run
  have hcases : (count = 1 ∧ inner = 6 ∧ iterations = 10) ∨
      (count = 2 ^ 64 - 2 ∧ inner = 3 ∧ iterations = 7) := by simpa using hcase
  have hrun : (run.ending.stats?.any fun stats => decide
      (stats.status = .convergedGradient ∧ stats.outer = 4 ∧ stats.inner = inner ∧
        stats.iterations = iterations)) = true := by
    rcases hcases with ⟨rfl, rfl, rfl⟩ | ⟨rfl, rfl, rfl⟩ <;> decide +kernel
  obtain ⟨stats, hstats, h⟩ := Ending.exists_of_any hrun
  obtain ⟨hstatus, houter, hinner, hiterations⟩ := of_decide_eq_true h
  obtain ⟨p', r, answers, rs, evaluates, hanswers, chronicle⟩ := solve_reports.1 stats hstats
  obtain rfl : #[3] = r := (Prod.mk.inj (Outcome.done.inj evaluates)).2
  exact ⟨stats, hstats, hstatus, houter, hinner, hiterations, answers, rs, hanswers, chronicle⟩

end LeastSquares.Marquardt
