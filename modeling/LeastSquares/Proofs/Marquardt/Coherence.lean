import LeastSquares.Dense.Matrix
import LeastSquares.Double
import LeastSquares.Proofs.Marquardt.Run
import LeastSquares.Proofs.Marquardt.Script

/-!
# Levenberg–Marquardt: parameters and residuals belong together

Where the residuals are a function `F` of the parameters, the solve holds `F x` and its sum of
squares for exactly the `x` that its caller holds.  Which `x` that is can be read off the events:
it is the start until an iteration is reported as accepted, and then the point at which the
residuals were last asked for.
-/

namespace LeastSquares.Marquardt

variable {α S J P : Type}

/-- The parameters that are held and the ones that were last tried, after one more event. -/
def observe : Array α × Array α → Event α → Array α × Array α
  | (held, _), .residuals y => (held, y)
  | (held, tried), .report r => if r.accepted then (tried, tried) else (held, tried)
  | seen, _ => seen

def replay (x : Array α) (events : Array (Event α)) : Array α × Array α :=
  events.foldl observe (x, x)

theorem replay_push (x : Array α) (events : Array (Event α)) (e : Event α) :
    replay x (events.push e) = observe (replay x events) e := by
  simp [replay]

theorem replay_records (x : Array α) (events : Array (Event α)) (log : List (Log.Record α)) :
    replay x (events ++ (log.map Event.record).toArray) = replay x events := by
  unfold replay
  rw [Array.foldl_append, List.foldl_toArray]
  -- A record is neither a question for residuals nor a report.
  induction log with
  | nil => rfl
  | cons r log ih => exact ih

variable [Scalar α]

/-- The state holds the residuals of its parameters, and the parameters that its events tell. -/
structure State.Coherent (F : Array α → Array α) (nrows ncols : Nat) (x₀ : Array α)
    (s : State α S J P) : Prop where
  residuals : s.buffers.residuals = F s.x
  residual : s.residual = Vec.dot (F s.x) (F s.x)
  size_x : s.x.size = ncols
  size_trialResiduals : s.buffers.trialResiduals.size = nrows
  size_trialPoint : s.buffers.trialPoint.size = ncols
  held : (replay x₀ s.events).1 = s.x

/-- The residuals callback writes the same function of the parameters into every buffer of the
right length. -/
def Problem.Writes (problem : Problem α J P) (F : Array α → Array α) (nrows ncols : Nat) : Prop :=
  (∀ y : Array α, y.size = ncols → (F y).size = nrows) ∧
    ∀ p y out p' r, y.size = ncols → out.size = nrows →
      problem.residuals p y out = .done (p', r) → r = F y

variable {F : Array α → Array α} {nrows ncols : Nat} {x₀ : Array α}
  {problem : Problem α J P} {o : Options α} {s a t : State α S J P} {inner : Nat}

theorem State.Coherent.rejected (hs : s.Coherent F nrows ncols x₀) (h : ¬ s.Accepts o) :
    ((s.reported o inner).reject o).Coherent F nrows ncols x₀ := by
  refine ⟨hs.residuals, hs.residual, hs.size_x, hs.size_trialResiduals, hs.size_trialPoint, ?_⟩
  simpa [State.reported, State.reject, State.note, State.verdict, replay_push, observe, h]
    using hs.held

theorem State.Coherent.accepted (hF : problem.Writes F nrows ncols)
    (hs : s.Coherent F nrows ncols x₀)
    (hr : s.buffers.trialResiduals = F s.buffers.trialPoint)
    (htried : (replay x₀ s.events).2 = s.buffers.trialPoint) (h : s.Accepts o) :
    ((s.reported o inner).accept o s.ratio s.trial).Coherent F nrows ncols x₀ := by
  refine ⟨hr, ?_, hs.size_trialPoint, ?_, hs.size_trialPoint, ?_⟩
  · simp [State.accept, State.reported, State.note, State.trial, hr]
  · simpa [State.accept, State.reported, State.note, hs.residuals] using hF.1 _ hs.size_x
  · simpa [State.reported, State.accept, State.note, State.verdict, replay_push, observe, h]
      using htried

theorem State.Coherent.skipStep (hs : s.Coherent F nrows ncols x₀) :
    (s.skipStep o).Coherent F nrows ncols x₀ := by
  refine ⟨hs.residuals, hs.residual, hs.size_x, hs.size_trialResiduals, hs.size_trialPoint, ?_⟩
  simpa [State.skipStep, State.reject, State.note, replay_push, observe] using hs.held

variable [LinearOperator J α] [StepSolver S J α]

theorem Asks.replay_eq {answer : Option Nat} (h : Asks problem o s a answer) (x₀ : Array α) :
    replay x₀ a.events = replay x₀ s.events := by
  obtain ⟨r, hr, ha⟩ := h
  obtain ⟨answer, -, -, rfl⟩ := State.askStep_done ha
  rcases State.refresh_done hr with ⟨-, rfl⟩ | ⟨-, p, j, squares, -, -, rfl⟩ <;>
    simp only [State.note, State.noteAll, replay_records, replay_push, observe]

theorem Judges.replay_eq (h : Judges problem o s inner t) (x₀ : Array α) :
    replay x₀ t.events = ((replay x₀ s.events).1, t.buffers.trialPoint) := by
  obtain ⟨asks, -, predicts, tries⟩ := h
  obtain ⟨predicted, -, rfl⟩ := State.predict_done predicts
  obtain ⟨p, r, -, rfl⟩ := State.evaluateTrial_done tries
  simp only [State.note, replay_push, observe, asks.replay_eq x₀]

theorem held_of_iterate (h : (s.iterate problem o).state? = some t)
    (hs : (replay x₀ s.events).1 = s.x) : (replay x₀ t.events).1 = t.x := by
  rcases of_iterate h with ⟨a, asks, rfl⟩ | ⟨a, inner, asks, -, rfl⟩ |
    ⟨inner, j, judges, hacc, rfl⟩ | ⟨inner, j, judges, hacc, rfl⟩
  · simp only [State.skipStep, State.reject, State.note, replay_push, observe,
      Bool.false_eq_true, if_false, asks.replay_eq x₀, hs, asks.frame.1]
  · simp only [asks.replay_eq x₀, hs, asks.frame.1]
  · simp only [State.accept, State.reported, State.verdict, State.note, replay_push, observe,
      hacc, decide_true, if_true, judges.replay_eq x₀]
  · simp only [State.reject, State.reported, State.verdict, State.note, replay_push, observe,
      hacc, decide_false, Bool.false_eq_true, if_false, judges.replay_eq x₀, hs, judges.frame.1]

theorem State.Coherent.asks {answer : Option Nat} (hs : s.Coherent F nrows ncols x₀)
    (h : Asks problem o s a answer) : a.Coherent F nrows ncols x₀ ∧ a.x = s.x := by
  have held : (replay x₀ a.events).1 = s.x := (congrArg Prod.fst (h.replay_eq x₀)).trans hs.held
  obtain ⟨r, hr, ha⟩ := h
  obtain ⟨answer, -, -, rfl⟩ := State.askStep_done ha
  rcases State.refresh_done hr with ⟨-, rfl⟩ | ⟨-, p, j, squares, -, -, rfl⟩ <;>
    exact ⟨⟨hs.residuals, hs.residual, hs.size_x, hs.size_trialResiduals, hs.size_trialPoint,
      held⟩, rfl⟩

theorem State.Coherent.judges (hF : problem.Writes F nrows ncols)
    (hs : s.Coherent F nrows ncols x₀) (h : Judges problem o s inner t) :
    t.Coherent F nrows ncols x₀ ∧ t.x = s.x ∧
      t.buffers.trialResiduals = F t.buffers.trialPoint ∧
      (replay x₀ t.events).2 = t.buffers.trialPoint := by
  have hreplay := h.replay_eq x₀
  obtain ⟨asks, -, predicts, tries⟩ := h
  obtain ⟨ha, hx⟩ := hs.asks asks
  obtain ⟨predicted, -, rfl⟩ := State.predict_done predicts
  obtain ⟨p, r, hr, rfl⟩ := State.evaluateTrial_done tries
  have hsize : (State.candidate _).size = ncols :=
    (State.size_candidate _).trans ha.size_trialPoint
  have hrF : r = F _ := hF.2 _ _ _ _ _ hsize ha.size_trialResiduals hr
  refine ⟨⟨ha.residuals, ha.residual, ha.size_x, ?_, hsize, ?_⟩, hx, hrF, ?_⟩
  · exact hrF ▸ hF.1 _ hsize
  · exact (congrArg Prod.fst hreplay).trans (hs.held.trans hx.symm)
  · exact congrArg Prod.snd hreplay

/-- An iteration keeps the coherence.  An accepted one takes its trial point, and any other leaves
the parameters as they were. -/
theorem State.Coherent.iterate (hF : problem.Writes F nrows ncols)
    (hs : s.Coherent F nrows ncols x₀) (h : (s.iterate problem o).state? = some t) :
    t.Coherent F nrows ncols x₀ ∧
      (∀ inner j, Judges problem o s inner j → j.Accepts o → t.x = j.buffers.trialPoint) ∧
      ((∀ inner j, Judges problem o s inner j → ¬ j.Accepts o) → t.x = s.x) := by
  have taken : ∀ inner j, Judges problem o s inner j → j.Accepts o →
      t.x = j.buffers.trialPoint := by
    intro inner j judges hacc
    rw [judges.iterate_eq, State.state?_judge_of_accepts hacc] at h
    cases h
    rfl
  suffices t.Coherent F nrows ncols x₀ ∧
      ((∀ inner j, Judges problem o s inner j → ¬ j.Accepts o) → t.x = s.x) from
    ⟨this.1, taken, this.2⟩
  rcases of_iterate h with ⟨a, asks, rfl⟩ | ⟨a, inner, asks, -, rfl⟩ |
    ⟨inner, j, judges, hacc, rfl⟩ | ⟨inner, j, judges, hacc, rfl⟩
  · obtain ⟨ha, hx⟩ := hs.asks asks
    exact ⟨ha.skipStep, fun _ => hx⟩
  · obtain ⟨ha, hx⟩ := hs.asks asks
    exact ⟨⟨ha.residuals, ha.residual, ha.size_x, ha.size_trialResiduals, ha.size_trialPoint,
      ha.held⟩, fun _ => hx⟩
  · obtain ⟨hj, -, hr, htried⟩ := hs.judges hF judges
    exact ⟨hj.accepted hF hr htried hacc, fun hrej => absurd hacc (hrej _ _ judges)⟩
  · obtain ⟨hj, hx, -, -⟩ := hs.judges hF judges
    exact ⟨hj.rejected hacc, fun _ => hx⟩

section Solves

variable {solver : Solver α S} {p : P} {jacobian : J} {x : Array α}

theorem held_of_head {k : Nat} (head : Head solver problem o p jacobian x k s) :
    (replay x s.events).1 = s.x := by
  induction head with
  | first => rfl
  | next _ _ _ goes ih => exact held_of_iterate (congrArg Step.state? goes) ih

theorem held_of_exit {status : Status} (exit : Exit solver problem o p jacobian x t status) :
    (replay x t.events).1 = t.x := by
  cases exit with
  | failure => rfl
  | limit head => exact held_of_head head
  | zero head => exact held_of_head head
  | stopped head _ _ stops =>
    exact held_of_iterate (congrArg Step.state? stops) (held_of_head head)

theorem coherent_evaluated (o : Options α)
    (hsolver : solver.buffers.Sized solver.nrows solver.ncols)
    (hF : problem.Writes F solver.nrows solver.ncols)
    (fits : solver.misfit? jacobian x = none) {p' : P} {r : Array α}
    (evaluates : problem.residuals p x solver.buffers.residuals = .done (p', r)) :
    (solver.evaluated o p jacobian x p' r).Coherent F solver.nrows solver.ncols x := by
  have hx := (Solver.misfit?_eq_none_iff.1 fits).1
  obtain rfl := hF.2 _ _ _ _ _ hx hsolver.residuals evaluates
  exact ⟨rfl, rfl, hx, hsolver.trialResiduals, hsolver.trialPoint, rfl⟩

theorem coherent_of_head (hsolver : solver.buffers.Sized solver.nrows solver.ncols)
    (hF : problem.Writes F solver.nrows solver.ncols) {k : Nat}
    (head : Head solver problem o p jacobian x k s) :
    s.Coherent F solver.nrows solver.ncols x := by
  induction head with
  | first fits evaluates => exact coherent_evaluated o hsolver hF fits evaluates
  | next _ _ _ goes ih => exact (ih.iterate hF (congrArg Step.state? goes)).1

theorem coherent_of_exit (hsolver : solver.buffers.Sized solver.nrows solver.ncols)
    (hF : problem.Writes F solver.nrows solver.ncols) {status : Status}
    (exit : Exit solver problem o p jacobian x t status) :
    t.Coherent F solver.nrows solver.ncols x := by
  cases exit with
  | failure fits evaluates =>
    have h := coherent_evaluated o hsolver hF fits evaluates
    exact ⟨h.residuals, h.residual, h.size_x, h.size_trialResiduals, h.size_trialPoint, h.held⟩
  | limit head => exact coherent_of_head hsolver hF head
  | zero head => exact coherent_of_head hsolver hF head
  | stopped head _ _ stops =>
    exact ((coherent_of_head hsolver hF head).iterate hF (congrArg Step.state? stops)).1

/-- The solve holds the residuals of its parameters at every loop head and at its end, and its
parameters are the start or the trial point that was accepted last. -/
theorem solve_coherent (hsolver : solver.buffers.Sized solver.nrows solver.ncols)
    (hF : problem.Writes F solver.nrows solver.ncols) :
    (∀ k s, Head solver problem o p jacobian x k s →
      s.buffers.residuals = F s.x ∧ s.residual = Vec.dot (F s.x) (F s.x) ∧
        s.x = (replay x s.events).1 ∧
        ∀ t, (s.iterate problem o).state? = some t →
          (∀ inner j, Judges problem o s inner j → j.Accepts o → t.x = j.buffers.trialPoint) ∧
          ((∀ inner j, Judges problem o s inner j → ¬ j.Accepts o) → t.x = s.x)) ∧
    (∀ stats, (solver.solve problem o p jacobian x).ending = .finished stats →
      let run := solver.solve problem o p jacobian x
      run.solver.buffers.residuals = F run.x ∧ stats.residual = Vec.dot (F run.x) (F run.x) ∧
        run.x = (replay x run.events).1) := by
  constructor
  · intro k s head
    have hs := coherent_of_head hsolver hF head
    exact ⟨hs.residuals, hs.residual, hs.held.symm, fun t ht => (hs.iterate hF ht).2⟩
  · intro stats h
    obtain ⟨t, status, exit, rfl, hrun⟩ := exit_of_finished h
    have ht := coherent_of_exit hsolver hF exit
    simp only [hrun, Solver.leave, replay_push, observe]
    exact ⟨ht.residuals, ht.residual, ht.held.symm⟩

end Solves

omit [Scalar α] in
theorem identityProblem_writes {J : Type} (n : Nat) :
    (identityProblem : Problem α J Unit).Writes id n n := by
  refine ⟨fun y hy => hy, fun p y out p' r _ _ h => ?_⟩
  exact (Prod.mk.inj (Outcome.done.inj h)).2.symm

/-- A solve that accepts a step, gets none, rejects one and ends on a zero step. -/
theorem solve_coherent_script :
    let solver := Script.solver 1 1 [some (#[-1], 3), none, some (#[5], 0), some (#[0], 1)]
    let problem : Problem Float (Dense.Matrix Float) Unit := identityProblem
    let run := solver.solve problem .default () (.ofFn 1 1 fun _ _ => 1) #[3]
    solver.buffers.Sized solver.nrows solver.ncols ∧
      problem.Writes id solver.nrows solver.ncols ∧
      ∃ stats, run.ending = .finished stats ∧ stats.status = .convergedGradient ∧
        run.solver.buffers.residuals = run.x ∧ stats.residual = Vec.dot run.x run.x ∧
          run.x = (replay #[3] run.events).1 := by
  intro solver problem run
  have hsolver : solver.buffers.Sized solver.nrows solver.ncols := Buffers.sized_new 1 1
  have hF : problem.Writes id solver.nrows solver.ncols := identityProblem_writes 1
  have hrun : (run.ending.stats?.any fun stats =>
      decide (stats.status = .convergedGradient ∧ stats.outer = 4)) = true := by
    decide +kernel
  obtain ⟨stats, hstats, h⟩ := Ending.exists_of_any hrun
  exact ⟨hsolver, hF, stats, hstats, (of_decide_eq_true h).1,
    (solve_coherent hsolver hF).2 stats hstats⟩

end LeastSquares.Marquardt
