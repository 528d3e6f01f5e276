import Mathlib.Data.List.Forall2
import LeastSquares.Proofs.Marquardt.Run
import LeastSquares.Proofs.StepAnswer

/-!
# Levenberg–Marquardt: one solve in two coordinate systems

A chart says how the vectors of one solve read in another.  A solve only adds parameters, takes
inner products of residuals and hands vectors to the parts that it was given.  Where a chart
respects the former and the parts of two solves answer alike up to the chart, the solves go through
the same states up to the chart, but for what their buffers hold between two uses.  What each buffer
holds at a loop head either reads the same or is never read: the step, the prediction and the trial
are written again before they are used, and the column norms together with the Jacobian.

The inner iterations and the records of two step solvers need not be the same, and the step solvers
need not agree on all questions: a pairing says what the damping and the column norms of a question
are known to satisfy.
-/

namespace LeastSquares.Marquardt

variable {α S S' J J' P P' : Type}

/-- How one solve reads in another. -/
structure Chart (α : Type) where
  residuals : Array α → Array α
  parameters : Array α → Array α
  dtd : Array α → Array α
  stepInf : α → α → Prop
  counts : Nat → Nat → Prop := Eq
  /-- Whether the two solves have the same records. -/
  records : Bool := true

def Chart.identity : Chart α where
  residuals := id
  parameters := id
  dtd := id
  stepInf := Eq

/-- The solves differ in their vectors alone. -/
structure Chart.Faithful (χ : Chart α) : Prop where
  stepInf : χ.stepInf = Eq
  counts : χ.counts = Eq
  records : χ.records = true

theorem Chart.faithful_identity : (Chart.identity : Chart α).Faithful := ⟨rfl, rfl, rfl⟩

/-- How the parts of two solves are related. -/
structure Pairing (α S S' J J' P P' : Type) where
  stepSolver : S → S' → Prop
  layout : J → J' → Prop
  /-- The Jacobians after a callback has written them. -/
  written : J → J' → Prop
  problem : P → P' → Prop
  /-- Whether the residuals may depend on what their buffer held. -/
  looks : Prop
  /-- What is known of the damping of every question. -/
  damping : α → Prop := fun _ => True
  diagonal : Array α → Prop := fun _ => True

/-! ## What can be seen of a solve -/

inductive Event.Charted (χ : Chart α) : Event α → Event α → Prop
  | residuals (x : Array α) : Charted χ (.residuals x) (.residuals (χ.parameters x))
  | jacobian (x : Array α) : Charted χ (.jacobian x) (.jacobian (χ.parameters x))
  | step (f dtd : Array α) (lambda : α) :
      Charted χ (.step f dtd lambda) (.step (χ.residuals f) (χ.dtd dtd) lambda)
  | report (r : IterationReport α) {stepInf : α} {inner : Nat} (h : χ.stepInf r.stepInf stepInf)
      (counts : χ.counts r.inner inner) :
      Charted χ (.report r) (.report { r with stepInf := stepInf, inner := inner })
  | record (r : Log.Record α) : Charted χ (.record r) (.record r)
  | finished (stats : Stats α) {stepInf : α} {inner : Nat} (h : χ.stepInf stats.stepInf stepInf)
      (counts : χ.counts stats.inner inner) :
      Charted χ (.finished stats) (.finished { stats with stepInf := stepInf, inner := inner })

inductive Ending.Charted (χ : Chart α) : Ending α → Ending α → Prop
  | refused (e : ShapeError) : Charted χ (.refused e) (.refused e)
  | finished (stats : Stats α) {stepInf : α} {inner : Nat} (h : χ.stepInf stats.stepInf stepInf)
      (counts : χ.counts stats.inner inner) :
      Charted χ (.finished stats) (.finished { stats with stepInf := stepInf, inner := inner })
  | brokenOff : Charted χ .brokenOff .brokenOff

/-- What the events of a solve read as, where the step lengths are the same. -/
def Event.read (χ : Chart α) : Event α → Event α
  | .residuals x => .residuals (χ.parameters x)
  | .jacobian x => .jacobian (χ.parameters x)
  | .step f dtd lambda => .step (χ.residuals f) (χ.dtd dtd) lambda
  | e => e

variable {χ : Chart α}

theorem Event.Charted.eq_read (hχ : χ.Faithful) {e e' : Event α} (h : e.Charted χ e') :
    e' = e.read χ := by
  cases h with
  | residuals | jacobian | step | record => rfl
  | report r h counts | finished stats h counts =>
    rw [hχ.stepInf] at h
    rw [hχ.counts] at counts
    subst h counts
    rfl

theorem Event.read_identity (e : Event α) : e.read .identity = e := by
  cases e <;> rfl

theorem Ending.Charted.eq (hχ : χ.Faithful) {e e' : Ending α} (h : e.Charted χ e') :
    e' = e := by
  cases h with
  | refused | brokenOff => rfl
  | finished stats h counts =>
    rw [hχ.stepInf] at h
    rw [hχ.counts] at counts
    subst h counts
    rfl

def Event.isRecord : Event α → Bool
  | .record _ => true
  | .residuals _ | .jacobian _ | .step .. | .report _ | .finished _ => false

theorem Event.Charted.isRecord_eq {e e' : Event α} (h : e.Charted χ e') :
    e'.isRecord = e.isRecord := by
  cases h <;> rfl

/-- The events that two solves have in common: all of them, or all but the records. -/
def Chart.common (χ : Chart α) (events : Array (Event α)) : List (Event α) :=
  events.toList.filter fun e => χ.records || !e.isRecord

def EventsCharted (χ : Chart α) (events events' : Array (Event α)) : Prop :=
  List.Forall₂ (Event.Charted χ) (χ.common events) (χ.common events')

theorem Chart.common_append (events events' : Array (Event α)) :
    χ.common (events ++ events') = χ.common events ++ χ.common events' := by
  simp [common]

theorem Chart.common_of_records (h : χ.records = true) (events : Array (Event α)) :
    χ.common events = events.toList := by
  simp [common, h]

theorem Chart.common_records (h : χ.records = false) (log : List (Log.Record α)) :
    χ.common (log.map Event.record).toArray = [] := by
  simp [common, h, Event.isRecord]

namespace EventsCharted

variable {events events' : Array (Event α)}

theorem append (h : EventsCharted χ events events') {further further' : Array (Event α)}
    (hfurther : EventsCharted χ further further') :
    EventsCharted χ (events ++ further) (events' ++ further') := by
  unfold EventsCharted
  rw [Chart.common_append, Chart.common_append]
  exact List.rel_append h hfurther

theorem singleton {e e' : Event α} (h : e.Charted χ e') : EventsCharted χ #[e] #[e'] := by
  unfold EventsCharted Chart.common
  rw [List.filter_singleton, List.filter_singleton, h.isRecord_eq]
  cases χ.records || !e.isRecord with
  | true => exact .cons h .nil
  | false => exact .nil

theorem push (h : EventsCharted χ events events') {e e' : Event α} (he : e.Charted χ e') :
    EventsCharted χ (events.push e) (events'.push e') := by
  rw [Array.push_eq_append, Array.push_eq_append]
  exact h.append (.singleton he)

theorem append_records (h : EventsCharted χ events events') {log log' : List (Log.Record α)}
    (hlog : χ.records = true → log' = log) :
    EventsCharted χ (events ++ (log.map Event.record).toArray)
      (events' ++ (log'.map Event.record).toArray) := by
  refine h.append ?_
  unfold EventsCharted
  cases hrecords : χ.records with
  | true =>
    rw [hlog hrecords, Chart.common_of_records hrecords]
    refine List.forall₂_same.2 fun e he => ?_
    obtain ⟨r, -, rfl⟩ := List.mem_map.1 he
    exact .record r
  | false =>
    rw [Chart.common_records hrecords, Chart.common_records hrecords]
    exact .nil

theorem eq_map (hχ : χ.Faithful) (h : EventsCharted χ events events') :
    events' = events.map (Event.read χ) := by
  unfold EventsCharted at h
  rw [Chart.common_of_records hχ.records, Chart.common_of_records hχ.records] at h
  apply Array.ext'
  rw [Array.toList_map, ← List.forall₂_eq_eq_eq, List.forall₂_map_right_iff]
  exact h.flip.imp fun _ _ he => he.eq_read hχ

end EventsCharted

variable [Scalar α]

/-! ## The parts of two solves -/

/-- A chart that respects what a solve does with vectors of `m` residuals and `n` parameters. -/
structure Chart.Lawful (m n : Nat) (o : Options α) (χ : Chart α) : Prop where
  size_residuals : ∀ {f : Array α}, f.size = m → (χ.residuals f).size = m
  size_parameters : ∀ {x : Array α}, x.size = n → (χ.parameters x).size = n
  size_dtd : ∀ {dtd : Array α}, dtd.size = n → (χ.dtd dtd).size = n
  dot : ∀ {f : Array α}, f.size = m →
    Vec.dot (χ.residuals f) (χ.residuals f) = Vec.dot f f
  move : ∀ {x p : Array α}, x.size = n → p.size = n →
    ((χ.parameters x).zip (χ.parameters p)).map (fun xp => xp.1 + xp.2) =
      χ.parameters ((x.zip p).map fun xp => xp.1 + xp.2)
  rests : ∀ {p : Array α}, p.size = n → (χ.parameters p).all (· == 0) = p.all (· == 0)
  stepInf : ∀ {p : Array α}, p.size = n → χ.stepInf (Vec.maxAbs p) (Vec.maxAbs (χ.parameters p))
  stepInf_zero : χ.stepInf 0 0
  stepInf_infinity : χ.stepInf Scalar.infinity Scalar.infinity
  small : ∀ {a b : α}, χ.stepInf a b → (b < o.tol ↔ a < o.tol)
  counts_zero : χ.counts 0 0
  counts_add : ∀ {a a' b b' : Nat}, χ.counts a a' → χ.counts b b' →
    χ.counts (addCounts a b) (addCounts a' b')

theorem Chart.lawful_identity (m n : Nat) (o : Options α) : Chart.identity.Lawful m n o := by
  constructor <;> simp +contextual [Chart.identity]

/-- What a pairing knows of the damping and the column norms holds at the start of a solve, and a
solve keeps it. -/
structure Pairing.Kept (n : Nat) (o : Options α) (ρ : Pairing α S S' J J' P P') : Prop where
  clamped : ρ.damping (State.clamped o o.lambdaInit)
  raised : ∀ {lambda : α}, ρ.damping lambda → ρ.damping (State.raised o lambda)
  lowered : ∀ {lambda : α}, ρ.damping lambda → ρ.damping (State.lowered o lambda)
  diagonal : ∀ {squares : Array α}, squares.size = n →
    ρ.diagonal (squares.map fun d => Scalar.max d o.minDiagonal)

theorem Pairing.Kept.of_forall {ρ : Pairing α S S' J J' P P'} (hdamping : ∀ lambda, ρ.damping lambda)
    (hdiagonal : ∀ dtd, ρ.diagonal dtd) (n : Nat) (o : Options α) : ρ.Kept n o where
  clamped := hdamping _
  raised _ := hdamping _
  lowered _ := hdamping _
  diagonal _ := hdiagonal _

structure Chart.Answers (χ : Chart α) (n : Nat) (R : S → S' → Prop) (r : StepAnswer S α)
    (r' : StepAnswer S' α) : Prop where
  solver : R r.solver r'.solver
  inner : Option.Rel χ.counts r.inner r'.inner
  log : χ.records = true → r'.log = r.log
  size : r.step.size = n
  size' : r'.step.size = n
  step : r.inner.isSome = true → r'.step = χ.parameters r.step

omit [Scalar α] in
theorem Chart.Answers.of_charted {n : Nat} {R : S → S' → Prop} {r : StepAnswer S α}
    {r' : StepAnswer S' α} (hcounts : ∀ count, χ.counts count count)
    (h : r.Charted n χ.parameters R r') : χ.Answers n R r r' where
  solver := h.solver
  inner := by
    rw [h.inner]
    cases r.inner with
    | none => exact .none
    | some count => exact .some (hcounts count)
  log _ := h.log
  size := h.size
  size' := h.size'
  step := h.step

/-- Callbacks, Jacobians and step solvers that answer alike up to a chart. -/
structure Coordinated [LinearOperator J α] [LinearOperator J' α] [StepSolver S J α]
    [StepSolver S' J' α] (m n : Nat) (o : Options α) (χ : Chart α) (ρ : Pairing α S S' J J' P P')
    (problem : Problem α J P) (problem' : Problem α J' P') : Prop where
  lawful : χ.Lawful m n o
  kept : ρ.Kept n o
  residuals : ∀ {p q} (y out out' : Array α), ρ.problem p q → y.size = n → out.size = m →
    out'.size = m → (ρ.looks → out' = χ.residuals out) →
    Outcome.Alike (fun a b => ρ.problem a.1 b.1 ∧ b.2 = χ.residuals a.2 ∧ a.2.size = m)
      (fun _ _ => True) (problem.residuals p y out) (problem'.residuals q (χ.parameters y) out')
  jacobian : ∀ {p q} (y : Array α) {j j'}, ρ.problem p q → y.size = n → ρ.layout j j' →
    Outcome.Alike (fun a b => ρ.problem a.1 b.1 ∧ ρ.written a.2 b.2) (fun _ _ => True)
      (problem.jacobian p y j) (problem'.jacobian q (χ.parameters y) j')
  layout : ∀ {j j'}, ρ.written j j' → ρ.layout j j'
  columnSquares : ∀ {j j'} (out out' : Array α), ρ.written j j' → out.size = n → out'.size = n →
    Outcome.Alike
      (fun r r' => r.size = n ∧ (r'.map fun d => Scalar.max d o.minDiagonal) =
        χ.dtd (r.map fun d => Scalar.max d o.minDiagonal))
      (fun _ _ => True) (LinearOperator.columnSquares j out) (LinearOperator.columnSquares j' out')
  predict : ∀ {j j'} (p f : Array α), ρ.written j j' → p.size = n → f.size = m →
    Outcome.Alike (fun r r' => r' = χ.residuals r ∧ r.size = m) (fun _ _ => True)
      (LinearOperator.apply j 1 p 1 f)
      (LinearOperator.apply j' 1 (χ.parameters p) 1 (χ.residuals f))
  solveStep : ∀ {s s' j j'} (f dtd : Array α) (lambda : α) (step step' : Array α),
    ρ.stepSolver s s' → ρ.written j j' → f.size = m → dtd.size = n → step.size = n →
    step'.size = n → ρ.diagonal dtd → ρ.damping lambda →
    Outcome.Alike (χ.Answers n ρ.stepSolver)
      (fun r r' => χ.records = true → r'.log = r.log)
      (StepSolver.solveStep s j f dtd lambda step)
      (StepSolver.solveStep s' j' (χ.residuals f) (χ.dtd dtd) lambda step')

structure State.Shows (χ : Chart α) (s : State α S J P) (t : State α S' J' P') : Prop where
  x : t.x = χ.parameters s.x
  residual : t.residual = s.residual
  lambda : t.lambda = s.lambda
  outer : t.outer = s.outer
  inner : χ.counts s.inner t.inner
  stepInf : χ.stepInf s.stepInf t.stepInf
  events : EventsCharted χ s.events t.events

structure State.Charted (m n : Nat) (χ : Chart α) (ρ : Pairing α S S' J J' P P') (s : State α S J P)
    (t : State α S' J' P') : Prop extends s.Shows χ t where
  size_x : s.x.size = n
  residuals : t.buffers.residuals = χ.residuals s.buffers.residuals
  trialResiduals : ρ.looks → t.buffers.trialResiduals = χ.residuals s.buffers.trialResiduals
  sized : s.buffers.Sized m n
  sized' : t.buffers.Sized m n
  problem : ρ.problem s.problem t.problem
  stepSolver : ρ.stepSolver s.stepSolver t.stepSolver
  stale : t.stale = s.stale
  jacobian : ρ.layout s.jacobian t.jacobian
  damping : ρ.damping s.lambda
  fresh : s.stale = false → ρ.written s.jacobian t.jacobian ∧
    t.buffers.dtd = χ.dtd s.buffers.dtd ∧ ρ.diagonal s.buffers.dtd

inductive Step.Charted (m n : Nat) (χ : Chart α) (ρ : Pairing α S S' J J' P P') :
    Step α S J P → Step α S' J' P' → Prop
  | next {s : State α S J P} {t : State α S' J' P'} (h : s.Charted m n χ ρ t) :
      Charted m n χ ρ (.next s) (.next t)
  | stop {s : State α S J P} {t : State α S' J' P'} (status : Status)
      (h : s.Charted m n χ ρ t) : Charted m n χ ρ (.stop s status) (.stop t status)
  | brokenOff {s : State α S J P} {t : State α S' J' P'} (h : s.Shows χ t) :
      Charted m n χ ρ (.brokenOff s) (.brokenOff t)

variable {m n : Nat} {ρ : Pairing α S S' J J' P P'} {problem : Problem α J P}
  {problem' : Problem α J' P'} {o : Options α} {s : State α S J P} {t : State α S' J' P'}

/-! ## The verdict -/

namespace State.Charted

section Verdict

variable (hχ : χ.Lawful m n o)

include hχ

theorem candidate_eq (h : s.Charted m n χ ρ t)
    (hstep : t.buffers.step = χ.parameters s.buffers.step) :
    Vec.zipUpdate (fun _ (xp : α × α) => xp.1 + xp.2) t.buffers.trialPoint
        (t.x.zip t.buffers.step) =
      χ.parameters (Vec.zipUpdate (fun _ xp => xp.1 + xp.2) s.buffers.trialPoint
        (s.x.zip s.buffers.step)) := by
  have hsize : (s.x.zip s.buffers.step).size = n := by simp [h.size_x, h.sized.step]
  have hsize' : (t.x.zip t.buffers.step).size = n := by
    simp [h.x, hχ.size_parameters h.size_x, h.sized'.step]
  rw [Vec.zipUpdate_overwrite _ (h.sized.trialPoint.trans hsize.symm),
    Vec.zipUpdate_overwrite _ (h.sized'.trialPoint.trans hsize'.symm), h.x, hstep,
    hχ.move h.size_x h.sized.step]

omit hχ in
theorem reported (h : s.Charted m n χ ρ t) {inner inner' : Nat} (hinner : χ.counts inner inner')
    (htrial : t.trial = s.trial) (hratio : t.ratio = s.ratio) :
    (s.reported o inner).Charted m n χ ρ (t.reported o inner') := by
  have haccepts : t.Accepts o ↔ s.Accepts o := by rw [State.Accepts, State.Accepts, hratio]
  have hverdict : t.verdict o inner' =
      { s.verdict o inner with stepInf := t.stepInf, inner := inner' } := by
    simp only [State.verdict, IterationReport.mk.injEq, h.outer, h.residual, htrial, hratio,
      h.lambda, true_and]
    exact decide_eq_decide.2 haccepts
  have hevents : EventsCharted χ (s.reported o inner).events (t.reported o inner').events := by
    simp only [State.reported, State.note, hverdict, h.outer, h.residual, htrial, hratio, h.lambda]
    exact (h.events.push (.report _ h.stepInf hinner)).push (.record _)
  exact { h with events := hevents }

omit hχ in
theorem accept (hρ : ρ.Kept n o) (h : s.Charted m n χ ρ t)
    (hpoint : t.buffers.trialPoint = χ.parameters s.buffers.trialPoint)
    (hresiduals : t.buffers.trialResiduals = χ.residuals s.buffers.trialResiduals)
    (rho trial : α) : (s.accept o rho trial).Charted m n χ ρ (t.accept o rho trial) where
  x := hpoint
  residual := rfl
  outer := h.outer
  inner := h.inner
  stepInf := h.stepInf
  lambda := by simp only [State.accept, h.lambda]
  events := h.events
  size_x := h.sized.trialPoint
  residuals := hresiduals
  trialResiduals := fun _ => h.residuals
  sized := { h.sized with
    residuals := h.sized.trialResiduals
    trialResiduals := h.sized.residuals }
  sized' := { h.sized' with
    residuals := h.sized'.trialResiduals
    trialResiduals := h.sized'.residuals }
  problem := h.problem
  stepSolver := h.stepSolver
  stale := rfl
  jacobian := h.jacobian
  damping := by
    simp only [State.accept]
    split
    · exact hρ.lowered h.damping
    · exact h.damping
  fresh := by rintro ⟨⟩

omit hχ in
theorem reject (hρ : ρ.Kept n o) (h : s.Charted m n χ ρ t) :
    (s.reject o).Charted m n χ ρ (t.reject o) :=
  { h with
    lambda := by simp only [State.reject, h.lambda]
    damping := hρ.raised h.damping }

theorem judge (hρ : ρ.Kept n o) (h : s.Charted m n χ ρ t) {inner inner' : Nat}
    (hinner : χ.counts inner inner')
    (hpredicted : t.buffers.predicted = χ.residuals s.buffers.predicted)
    (hpoint : t.buffers.trialPoint = χ.parameters s.buffers.trialPoint)
    (hresiduals : t.buffers.trialResiduals = χ.residuals s.buffers.trialResiduals) :
    Step.Charted m n χ ρ (s.judge o inner) (t.judge o inner') := by
  have htrial : t.trial = s.trial := by
    rw [State.trial, State.trial, hresiduals, hχ.dot h.sized.trialResiduals]
  have hratio : t.ratio = s.ratio := by
    rw [State.ratio, State.ratio, h.residual, htrial, State.predicted, State.predicted, hpredicted,
      hχ.dot h.sized.predicted]
  -- One gain ratio, so both accept the trial point or both reject it.
  have haccepts : t.Accepts o ↔ s.Accepts o := by rw [State.Accepts, State.Accepts, hratio]
  have hreported := h.reported (o := o) hinner htrial hratio
  rw [State.judge_eq, State.judge_eq, hratio, htrial, if_congr (hχ.small h.stepInf) rfl rfl]
  by_cases hacc : s.Accepts o
  · have haccepted := hreported.accept hρ hpoint hresiduals s.ratio s.trial
    rw [if_pos hacc, if_pos (haccepts.2 hacc)]
    split
    · exact .stop _ haccepted
    · exact .next haccepted
  · rw [if_neg hacc, if_neg fun hacc' => hacc (haccepts.1 hacc')]
    exact .next (hreported.reject hρ)

theorem skipStep (hρ : ρ.Kept n o) (h : s.Charted m n χ ρ t) :
    (s.skipStep o).Charted m n χ ρ (t.skipStep o) := by
  have hevents : EventsCharted χ (s.skipStep o).events (t.skipStep o).events := by
    simp only [State.skipStep, State.reject, State.note, h.outer, h.residual, h.lambda]
    exact h.events.push (.report _ hχ.stepInf_zero hχ.counts_zero)
  exact { h.reject hρ with events := hevents }

end Verdict

/-! ## The parts of an iteration -/

variable [LinearOperator J α] [LinearOperator J' α] [StepSolver S J α] [StepSolver S' J' α]
  (hside : Coordinated m n o χ ρ problem problem')

include hside

theorem refresh (h : s.Charted m n χ ρ t) :
    Outcome.Alike (fun a b => a.Charted m n χ ρ b ∧ a.stale = false) (fun a b => a.Shows χ b)
      (s.refresh problem o) (t.refresh problem' o) := by
  unfold State.refresh
  rw [h.stale]
  cases hstale : s.stale with
  | false => exact .done ⟨h, hstale⟩
  | true =>
    have hevents : EventsCharted χ (s.events.push (.jacobian s.x))
        (t.events.push (.jacobian (χ.parameters s.x))) := h.events.push (.jacobian _)
    have hcall := hside.jacobian s.x h.problem h.size_x h.jacobian
    simp only [if_true, State.note]
    rw [h.x]
    generalize problem.jacobian s.problem s.x s.jacobian = a at hcall ⊢
    generalize problem'.jacobian t.problem (χ.parameters s.x) t.jacobian = b at hcall ⊢
    cases hcall with
    | brokenOff =>
      exact .brokenOff ⟨rfl, h.residual, h.lambda, h.outer, h.inner, h.stepInf, hevents⟩
    | @done a b hab =>
      obtain ⟨p, j⟩ := a
      obtain ⟨q, j'⟩ := b
      obtain ⟨hproblem, hq⟩ := hab
      have hsquares := hside.columnSquares s.buffers.dtd t.buffers.dtd hq h.sized.dtd h.sized'.dtd
      dsimp only
      generalize LinearOperator.columnSquares j s.buffers.dtd = a at hsquares ⊢
      generalize LinearOperator.columnSquares j' t.buffers.dtd = b at hsquares ⊢
      cases hsquares with
      | brokenOff =>
        exact .brokenOff ⟨rfl, h.residual, h.lambda, h.outer, h.inner, h.stepInf, hevents⟩
      | @done squares squares' hsq =>
        obtain ⟨hsize, hdtd⟩ := hsq
        have hsized : (squares.map fun d => Scalar.max d o.minDiagonal).size = n := by simpa
        refine .done ⟨?_, rfl⟩
        exact { h with
          x := rfl
          events := hevents
          sized := { h.sized with dtd := hsized }
          sized' := { h.sized' with dtd := by rw [hdtd, hside.lawful.size_dtd hsized] }
          problem := hproblem
          stale := rfl
          jacobian := hside.layout hq
          fresh := fun _ => ⟨hq, hdtd, hside.kept.diagonal hsize⟩ }

theorem askStep (h : s.Charted m n χ ρ t) (hstale : s.stale = false) :
    Outcome.Alike
      (fun a b => a.1.Charted m n χ ρ b.1 ∧ a.1.stale = false ∧ Option.Rel χ.counts a.2 b.2 ∧
        (a.2.isSome = true → b.1.buffers.step = χ.parameters a.1.buffers.step))
      (fun a b => a.1.Shows χ b.1) s.askStep t.askStep := by
  obtain ⟨hq, hdtd, hdiagonal⟩ := h.fresh hstale
  have hcall := hside.solveStep s.buffers.residuals s.buffers.dtd s.lambda s.buffers.step
    t.buffers.step h.stepSolver hq h.sized.residuals h.sized.dtd h.sized.step h.sized'.step
    hdiagonal h.damping
  have hargs : StepSolver.solveStep t.stepSolver t.jacobian t.buffers.residuals t.buffers.dtd
      t.lambda t.buffers.step = StepSolver.solveStep t.stepSolver t.jacobian
        (χ.residuals s.buffers.residuals) (χ.dtd s.buffers.dtd) s.lambda t.buffers.step := by
    rw [h.residuals, hdtd, h.lambda]
  have hevents : EventsCharted χ
      (s.events.push (.step s.buffers.residuals s.buffers.dtd s.lambda))
      (t.events.push (.step t.buffers.residuals t.buffers.dtd t.lambda)) := by
    rw [h.residuals, hdtd, h.lambda]
    exact h.events.push (.step _ _ _)
  unfold State.askStep
  dsimp only [State.note, State.noteAll]
  rw [hargs]
  generalize StepSolver.solveStep s.stepSolver s.jacobian s.buffers.residuals s.buffers.dtd s.lambda
    s.buffers.step = a at hcall ⊢
  generalize StepSolver.solveStep t.stepSolver t.jacobian (χ.residuals s.buffers.residuals)
    (χ.dtd s.buffers.dtd) s.lambda t.buffers.step = b at hcall ⊢
  cases hcall with
  | @brokenOff a b hlog =>
    exact .brokenOff ⟨h.x, h.residual, h.lambda, h.outer, h.inner, h.stepInf,
      hevents.append_records hlog⟩
  | @done a b ha =>
    refine .done ⟨?_, hstale, ha.inner, ha.step⟩
    exact { h with
      events := hevents.append_records ha.log
      sized := { h.sized with step := ha.size }
      sized' := { h.sized' with step := ha.size' }
      stepSolver := ha.solver }

theorem predict (h : s.Charted m n χ ρ t) (hstale : s.stale = false)
    (hstep : t.buffers.step = χ.parameters s.buffers.step) :
    Outcome.Alike
      (fun a b => a.Charted m n χ ρ b ∧ b.buffers.step = χ.parameters a.buffers.step ∧
        b.buffers.predicted = χ.residuals a.buffers.predicted)
      (fun a b => a.Shows χ b) s.predict t.predict := by
  have hcall := hside.predict s.buffers.step s.buffers.residuals (h.fresh hstale).1 h.sized.step
    h.sized.residuals
  unfold State.predict
  rw [hstep, h.residuals]
  generalize LinearOperator.apply s.jacobian 1 s.buffers.step 1 s.buffers.residuals = a at hcall ⊢
  generalize LinearOperator.apply t.jacobian 1 (χ.parameters s.buffers.step) 1
    (χ.residuals s.buffers.residuals) = b at hcall ⊢
  cases hcall with
  | brokenOff => exact .brokenOff ⟨h.x, h.residual, h.lambda, h.outer, h.inner, h.stepInf, h.events⟩
  | @done r r' hr =>
    obtain ⟨rfl, hsize⟩ := hr
    refine .done ⟨?_, hstep, rfl⟩
    exact { h with
      sized := { h.sized with predicted := hsize }
      sized' := { h.sized' with predicted := hside.lawful.size_residuals hsize } }

theorem evaluateTrial (h : s.Charted m n χ ρ t)
    (hstep : t.buffers.step = χ.parameters s.buffers.step)
    (hpredicted : t.buffers.predicted = χ.residuals s.buffers.predicted) :
    Outcome.Alike
      (fun a b => a.Charted m n χ ρ b ∧ b.buffers.predicted = χ.residuals a.buffers.predicted ∧
        b.buffers.trialPoint = χ.parameters a.buffers.trialPoint ∧
          b.buffers.trialResiduals = χ.residuals a.buffers.trialResiduals)
      (fun a b => a.Shows χ b) (s.evaluateTrial problem) (t.evaluateTrial problem') := by
  have hpoint := h.candidate_eq hside.lawful hstep
  unfold State.evaluateTrial
  dsimp only [State.note]
  rw [hpoint]
  generalize hcandidate : Vec.zipUpdate (fun _ (xp : α × α) => xp.1 + xp.2) s.buffers.trialPoint
    (s.x.zip s.buffers.step) = candidate
  have hsize : candidate.size = n := by
    rw [← hcandidate, Vec.size_zipUpdate]
    exact h.sized.trialPoint
  have hevents := h.events.push (.residuals candidate)
  have hcall := hside.residuals candidate s.buffers.trialResiduals t.buffers.trialResiduals
    h.problem hsize h.sized.trialResiduals h.sized'.trialResiduals h.trialResiduals
  generalize problem.residuals s.problem candidate s.buffers.trialResiduals = a at hcall ⊢
  generalize problem'.residuals t.problem (χ.parameters candidate) t.buffers.trialResiduals = b
    at hcall ⊢
  cases hcall with
  | brokenOff => exact .brokenOff ⟨h.x, h.residual, h.lambda, h.outer, h.inner, h.stepInf, hevents⟩
  | done hab =>
    obtain ⟨hproblem, htried, hsized⟩ := hab
    refine .done ⟨?_, hpredicted, rfl, htried⟩
    exact { h with
      events := hevents
      trialResiduals := fun _ => htried
      problem := hproblem
      sized := { h.sized with trialPoint := hsize, trialResiduals := hsized }
      sized' := { h.sized' with
        trialPoint := hside.lawful.size_parameters hsize
        trialResiduals := (congrArg Array.size htried).trans
          (hside.lawful.size_residuals hsized) } }

theorem tryStep (h : s.Charted m n χ ρ t) (hstale : s.stale = false)
    (hstep : t.buffers.step = χ.parameters s.buffers.step) {inner inner' : Nat}
    (hinner : χ.counts inner inner') :
    Step.Charted m n χ ρ (s.tryStep problem o inner) (t.tryStep problem' o inner') := by
  have hadd := hside.lawful.counts_add h.inner hinner
  simp only [State.tryStep]
  rw [hstep, hside.lawful.rests h.sized.step]
  split
  · exact .stop _ { h with inner := hadd, stepInf := hside.lawful.stepInf_zero }
  · have hmoved : State.Charted m n χ ρ
        { s with inner := addCounts s.inner inner, stepInf := Vec.maxAbs s.buffers.step }
        { t with
          inner := addCounts t.inner inner'
          stepInf := Vec.maxAbs (χ.parameters s.buffers.step) } :=
      { h with inner := hadd, stepInf := hside.lawful.stepInf h.sized.step }
    have hpredict := hmoved.predict hside hstale hstep
    generalize State.predict { s with
      inner := addCounts s.inner inner, stepInf := Vec.maxAbs s.buffers.step } = a at hpredict ⊢
    generalize State.predict { t with
      inner := addCounts t.inner inner'
      stepInf := Vec.maxAbs (χ.parameters s.buffers.step) } = b at hpredict ⊢
    cases hpredict with
    | brokenOff h => exact .brokenOff h
    | @done a b h =>
      obtain ⟨h, hstep, hpredicted⟩ := h
      have htrial := h.evaluateTrial hside hstep hpredicted
      dsimp only
      generalize a.evaluateTrial problem = a at htrial ⊢
      generalize b.evaluateTrial problem' = b at htrial ⊢
      cases htrial with
      | brokenOff h => exact .brokenOff h
      | done h => exact h.1.judge hside.lawful hside.kept hinner h.2.1 h.2.2.1 h.2.2.2

/-- An iteration keeps two solves together. -/
theorem iterate (h : s.Charted m n χ ρ t) :
    Step.Charted m n χ ρ (s.iterate problem o) (t.iterate problem' o) := by
  have hcounted : State.Charted m n χ ρ { s with outer := s.outer + 1 }
      { t with outer := t.outer + 1 } := { h with outer := congrArg (· + 1) h.outer }
  have hrefresh := hcounted.refresh hside
  unfold State.iterate
  generalize State.refresh problem o { s with outer := s.outer + 1 } = a at hrefresh ⊢
  generalize State.refresh problem' o { t with outer := t.outer + 1 } = b at hrefresh ⊢
  cases hrefresh with
  | brokenOff h => exact .brokenOff h
  | @done a b h =>
    have hask := h.1.askStep hside h.2
    dsimp only
    generalize a.askStep = a at hask ⊢
    generalize b.askStep = b at hask ⊢
    cases hask with
    | brokenOff h => exact .brokenOff h
    | @done a b h =>
      obtain ⟨a, inner⟩ := a
      obtain ⟨b, inner'⟩ := b
      obtain ⟨h, hstale, hinner, hstep⟩ := h
      cases hinner with
      -- What the buffers of the step hold now may differ, but the next call writes them first.
      | none => exact .next (h.skipStep hside.lawful hside.kept)
      | some hinner => exact h.tryStep hside hstale (hstep rfl) hinner

end State.Charted

/-! ## Whole solves -/

structure Solver.Alike (m n : Nat) (R : S → S' → Prop) (solver : Solver α S)
    (solver' : Solver α S') : Prop where
  nrows : solver.nrows = m
  nrows' : solver'.nrows = m
  ncols : solver.ncols = n
  ncols' : solver'.ncols = n
  sized : solver.buffers.Sized m n
  sized' : solver'.buffers.Sized m n
  stepSolver : R solver.stepSolver solver'.stepSolver

/-- Two solves that show the same up to a chart.  Unless they broke off, their solvers are alike
again. -/
structure Run.Charted (m n : Nat) (χ : Chart α) (R : S → S' → Prop) (run : Run α S J P)
    (run' : Run α S' J' P') : Prop where
  x : run'.x = χ.parameters run.x
  ending : run.ending.Charted χ run'.ending
  events : EventsCharted χ run.events run'.events
  solver : run.ending ≠ .brokenOff → run.solver.Alike m n R run'.solver

structure EndsCharted (m n : Nat) (χ : Chart α) (ρ : Pairing α S S' J J' P P')
    (a : State α S J P × Option Status) (b : State α S' J' P' × Option Status) : Prop where
  status : b.2 = a.2
  shows : a.1.Shows χ b.1
  charted : a.2.isSome = true → a.1.Charted m n χ ρ b.1

variable [LinearOperator J α] [LinearOperator J' α] [StepSolver S J α] [StepSolver S' J' α]

theorem iterations_charted (hside : Coordinated m n o χ ρ problem problem') (k : Nat)
    (h : s.Charted m n χ ρ t) :
    EndsCharted m n χ ρ (iterations problem o k s) (iterations problem' o k t) := by
  induction k generalizing s t with
  | zero => exact ⟨rfl, h.toShows, fun _ => h⟩
  | succ k ih =>
    have hstep := h.iterate hside
    simp only [iterations, h.residual]
    split
    · exact ⟨rfl, h.toShows, fun _ => h⟩
    · generalize s.iterate problem o = a at hstep ⊢
      generalize t.iterate problem' o = b at hstep ⊢
      cases hstep with
      | next h => exact ih h
      | stop status h => exact ⟨rfl, h.toShows, fun _ => h⟩
      | brokenOff h => exact ⟨rfl, h, by rintro ⟨⟩⟩

variable {solver : Solver α S} {solver' : Solver α S'} {p : P} {q : P'} {j : J} {j' : J'}
  {x : Array α}

theorem start_charted (hside : Coordinated m n o χ ρ problem problem')
    (hsolver : solver.Alike m n ρ.stepSolver solver')
    (hlooks : ρ.looks → solver'.buffers.residuals = χ.residuals solver.buffers.residuals ∧
      solver'.buffers.trialResiduals = χ.residuals solver.buffers.trialResiduals)
    (hp : ρ.problem p q) (hj : ρ.layout j j') (hx : x.size = n) :
    EndsCharted m n χ ρ (Solver.start problem o (solver.begin o p j x))
      (Solver.start problem' o (solver'.begin o q j' (χ.parameters x))) := by
  have hcall := hside.residuals x solver.buffers.residuals solver'.buffers.residuals hp hx
    hsolver.sized.residuals hsolver.sized'.residuals fun h => (hlooks h).1
  have hevents : EventsCharted χ #[.residuals x] #[.residuals (χ.parameters x)] :=
    .singleton (.residuals x)
  unfold Solver.start
  simp only [Solver.begin]
  generalize problem.residuals p x solver.buffers.residuals = a at hcall ⊢
  generalize problem'.residuals q (χ.parameters x) solver'.buffers.residuals = b at hcall ⊢
  cases hcall with
  | brokenOff =>
    exact ⟨rfl, ⟨rfl, rfl, rfl, rfl, hside.lawful.counts_zero, hside.lawful.stepInf_zero, hevents⟩,
      by rintro ⟨⟩⟩
  | @done a b hab =>
    obtain ⟨p, r⟩ := a
    obtain ⟨q, r'⟩ := b
    obtain ⟨hproblem, rfl, hr⟩ := hab
    replace hr : r.size = m := hr
    have hdot := hside.lawful.dot hr
    have hcharted : ∀ {stepInf}, χ.stepInf stepInf stepInf → State.Charted m n χ ρ
        { solver.evaluated o p j x p r with stepInf := stepInf }
        { solver'.evaluated o q j' (χ.parameters x) q (χ.residuals r) with stepInf := stepInf } :=
      fun hstepInf =>
      { x := rfl, residual := hdot, lambda := rfl, outer := rfl
        inner := hside.lawful.counts_zero
        stepInf := hstepInf
        events := hevents
        size_x := hx
        residuals := rfl
        trialResiduals := fun h => (hlooks h).2
        sized := { hsolver.sized with residuals := hr }
        sized' := { hsolver.sized' with residuals := hside.lawful.size_residuals hr }
        problem := hproblem
        stepSolver := hsolver.stepSolver
        stale := rfl
        jacobian := hj
        damping := hside.kept.clamped
        fresh := by rintro ⟨⟩ }
    have hfinite : Scalar.isFinite (Vec.dot (χ.residuals r) (χ.residuals r)) =
        Scalar.isFinite (Vec.dot r r) := congrArg Scalar.isFinite hdot
    dsimp only
    cases hcase : Scalar.isFinite (Vec.dot r r) with
    | true =>
      rw [if_pos rfl, if_pos (hfinite.trans hcase)]
      exact iterations_charted hside _ (hcharted hside.lawful.stepInf_zero)
    | false =>
      rw [if_neg Bool.false_ne_true, if_neg (by rw [hfinite, hcase]; exact Bool.false_ne_true)]
      have hinfinity := hcharted hside.lawful.stepInf_infinity
      exact ⟨rfl, hinfinity.toShows, fun _ => hinfinity⟩

/-- Solvers that are alike solve alike up to a chart, or refuse the problem alike. -/
theorem solve_charted (hfits : StepSolver.fits J solver.stepSolver m n =
      StepSolver.fits J' solver'.stepSolver m n)
    (hside : StepSolver.fits J solver.stepSolver m n = true →
      Coordinated m n o χ ρ problem problem')
    (hsolver : solver.Alike m n ρ.stepSolver solver')
    (hlooks : ρ.looks → solver'.buffers.residuals = χ.residuals solver.buffers.residuals ∧
      solver'.buffers.trialResiduals = χ.residuals solver.buffers.trialResiduals)
    (hp : ρ.problem p q) (hj : LinearOperator.shape j = (m, n) → ρ.layout j j')
    (hshape : LinearOperator.shape j = LinearOperator.shape j')
    (hx : (χ.parameters x).size = x.size) :
    (solver.solve problem o p j x).Charted m n χ ρ.stepSolver
      (solver'.solve problem' o q j' (χ.parameters x)) := by
  have hmisfit : solver.misfit? j x = solver'.misfit? j' (χ.parameters x) := by
    simp [Solver.misfit?, hsolver.nrows, hsolver.nrows', hsolver.ncols, hsolver.ncols', hfits,
      hshape, hx]
  unfold Solver.solve
  rw [← hmisfit]
  cases hmisfits : solver.misfit? j x with
  | some e => exact ⟨rfl, .refused e, .nil, fun _ => hsolver⟩
  | none =>
    obtain ⟨hx, hsame, hfit⟩ := Solver.misfit?_eq_none_iff.1 hmisfits
    rw [hsolver.ncols] at hx
    rw [hsolver.nrows, hsolver.ncols] at hsame hfit
    have hends := start_charted (hside hfit) hsolver hlooks hp (hj hsame) hx
    generalize Solver.start problem o (solver.begin o p j x) = a at hends ⊢
    generalize Solver.start problem' o (solver'.begin o q j' (χ.parameters x)) = b at hends ⊢
    obtain ⟨s, status⟩ := a
    obtain ⟨t, status'⟩ := b
    obtain ⟨hstatus, hshows, hcharted⟩ := hends
    obtain rfl : status' = status := hstatus
    replace hshows : s.Shows χ t := hshows
    cases status' with
    | none => exact ⟨hshows.x, .brokenOff, hshows.events, fun h => absurd rfl h⟩
    | some status =>
      have hstats : t.stats status =
          { s.stats status with stepInf := t.stepInf, inner := t.inner } := by
        simp [State.stats, hshows.outer, hshows.residual, hshows.lambda]
      have h := hcharted rfl
      dsimp only
      rw [hstats]
      refine ⟨hshows.x, .finished _ hshows.stepInf hshows.inner,
        hshows.events.push (.finished _ hshows.stepInf hshows.inner), fun _ => ?_⟩
      exact { hsolver with sized := h.sized, sized' := h.sized', stepSolver := h.stepSolver }

end LeastSquares.Marquardt
