import LeastSquares.Proofs.Marquardt.Reports

/-!
# Levenberg–Marquardt: what every event keeps

A solve only adds to what has happened, and changes its damping in the events that report an
iteration.  A property of the events and the damping in force that every further event keeps is
therefore one of every solve, also of one that breaks off.
-/

namespace LeastSquares.Marquardt

variable {α S J P : Type}

def Event.lambda? : Event α → Option α
  | .step _ _ lambda => some lambda
  | .report r => some r.lambda
  | .finished stats => some stats.lambda
  | .residuals _ | .jacobian _ | .record _ => none

variable [Scalar α]

def Event.damping (o : Options α) (lambda : α) : Event α → α
  | .report r => (r.standing o).lambda
  | _ => lambda

/-- A property of what has happened and of the damping in force that every further event keeps. -/
def Lasting (o : Options α) (Q : Array (Event α) → α → Prop) : Prop :=
  ∀ ⦃events : Array (Event α)⦄ ⦃lambda : α⦄, Q events lambda → ∀ e : Event α,
    (∀ l ∈ e.lambda?, l = lambda) → Q (events.push e) (e.damping o lambda)

def Step.last : Step α S J P → State α S J P
  | .next s | .stop s _ | .brokenOff s => s

def State.Upholds (Q : Array (Event α) → α → Prop) (s : State α S J P) : Prop :=
  Q s.events s.lambda

namespace State.Upholds

variable {problem : Problem α J P} {o : Options α} {Q : Array (Event α) → α → Prop}
  {s : State α S J P} (hQ : Lasting o Q)

include hQ

theorem note (h : s.Upholds Q) {e : Event α} (he : ∀ l ∈ e.lambda?, l = s.lambda)
    (hdamping : e.damping o s.lambda = s.lambda) : (s.note e).Upholds Q := by
  have hpush := hQ h e he
  rwa [hdamping] at hpush

theorem noteAll (h : s.Upholds Q) (log : List (Log.Record α)) : (s.noteAll log).Upholds Q := by
  induction log generalizing s with
  | nil => simpa [State.noteAll] using h
  | cons r log ih =>
    have hcons : s.noteAll (r :: log) = (s.note (.record r)).noteAll log := by
      simp [State.noteAll, State.note]
    rw [hcons]
    exact ih (h.note hQ (by rintro _ ⟨⟩) rfl)

theorem refresh [LinearOperator J α] (h : s.Upholds Q) {r : Outcome (State α S J P)}
    (hr : s.refresh problem o = r) : r.state.Upholds Q := by
  have hnoted : (s.note (.jacobian s.x)).Upholds Q := h.note hQ (by rintro _ ⟨⟩) rfl
  subst hr
  unfold State.refresh
  split
  · dsimp only
    split
    · exact hnoted
    · split <;> exact hnoted
  · exact h

theorem askStep [StepSolver S J α] (h : s.Upholds Q)
    {r : Outcome (State α S J P × Option Nat)} (hr : s.askStep = r) :
    r.state.1.Upholds Q := by
  have hnoted : (s.note (.step s.buffers.residuals s.buffers.dtd s.lambda)).Upholds Q :=
    h.note hQ (fun _ hl => (Option.some.inj hl).symm) rfl
  rw [← hr, State.askStep, Outcome.state_map]
  exact hnoted.noteAll hQ _

omit hQ in
theorem predict [LinearOperator J α] (h : s.Upholds Q) {r : Outcome (State α S J P)}
    (hr : s.predict = r) : r.state.Upholds Q := by
  rw [← hr, State.predict, Outcome.state_map]
  exact h

theorem evaluateTrial (h : s.Upholds Q) {r : Outcome (State α S J P)}
    (hr : s.evaluateTrial problem = r) : r.state.Upholds Q := by
  have hnoted : (s.note (.residuals s.candidate)).Upholds Q := h.note hQ (by rintro _ ⟨⟩) rfl
  rw [← hr, State.evaluateTrial, Outcome.state_map]
  exact hnoted

theorem skipStep (h : s.Upholds Q) : (s.skipStep o).Upholds Q :=
  hQ h (.report s.skipReport) fun _ hl => (Option.some.inj hl).symm

theorem judge (h : s.Upholds Q) (inner : Nat) : (s.judge o inner).last.Upholds Q := by
  -- The report changes the damping, the record after it does not.
  have hverdict := hQ h (.report (s.verdict o inner)) fun _ hl => (Option.some.inj hl).symm
  have hreported {t : State α S J P} (hevents : t.events = (s.reported o inner).events)
      (hstanding : t.standing = (s.verdict o inner).standing o) : t.Upholds Q := by
    have hlambda : t.lambda = ((s.verdict o inner).standing o).lambda :=
      congrArg Standing.lambda hstanding
    rw [Upholds, hevents, hlambda]
    exact hQ hverdict (.record (.iteration s.outer s.residual s.trial s.ratio s.lambda))
      (by rintro _ ⟨⟩)
  rw [judge_eq]
  by_cases hacc : s.Accepts o
  · have haccepted : ((s.reported o inner).accept o s.ratio s.trial).Upholds Q :=
      hreported rfl (State.standing_accept hacc inner)
    rw [if_pos hacc]
    split <;> exact haccepted
  · rw [if_neg hacc]
    exact hreported rfl (State.standing_reject hacc inner)

variable [LinearOperator J α]

theorem tryStep (h : s.Upholds Q) (inner : Nat) :
    (s.tryStep problem o inner).last.Upholds Q := by
  have hcounted : State.Upholds Q
      { s with inner := addCounts s.inner inner, stepInf := Vec.maxAbs s.buffers.step } := h
  unfold State.tryStep
  dsimp only
  split
  · exact h
  · split
    · rename_i p hp
      exact hcounted.predict hp
    · rename_i p hp
      have hp : p.Upholds Q := hcounted.predict hp
      split
      · rename_i t ht
        exact hp.evaluateTrial hQ ht
      · rename_i t ht
        exact (hp.evaluateTrial hQ ht).judge hQ inner

variable [StepSolver S J α]

theorem iterate (h : s.Upholds Q) {r : Step α S J P} (hr : s.iterate problem o = r) :
    r.last.Upholds Q := by
  have hcounted : State.Upholds Q { s with outer := s.outer + 1 } := h
  subst hr
  unfold State.iterate
  split
  · rename_i r hr
    exact hcounted.refresh hQ hr
  · rename_i r hr
    have hr : r.Upholds Q := hcounted.refresh hQ hr
    split
    · rename_i a _ ha
      exact hr.askStep hQ ha
    · rename_i a ha
      exact (hr.askStep hQ ha).skipStep hQ
    · rename_i a inner ha
      exact (hr.askStep hQ ha).tryStep hQ inner

theorem iterations (h : s.Upholds Q) (n : Nat) : (iterations problem o n s).1.Upholds Q := by
  induction n generalizing s with
  | zero => exact h
  | succ n ih =>
    unfold Marquardt.iterations
    split
    · exact h
    · split
      · rename_i t ht
        exact ih (h.iterate hQ ht)
      · rename_i t _ ht
        exact h.iterate hQ ht
      · rename_i t ht
        exact h.iterate hQ ht

end State.Upholds

section Solves

variable [LinearOperator J α] [StepSolver S J α] {solver : Solver α S} {problem : Problem α J P}
  {o : Options α} {p : P} {jacobian : J} {x : Array α} {Q : Array (Event α) → α → Prop}

theorem Lasting.start (hQ : Lasting o Q)
    (h : (solver.begin o p jacobian x).Upholds Q) :
    (Solver.start problem o (solver.begin o p jacobian x)).1.Upholds Q := by
  unfold Solver.start
  split
  · exact h
  · rename_i p' residuals _
    have hevaluated : (solver.evaluated o p jacobian x p' residuals).Upholds Q := h
    dsimp only
    split
    · exact hevaluated.iterations hQ _
    · exact hevaluated

theorem Lasting.solve (hQ : Lasting o Q) (fits : solver.misfit? jacobian x = none)
    (h : (Solver.start problem o (solver.begin o p jacobian x)).1.Upholds Q) :
    ∃ last, Q (solver.solve problem o p jacobian x).events last := by
  unfold Solver.solve
  simp only [fits]
  split
  · rename_i s status hs
    rw [hs] at h
    exact ⟨_, hQ h (.finished (s.stats status)) fun _ hl => (Option.some.inj hl).symm⟩
  · rename_i s hs
    rw [hs] at h
    exact ⟨s.lambda, h⟩

end Solves

end LeastSquares.Marquardt
