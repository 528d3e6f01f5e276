import LeastSquares.Proofs.Marquardt.Coordinates
import LeastSquares.Proofs.Operators.Overwriting

/-!
# Levenberg–Marquardt: two solves side by side

Two solves whose callbacks, Jacobians and step solvers answer alike show the same.  They are one
solve in two coordinate systems with the same vectors in both, and differ in what their buffers hold
between two uses alone.
-/

namespace LeastSquares.Marquardt

open LinearOperator (Agree)

variable {α S S' J J' P P' : Type} [Scalar α]

structure SideBySide [LinearOperator J α] [LinearOperator J' α] [StepSolver S J α]
    [StepSolver S' J' α] (m n : Nat) (ρ : Pairing α S S' J J' P P') (problem : Problem α J P)
    (problem' : Problem α J' P') : Prop where
  residuals : ∀ {p q} (y out out' : Array α), ρ.problem p q → y.size = n → out.size = m →
    out'.size = m → (ρ.looks → out = out') →
    Outcome.Alike (fun a b => ρ.problem a.1 b.1 ∧ a.2 = b.2 ∧ a.2.size = m) (fun _ _ => True)
      (problem.residuals p y out) (problem'.residuals q y out')
  jacobian : ∀ {p q} (y : Array α) {j j'}, ρ.problem p q → y.size = n → ρ.layout j j' →
    Outcome.Alike (fun a b => ρ.problem a.1 b.1 ∧ ρ.written a.2 b.2) (fun _ _ => True)
      (problem.jacobian p y j) (problem'.jacobian q y j')
  layout : ∀ {j j'}, ρ.written j j' → ρ.layout j j'
  agree : ∀ {j j'}, ρ.written j j' → Agree m n j j'
  damping : ∀ lambda, ρ.damping lambda
  diagonal : ∀ dtd, ρ.diagonal dtd
  solveStep : ∀ {s s' j j'} (f dtd : Array α) (lambda : α) (step step' : Array α),
    ρ.stepSolver s s' → ρ.written j j' → f.size = m → dtd.size = n → step.size = n →
    step'.size = n →
    Outcome.Alike (StepAnswer.Charted n id ρ.stepSolver) (fun r r' => r'.log = r.log)
      (StepSolver.solveStep s j f dtd lambda step) (StepSolver.solveStep s' j' f dtd lambda step')

/-- Two solves that show the same.  Unless they broke off, their solvers are alike again. -/
structure Run.Alike (m n : Nat) (R : S → S' → Prop) (run : Run α S J P) (run' : Run α S' J' P') :
    Prop where
  x : run.x = run'.x
  ending : run.ending = run'.ending
  events : run.events = run'.events
  solver : run.ending ≠ .brokenOff → run.solver.Alike m n R run'.solver

omit [Scalar α] in
theorem Run.Charted.alike {m n : Nat} {R : S → S' → Prop} {run : Run α S J P}
    {run' : Run α S' J' P'} (h : run.Charted m n .identity R run') : run.Alike m n R run' where
  x := h.x.symm
  ending := (h.ending.eq Chart.faithful_identity).symm
  events := by
    have hread : Event.read (.identity : Chart α) = id := funext Event.read_identity
    rw [h.events.eq_map Chart.faithful_identity, hread, Array.map_id]
  solver := h.solver

variable [LinearOperator J α] [LinearOperator J' α] [StepSolver S J α] [StepSolver S' J' α]
  {m n : Nat} {ρ : Pairing α S S' J J' P P'} {problem : Problem α J P} {problem' : Problem α J' P'}
  {o : Options α}

theorem SideBySide.coordinated (h : SideBySide m n ρ problem problem') (o : Options α) :
    Coordinated m n o .identity ρ problem problem' where
  lawful := Chart.lawful_identity m n o
  kept := .of_forall h.damping h.diagonal n o
  residuals y out out' hp hy hout hout' hlooks :=
    (h.residuals y out out' hp hy hout hout' fun hl => (hlooks hl).symm).imp fun ⟨hq, heq, hsize⟩ =>
      ⟨hq, heq.symm, hsize⟩
  jacobian := h.jacobian
  layout := h.layout
  columnSquares out out' hj hout hout' :=
    ((h.agree hj).columnSquares out out' hout hout').imp fun ⟨heq, hsize⟩ => ⟨hsize, heq ▸ rfl⟩
  predict p f hj hp hf :=
    ((h.agree hj).apply 1 p 1 f hp hf).imp fun ⟨heq, hsize⟩ => ⟨heq.symm, hsize⟩
  solveStep {s s' j j'} f dtd lambda step step' hs hj hf hdtd hstep hstep' _ _ := by
    have hcall := h.solveStep f dtd lambda step step' hs hj hf hdtd hstep hstep'
    change Outcome.Alike _ _ _ (StepSolver.solveStep s' j' f dtd lambda step')
    generalize StepSolver.solveStep s j f dtd lambda step = a at hcall ⊢
    generalize StepSolver.solveStep s' j' f dtd lambda step' = b at hcall ⊢
    cases hcall with
    | brokenOff hlog => exact .brokenOff fun _ => hlog
    | done h => exact .done (.of_charted (fun _ => rfl) h)

variable {solver : Solver α S} {solver' : Solver α S'} {p : P} {q : P'} {j : J} {j' : J'}
  {x : Array α}

theorem solve_alike (hfits : StepSolver.fits J solver.stepSolver m n =
      StepSolver.fits J' solver'.stepSolver m n)
    (hside : StepSolver.fits J solver.stepSolver m n = true →
      SideBySide m n ρ problem problem')
    (hsolver : solver.Alike m n ρ.stepSolver solver')
    (hlooks : ρ.looks → solver.buffers.residuals = solver'.buffers.residuals ∧
      solver.buffers.trialResiduals = solver'.buffers.trialResiduals)
    (hp : ρ.problem p q) (hj : LinearOperator.shape j = (m, n) → ρ.layout j j')
    (hshape : LinearOperator.shape j = LinearOperator.shape j') :
    (solver.solve problem o p j x).Alike m n ρ.stepSolver (solver'.solve problem' o q j' x) := by
  have hcharted := solve_charted (χ := .identity) (x := x) hfits
    (fun hfit => (hside hfit).coordinated o) hsolver
    (fun hl => ⟨(hlooks hl).1.symm, (hlooks hl).2.symm⟩) hp hj hshape rfl
  exact hcharted.alike

end LeastSquares.Marquardt
