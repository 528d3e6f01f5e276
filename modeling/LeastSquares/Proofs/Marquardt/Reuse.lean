import LeastSquares.Proofs.Dense.Reuse
import LeastSquares.Proofs.Lsmr.Reuse
import LeastSquares.Proofs.Marquardt.Parallel
import LeastSquares.Report.Watch

/-!
# Levenberg–Marquardt: used solvers

A solver keeps its buffers, its step solver and that one's workspace from one solve to the next.
Nothing of what they hold shows in a solve of a problem whose callbacks and products overwrite what
they are given, nor does whether someone follows it.  So a used solver solves like a new one, also
after a solve that met numbers that are not, had no step or stopped early.
-/

namespace LeastSquares.Marquardt

open LinearOperator (Overwrites ncols nrows shape)

variable {α S J P : Type} [Scalar α] [LinearOperator J α] {m n : Nat}

/-- One Jacobian in two solves, whose products leave nothing of their buffers, for vectors of `m`
residuals and for ones of its own rows. -/
structure Rewritten (m n : Nat) (j j' : J) : Prop where
  eq : j = j'
  overwrites : Overwrites m n j
  overwrites_rows : Overwrites (nrows j) n j

/-- The callbacks overwrite what they are given, from the parameters alone.  A Jacobian may hold
anything within its layout before. -/
structure Problem.Overwrites (m n : Nat) (Layout : J → J → Prop) (problem : Problem α J P) :
    Prop where
  residuals : ∀ p q (y out out' : Array α), y.size = n → out.size = m → out'.size = m →
    Outcome.Alike (fun a b => a.2 = b.2 ∧ a.2.size = m) (fun _ _ => True)
      (problem.residuals p y out) (problem.residuals q y out')
  jacobian : ∀ p q (y : Array α) j j', y.size = n → Layout j j' →
    Outcome.Alike (fun a b => Rewritten m n a.2 b.2) (fun _ _ => True)
      (problem.jacobian p y j) (problem.jacobian q y j')
  layout_self : ∀ j, Layout j j
  shape_eq : ∀ {j j'}, Layout j j' → shape j = shape j'

variable {problem : Problem α J P} {Layout : J → J → Prop}

/-! ## Verbose solves -/

section Verbose

variable [StepSolver S J α] (problem) (o : Options α) (verbose : Bool)

theorem iterations_verbose (k : Nat) (s : State α S J P) :
    iterations problem { o with verbose := verbose } k s = iterations problem o k s := by
  induction k generalizing s with
  | zero => rfl
  | succ k ih =>
    have hiterate : s.iterate problem { o with verbose := verbose } = s.iterate problem o := rfl
    simp only [iterations, hiterate, ih]

theorem Solver.solve_verbose (solver : Solver α S) (p : P) (j : J) (x : Array α) :
    solver.solve problem { o with verbose := verbose } p j x = solver.solve problem o p j x := by
  unfold Solver.solve Solver.start
  simp only [iterations_verbose]
  rfl

end Verbose

/-! ## Step solvers side by side -/

namespace Problem.Overwrites

def pairing {S : Type} (R : S → S → Prop) (m n : Nat) (Layout : J → J → Prop) :
    Pairing α S S J J P P where
  stepSolver := R
  layout := Layout
  written := Rewritten m n
  problem _ _ := True
  looks := False

theorem sideBySide [StepSolver S J α] (h : problem.Overwrites m n Layout) {R : S → S → Prop}
    (hsolve : ∀ {s s' : S} {j : J} (f dtd : Array α) (lambda : α) (step step' : Array α), R s s' →
      LinearOperator.Overwrites (nrows j) n j → dtd.size = n → step.size = n → step'.size = n →
      Outcome.Alike (StepAnswer.Charted n id R) (fun r r' => r'.log = r.log)
        (StepSolver.solveStep s j f dtd lambda step)
        (StepSolver.solveStep s' j f dtd lambda step')) :
    SideBySide m n (pairing R m n Layout) problem problem where
  residuals := by
    rintro p q y out out' - hy hout hout' -
    exact (h.residuals p q y out out' hy hout hout').imp fun hab => ⟨trivial, hab⟩
  jacobian := by
    rintro p q y j j' - hy hj
    exact (h.jacobian p q y j j' hy hj).imp fun hab => ⟨trivial, hab⟩
  layout := by
    rintro j _ ⟨rfl, -⟩
    exact h.layout_self j
  agree := by
    rintro j _ ⟨rfl, hj, -⟩
    exact hj
  damping _ := trivial
  diagonal _ := trivial
  solveStep := by
    rintro s s' j _ f dtd lambda step step' hs ⟨rfl, -, hj⟩ - hdtd hstep hstep'
    exact hsolve f dtd lambda step step' hs hj hdtd hstep hstep'

end Problem.Overwrites

open Problem.Overwrites (pairing)

theorem solve_direct {P : Type} {problem : Problem α (Dense.Matrix α) P}
    {Layout : Dense.Matrix α → Dense.Matrix α → Prop} {k : Nat}
    {solver solver' : Solver α (Dense.NormalEquations α)} (hzero : ((0 : α) == 0) = true)
    (h : problem.Overwrites m n Layout)
    (hsolver : solver.Alike m n (Dense.NormalEquations.Alike k) solver') (o : Options α) (p q : P)
    {j j' : Dense.Matrix α} (hj : Layout j j') (x : Array α) :
    (solver.solve problem o p j x).Alike m n (Dense.NormalEquations.Alike k)
      (solver'.solve problem o q j' x) := by
  obtain ⟨hk, hk'⟩ := hsolver.stepSolver
  refine solve_alike (ρ := pairing (Dense.NormalEquations.Alike k) m n Layout)
    (by simp [StepSolver.fits, hk, hk']) (fun hfits => ?_) hsolver False.elim trivial (fun _ => hj)
    (h.shape_eq hj)
  obtain rfl : k = n := by simpa [StepSolver.fits, hk] using hfits
  exact h.sideBySide fun f dtd lambda step step' hs _ _ hstep hstep' =>
    Dense.NormalEquations.solve_alike hzero hs _ f dtd lambda hstep hstep'

theorem solve_iterative {k l : Nat} {solver solver' : Solver α (Lsmr.DampedStep α)}
    (hzero : ((0 : α) == 0) = true) (h : problem.Overwrites m n Layout)
    (hsolver : solver.Alike m n (Lsmr.DampedStep.Alike k l) solver') (o : Options α) (p q : P)
    {j j' : J} (hj : Layout j j') (x : Array α) :
    (solver.solve problem o p j x).Alike m n (Lsmr.DampedStep.Alike k l)
      (solver'.solve problem o q j' x) := by
  obtain ⟨hs, hs', -⟩ := hsolver.stepSolver
  refine solve_alike (ρ := pairing (Lsmr.DampedStep.Alike k l) m n Layout)
    (Bool.eq_iff_iff.2 (hs.fits_iff.trans hs'.fits_iff.symm)) (fun hfits => ?_) hsolver False.elim
    trivial (fun _ => hj) (h.shape_eq hj)
  obtain ⟨rfl, rfl⟩ := hs.fits_iff.1 hfits
  exact h.sideBySide fun f dtd lambda step step' hs hj hdtd hstep hstep' =>
    Lsmr.DampedStep.solve_alike hzero hs hj f lambda hdtd hstep hstep'

/-! ## Followed solves -/

open Report (Follower watch)

/-- Solvers that are alike up to `R` show the same, whatever they hold, whoever follows and whether
the solves are verbose.  What is printed differs at most with these and with the elapsed time. -/
def Interchangeable (J S : Type) [LinearOperator J Float] [StepSolver S J Float]
    (m n : Nat) (R : S → S → Prop) : Prop :=
  ∀ {P : Type} {problem : Problem Float J P} {Layout : J → J → Prop},
    problem.Overwrites m n Layout →
    ∀ {solver solver' : Solver Float S}, solver.Alike m n R solver' →
    ∀ {j j' : J}, Layout j j' →
    ∀ (o : Options Float) (verbose verbose' : Bool) (p q : P) (x : Array Float)
      (follower follower' : Follower Float) (elapsed elapsed' : String),
      let w := watch solver problem { o with verbose := verbose } p j x follower elapsed
      let w' := watch solver' problem { o with verbose := verbose' } q j' x follower' elapsed'
      w.run.Alike m n R w'.run ∧
        (verbose = verbose' → follower = follower' → elapsed = elapsed' →
          w.outputs = w'.outputs ∧ w.reporter = w'.reporter)

theorem Interchangeable.of_alike {J S : Type} [LinearOperator J Float] [StepSolver S J Float]
    {R : S → S → Prop}
    (h : ∀ {P : Type} {problem : Problem Float J P} {Layout : J → J → Prop}
      {solver solver' : Solver Float S} {j j' : J}, problem.Overwrites m n Layout →
      solver.Alike m n R solver' → Layout j j' → ∀ (o : Options Float) (p q : P) (x : Array Float),
      (solver.solve problem o p j x).Alike m n R (solver'.solve problem o q j' x)) :
    Interchangeable J S m n R := by
  intro P problem Layout hproblem solver solver' hsolver j j' hj o verbose verbose' p q x follower
    follower' elapsed elapsed' w w'
  have halike : w.run.Alike m n R w'.run := by
    simp only [w, w', watch, Solver.solve_verbose]
    exact h hproblem hsolver hj o p q x
  refine ⟨halike, ?_⟩
  rintro rfl rfl rfl
  have hevents : w.run.events = w'.run.events := halike.events
  simp only [w, w', watch] at hevents ⊢
  rw [hevents]
  exact ⟨rfl, rfl⟩

/-- Used solvers solve like new ones: two solvers for one shape with direct step solvers, or with
iterative ones of the same parameters, are interchangeable whatever their buffers hold, and so are
two workspaces of one shape for LSMR alone. -/
theorem solve_reused :
    (∀ m n k : Nat,
      Interchangeable (Dense.Matrix Float) (Dense.NormalEquations Float) m n
        (Dense.NormalEquations.Alike k)) ∧
    (∀ (J : Type) [LinearOperator J Float] (m n k l : Nat),
      Interchangeable J (Lsmr.DampedStep Float) m n (Lsmr.DampedStep.Alike k l)) ∧
    ∀ {A : Type} [LinearOperator A Float] {a : A} {m n : Nat} {w w' : Lsmr.Workspace Float},
      Overwrites (nrows a) (ncols a) a → w.Shaped m n → w'.Shaped m n →
      ∀ (b x : Array Float) (p : Lsmr.Params Float),
        (∃ e, Lsmr.solve w a b x p = .error e ∧ Lsmr.solve w' a b x p = .error e) ∨
          ∃ sol sol', Lsmr.solve w a b x p = .ok sol ∧ Lsmr.solve w' a b x p = .ok sol' ∧
            sol.Alike m n sol' := by
  have hzero : ((0 : Float) == 0) = true := by decide
  refine ⟨fun m n k => Interchangeable.of_alike ?_, fun J _ m n k l => Interchangeable.of_alike ?_,
    ?_⟩
  · intro P problem Layout solver solver' j j' hproblem hsolver hj o p q x
    exact solve_direct hzero hproblem hsolver o p q hj x
  · intro P problem Layout solver solver' j j' hproblem hsolver hj o p q x
    exact solve_iterative hzero hproblem hsolver o p q hj x
  · intro A _ a m n w w' ha hw hw' b x p
    exact Lsmr.solve_alike hzero ha hw hw' b x p

/-- The residual `y - 2` of a parameter `y`, for solvers and workspaces in which nothing is a
number. -/
theorem solve_reused_nan :
    let nan : Float := 0 / 0
    let J : Dense.Matrix Float := .ofFn 1 1 fun _ _ => 1
    let problem : Problem Float (Dense.Matrix Float) Unit :=
      ⟨fun p y _ => .done (p, y.map (· - 2)), fun p _ _ => .done (p, J)⟩
    let Layout := fun j j' : Dense.Matrix Float => shape j = shape j'
    let o : Options Float := { Options.default with maxIters := 1 }
    let quiet : Options Float := { o with verbose := false }
    let verbose : Options Float := { o with verbose := true }
    let buffers : Buffers Float := ⟨#[nan], #[nan], #[nan], #[nan], #[nan], #[nan]⟩
    let direct : Solver Float (Dense.NormalEquations Float) := ⟨1, 1, ⟨[[nan]], #[nan]⟩, buffers⟩
    let newDirect : Solver Float (Dense.NormalEquations Float) := ⟨1, 1, .new 1, .new 1 1⟩
    let workspace : Lsmr.Workspace Float := ⟨#[nan, nan], #[nan], #[nan], #[nan]⟩
    let iterative : Solver Float (Lsmr.DampedStep Float) :=
      ⟨1, 1, ⟨workspace, ⟨#[nan], #[nan], #[nan]⟩, #[nan, nan], .default, none⟩, buffers⟩
    let newIterative : Solver Float (Lsmr.DampedStep Float) :=
      ⟨1, 1, .new 1 1 .default, .new 1 1⟩
    let A : Dense.Matrix Float := .ofFn 2 1 fun _ _ => 1
    (problem.Overwrites 1 1 Layout ∧ Layout (.ofFn 1 1 fun _ _ => nan) J ∧
      direct.Alike 1 1 (Dense.NormalEquations.Alike 1) newDirect ∧
      iterative.Alike 1 1 (Lsmr.DampedStep.Alike 1 1) newIterative ∧
      Overwrites (nrows A) (ncols A) A ∧ workspace.Shaped 2 1) ∧
    (watch newDirect problem quiet () J #[3] .nobody "").run.x.toList.all (· < 3) = true ∧
    (watch direct problem verbose () (.ofFn 1 1 fun _ _ => nan) #[3] .nobody "1s").run.x =
      (watch newDirect problem quiet () J #[3] .caller "2s").run.x ∧
    (watch iterative problem verbose () (.ofFn 1 1 fun _ _ => nan) #[3] .nobody "1s").run.x =
      (watch newIterative problem quiet () J #[3] .caller "2s").run.x ∧
    ∃ sol sol', Lsmr.solve workspace A #[1, 2] #[0] .default = .ok sol ∧
      Lsmr.solve (.new 2 1) A #[1, 2] #[0] .default = .ok sol' ∧ sol.x = sol'.x := by
  intro nan J problem Layout o quiet verbose buffers direct newDirect workspace iterative
    newIterative A
  have hproblem : problem.Overwrites 1 1 Layout :=
    { residuals := fun p q y out out' hy _ _ => .done ⟨rfl, by simpa using hy⟩
      jacobian := fun p q y j j' _ _ => .done ⟨rfl, J.overwrites _ _, J.overwrites _ _⟩
      layout_self := fun _ => rfl
      shape_eq := id }
  have hlayout : Layout (.ofFn 1 1 fun _ _ => nan) J := by decide +kernel
  have hbuffers : buffers.Sized 1 1 := ⟨rfl, rfl, rfl, rfl, rfl, rfl⟩
  have hworkspace : workspace.Shaped 2 1 := ⟨rfl, rfl, rfl, rfl⟩
  have hdirect : direct.Alike 1 1 (Dense.NormalEquations.Alike 1) newDirect :=
    ⟨rfl, rfl, rfl, rfl, hbuffers, Buffers.sized_new 1 1, rfl, rfl⟩
  have hiterative : iterative.Alike 1 1 (Lsmr.DampedStep.Alike 1 1) newIterative :=
    ⟨rfl, rfl, rfl, rfl, hbuffers, Buffers.sized_new 1 1,
      ⟨hworkspace, rfl, rfl, rfl, rfl⟩, Lsmr.DampedStep.shaped_new 1 1 .default, rfl⟩
  obtain ⟨hdirects, hiteratives, hlsmr⟩ := solve_reused
  refine ⟨⟨hproblem, hlayout, hdirect, hiterative, A.overwrites _ _, hworkspace⟩, ?_, ?_, ?_, ?_⟩
  · decide +kernel
  · exact (hdirects 1 1 1 hproblem hdirect hlayout o true false () () #[3] .nobody .caller "1s"
      "2s").1.x
  · exact (hiteratives _ 1 1 1 1 hproblem hiterative hlayout o true false () () #[3] .nobody
      .caller "1s" "2s").1.x
  · obtain ⟨e, he, -⟩ | ⟨sol, sol', hsol, hsol', halike⟩ := hlsmr (A.overwrites _ _) hworkspace
      (Lsmr.Workspace.shaped_new 2 1) #[1, 2] #[0] .default
    · have hshape : workspace.shape = shape A := by decide +kernel
      simp [Lsmr.solve, hshape, workspace, Lsmr.Workspace.nrows, Lsmr.Workspace.ncols] at he
    · exact ⟨sol, sol', hsol, hsol', halike.x⟩

end LeastSquares.Marquardt
