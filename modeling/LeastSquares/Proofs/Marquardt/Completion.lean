import LeastSquares.Double
import LeastSquares.Proofs.Dense.Shape
import LeastSquares.Proofs.Lsmr.Completion
import LeastSquares.Proofs.Marquardt.Run

/-!
# Levenberg–Marquardt: solves come to their end

Three sizes are checked before a solve: the parameters, the Jacobian and the step solver.  Where one
does not fit, the solve is refused and nothing has happened.  Where all fit, every buffer has the
length that each of its uses asks for, at every loop head and wherever a trial point is judged, so
no part of the solve breaks off unless a callback does.
-/

namespace LeastSquares.Marquardt

open LinearOperator (Completes shape)
open Outcome (Ends)

variable {α S J P : Type} [Scalar α] [LinearOperator J α] [StepSolver S J α]

/-- The callbacks come to their end on data of the right lengths, and keep the shape of the
Jacobian. -/
structure Problem.Completes (m n : Nat) (problem : Problem α J P) : Prop where
  residuals : ∀ p (y out : Array α), y.size = n → out.size = m →
    (problem.residuals p y out).Ends fun r => r.2.size = m
  jacobian : ∀ p (y : Array α) j, y.size = n → shape j = (m, n) →
    (problem.jacobian p y j).Ends fun r => shape r.2 = (m, n)

/-- Over Jacobians of this shape the products end, and good step solvers answer and stay good. -/
structure CompletesSteps (J : Type) [LinearOperator J α] [StepSolver S J α] (m n : Nat)
    (Good : S → Prop) : Prop where
  operator : ∀ j : J, shape j = (m, n) → Completes m n j
  solveStep : ∀ (s : S) (j : J) (f dtd : Array α) (lambda : α) (step : Array α), Good s →
    shape j = (m, n) → f.size = m → dtd.size = n → step.size = n →
      (StepSolver.solveStep s j f dtd lambda step).Ends fun a => Good a.solver ∧ a.step.size = n

structure State.Fits (m n : Nat) (Good : S → Prop) (s : State α S J P) : Prop where
  buffers : s.buffers.Sized m n
  size_x : s.x.size = n
  shape : shape s.jacobian = (m, n)
  stepSolver : Good s.stepSolver

variable {m n : Nat} {Good : S → Prop} {problem : Problem α J P} {o : Options α}
  {s t : State α S J P}

/-! ## One iteration -/

namespace State.Fits

variable (hs : s.Fits m n Good)

include hs

omit [Scalar α] [StepSolver S J α] in
theorem counted (outer inner : Nat) (stepInf : α) : State.Fits m n Good
    { s with outer := outer, inner := inner, stepInf := stepInf } := { hs with }

omit [StepSolver S J α] in
theorem judge (inner : Nat) :
    ∃ t : State α S J P, t.Fits m n Good ∧
      (s.judge o inner = .next t ∨ ∃ status, s.judge o inner = .stop t status) := by
  have haccepted : ((s.reported o inner).accept o s.ratio s.trial).Fits m n Good :=
    { hs with
      buffers := { hs.buffers with
        residuals := hs.buffers.trialResiduals
        trialResiduals := hs.buffers.residuals }
      size_x := hs.buffers.trialPoint }
  have hrejected : ((s.reported o inner).reject o).Fits m n Good := { hs with }
  rw [State.judge_eq]
  split
  · split
    · exact ⟨_, haccepted, .inr ⟨_, rfl⟩⟩
    · exact ⟨_, haccepted, .inl rfl⟩
  · exact ⟨_, hrejected, .inl rfl⟩

omit [StepSolver S J α] in
theorem evaluateTrial (hproblem : problem.Completes m n) :
    (s.evaluateTrial problem).Ends (State.Fits m n Good) := by
  have hcandidate : s.candidate.size = n := s.size_candidate.trans hs.buffers.trialPoint
  have hends := hproblem.residuals s.problem s.candidate s.buffers.trialResiduals hcandidate
    hs.buffers.trialResiduals
  exact hends.map fun r hr =>
    { hs with
      buffers := { hs.buffers with trialPoint := hcandidate, trialResiduals := hr } }

variable (hsteps : CompletesSteps J m n Good) (hproblem : problem.Completes m n)

include hsteps

theorem predict : s.predict.Ends (State.Fits m n Good) := by
  have hends := (hsteps.operator s.jacobian hs.shape).apply 1 s.buffers.step 1
    s.buffers.residuals hs.buffers.step hs.buffers.residuals
  exact hends.map fun r hr => { hs with buffers := { hs.buffers with predicted := hr } }

omit [Scalar α] in
theorem askStep : s.askStep.Ends fun a => a.1.Fits m n Good := by
  have hends := hsteps.solveStep s.stepSolver s.jacobian s.buffers.residuals s.buffers.dtd
    s.lambda s.buffers.step hs.stepSolver hs.shape hs.buffers.residuals hs.buffers.dtd
    hs.buffers.step
  exact hends.map fun a ha =>
    { hs with
      buffers := { hs.buffers with step := ha.2 }
      stepSolver := ha.1 }

include hproblem

theorem refresh : (s.refresh problem o).Ends (State.Fits m n Good) := by
  unfold State.refresh
  split
  · obtain ⟨⟨p, j⟩, hj, hshape⟩ := hproblem.jacobian s.problem s.x s.jacobian hs.size_x hs.shape
    obtain ⟨squares, hsquares, hsize⟩ :=
      (hsteps.operator j hshape).columnSquares s.buffers.dtd hs.buffers.dtd
    simp only [State.note, hj, hsquares]
    have hdtd : (squares.map fun d => Scalar.max d o.minDiagonal).size = n := by simpa
    exact ⟨_, rfl, { hs with
      buffers := { hs.buffers with dtd := hdtd }
      shape := hshape }⟩
  · exact ⟨s, rfl, hs⟩

theorem judges {inner : Nat} (h : Judges problem o s inner t) : t.Fits m n Good := by
  cases h with
  | @intro a _ _ _ asks moves predicts tries =>
    obtain ⟨r, hr, ha⟩ := asks
    have hfresh := ((hs.counted _ _ _).refresh hsteps hproblem).of_done hr
    have hasked : a.Fits m n Good := (hfresh.askStep hsteps).of_done ha
    have hpredicted := ((hasked.counted _ _ _).predict hsteps).of_done predicts
    exact (hpredicted.evaluateTrial hproblem).of_done tries

theorem iterate : ∃ t : State α S J P, t.Fits m n Good ∧
    (s.iterate problem o = .next t ∨ ∃ status, s.iterate problem o = .stop t status) := by
  obtain ⟨r, hr, hfresh⟩ :=
    (hs.counted (s.outer + 1) s.inner s.stepInf).refresh (o := o) hsteps hproblem
  obtain ⟨⟨a, answer⟩, ha, hasked⟩ := hfresh.askStep hsteps
  replace hasked : a.Fits m n Good := hasked
  cases answer with
  | none =>
    have hskipped : (a.skipStep o).Fits m n Good := { hasked with }
    exact ⟨_, hskipped, .inl (by simp only [State.iterate, hr, ha])⟩
  | some inner =>
    simp only [State.iterate, hr, ha, State.tryStep]
    split
    · exact ⟨_, hasked.counted _ _ _, .inr ⟨_, rfl⟩⟩
    · obtain ⟨b, hb, hpredicted⟩ := (hasked.counted a.outer (addCounts a.inner inner)
        (Vec.maxAbs a.buffers.step)).predict hsteps
      obtain ⟨t, ht, htried⟩ := hpredicted.evaluateTrial hproblem
      simp only [hb, ht]
      exact htried.judge inner

end State.Fits

/-! ## Whole solves -/

structure Solver.Shaped (Good : S → Prop) (solver : Solver α S) : Prop where
  buffers : solver.buffers.Sized solver.nrows solver.ncols
  stepSolver : Good solver.stepSolver

theorem Solver.shaped_new {nrows ncols : Nat} {stepSolver : S} {solver : Solver α S}
    (hgood : Good stepSolver) (h : Solver.new nrows ncols stepSolver = .ok solver) :
    solver.Shaped Good := by
  unfold Solver.new at h
  split at h
  · cases h
  · cases h
    exact ⟨Buffers.sized_new nrows ncols, hgood⟩

section Solves

variable (hsteps : CompletesSteps J m n Good) (hproblem : problem.Completes m n)

include hsteps hproblem

theorem iterations_completes (k : Nat) (hs : s.Fits m n Good) :
    ∃ t status, iterations problem o k s = (t, some status) ∧ t.Fits m n Good := by
  induction k generalizing s with
  | zero => exact ⟨s, _, rfl, hs⟩
  | succ k ih =>
    unfold iterations
    split
    · exact ⟨s, _, rfl, hs⟩
    · obtain ⟨t, ht, hnext | ⟨status, hstop⟩⟩ := hs.iterate (o := o) hsteps hproblem
      · rw [hnext]
        exact ih ht
      · rw [hstop]
        exact ⟨t, status, rfl, ht⟩

end Solves

variable {solver : Solver α S} {p : P} {j : J} {x : Array α}

omit [StepSolver S J α] in
theorem fits_evaluated (hsolver : solver.Shaped Good) (hx : x.size = solver.ncols)
    (hshape : shape j = (solver.nrows, solver.ncols)) {p' : P} {r : Array α}
    (hr : r.size = solver.nrows) :
    (solver.evaluated o p j x p' r).Fits solver.nrows solver.ncols Good where
  buffers := { hsolver.buffers with residuals := hr }
  size_x := hx
  shape := hshape
  stepSolver := hsolver.stepSolver

section Solves

variable (hsteps : CompletesSteps J solver.nrows solver.ncols Good)
  (hproblem : problem.Completes solver.nrows solver.ncols) (hsolver : solver.Shaped Good)

include hsteps hproblem hsolver

theorem start_completes (hx : x.size = solver.ncols)
    (hshape : shape j = (solver.nrows, solver.ncols)) :
    ∃ t status, Solver.start problem o (solver.begin o p j x) = (t, some status) ∧
      t.Fits solver.nrows solver.ncols Good := by
  obtain ⟨⟨p', r⟩, hcall, hr⟩ :=
    hproblem.residuals p x solver.buffers.residuals hx hsolver.buffers.residuals
  have hfits : (solver.evaluated o p j x p' r).Fits solver.nrows solver.ncols Good :=
    fits_evaluated hsolver hx hshape hr
  unfold Solver.start
  simp only [Solver.begin, hcall]
  split
  · exact iterations_completes hsteps hproblem _ hfits
  · exact ⟨_, _, rfl, hfits.counted _ _ _⟩

theorem fits_of_head {k : Nat} (head : Head solver problem o p j x k s) :
    s.Fits solver.nrows solver.ncols Good := by
  induction head with
  | first fits evaluates =>
    obtain ⟨hx, hshape, -⟩ := Solver.misfit?_eq_none_iff.1 fits
    have hcall := hproblem.residuals p x _ hx hsolver.buffers.residuals
    exact fits_evaluated hsolver hx hshape (hcall.of_done evaluates)
  | next head _ _ goes ih =>
    obtain ⟨t, ht, hnext | ⟨status, hstop⟩⟩ := ih.iterate (o := o) hsteps hproblem
    · cases goes.symm.trans hnext
      exact ht
    · cases goes.symm.trans hstop

end Solves

/-- A solve is refused, with nothing done, for the first of the three sizes that does not fit.
Where all fit and the callbacks complete, it comes to its end, and everything in it has the size of
the problem at every loop head, wherever a trial point is judged, and afterwards. -/
structure Solver.ShapeChecked (Good : S → Prop) (built : Prop) (solver : Solver α S)
    (problem : Problem α J P) (o : Options α) (p : P) (j : J) (x : Array α) : Prop where
  parameterLength : x.size ≠ solver.ncols → solver.solve problem o p j x =
    ⟨solver, p, j, x, .refused (.parameterLength solver.ncols x.size), #[]⟩
  operatorShape : x.size = solver.ncols → shape j ≠ (solver.nrows, solver.ncols) →
    solver.solve problem o p j x =
      ⟨solver, p, j, x, .refused (.operatorShape (solver.nrows, solver.ncols) (shape j)), #[]⟩
  stepSolverShape : x.size = solver.ncols → shape j = (solver.nrows, solver.ncols) → ¬built →
    solver.solve problem o p j x =
      ⟨solver, p, j, x, .refused (.stepSolverShape solver.nrows solver.ncols), #[]⟩
  ends : x.size = solver.ncols → shape j = (solver.nrows, solver.ncols) → built →
    problem.Completes solver.nrows solver.ncols →
      (∀ k s, Head solver problem o p j x k s → s.Fits solver.nrows solver.ncols Good ∧
        ∀ inner t, Judges problem o s inner t → t.Fits solver.nrows solver.ncols Good) ∧
      ∃ t status, t.Fits solver.nrows solver.ncols Good ∧ solver.solve problem o p j x =
        solver.leave t (.finished (t.stats status)) (t.events.push (.finished (t.stats status)))

omit [Scalar α] in
theorem Solver.misfit?_eq_ite (solver : Solver α S) (j : J) (x : Array α) :
    solver.misfit? j x =
      if x.size ≠ solver.ncols then some (.parameterLength solver.ncols x.size)
      else if (solver.nrows, solver.ncols) ≠ shape j then
        some (.operatorShape (solver.nrows, solver.ncols) (shape j))
      else if StepSolver.fits J solver.stepSolver solver.nrows solver.ncols then none
      else some (.stepSolverShape solver.nrows solver.ncols) := rfl

theorem Solver.solve_of_misfit {e : ShapeError} (h : solver.misfit? j x = some e) :
    solver.solve problem o p j x = ⟨solver, p, j, x, .refused e, #[]⟩ := by
  simp only [Solver.solve, h]

theorem Solver.shapeChecked {built : Prop} (hsolver : solver.Shaped Good)
    (hfits : StepSolver.fits J solver.stepSolver solver.nrows solver.ncols = true ↔ built)
    (hsteps : built → CompletesSteps J solver.nrows solver.ncols Good) (problem : Problem α J P)
    (o : Options α) (p : P) (j : J) (x : Array α) :
    solver.ShapeChecked Good built problem o p j x where
  parameterLength hx := solve_of_misfit (by rw [misfit?_eq_ite, if_pos hx])
  operatorShape hx hshape := solve_of_misfit (by
    rw [misfit?_eq_ite, if_neg (not_not_intro hx), if_pos hshape.symm])
  stepSolverShape hx hshape hbuilt := solve_of_misfit (by
    rw [misfit?_eq_ite, if_neg (not_not_intro hx), if_neg (not_not_intro hshape.symm),
      if_neg (mt hfits.1 hbuilt)])
  ends hx hshape hbuilt hproblem := by
    refine ⟨fun k s head => ?_, ?_⟩
    · have hs := fits_of_head (hsteps hbuilt) hproblem hsolver head
      exact ⟨hs, fun inner t => hs.judges (hsteps hbuilt) hproblem⟩
    · obtain ⟨t, status, hstart, ht⟩ :=
        start_completes (o := o) (p := p) (hsteps hbuilt) hproblem hsolver hx hshape
      refine ⟨t, status, ht, ?_⟩
      simp only [Solver.solve, Solver.misfit?_eq_none_iff.2 ⟨hx, hshape, hfits.2 hbuilt⟩, hstart]

/-! ## The two step solvers -/

theorem completesSteps_direct (m n : Nat) :
    CompletesSteps (Dense.Matrix α) m n fun s : Dense.NormalEquations α => s.ncols = n where
  operator j hj := by
    obtain ⟨rfl, rfl⟩ := Prod.mk.inj hj
    exact j.completes
  solveStep s j f dtd lambda step hs hj hf hdtd hstep := by
    obtain ⟨hm, hn⟩ := Prod.mk.inj hj
    exact Dense.NormalEquations.solve_completes hs hm hn lambda hf hdtd hstep

def ChecksShapes (J : Type) [LinearOperator J α] [StepSolver S J α] (Good : S → Prop)
    (built : Nat → Nat → Prop) : Prop :=
  ∀ {P : Type} (solver : Solver α S), solver.Shaped Good →
    ∀ (problem : Problem α J P) (o : Options α) (p : P) (j : J) (x : Array α),
      solver.ShapeChecked Good (built solver.nrows solver.ncols) problem o p j x

theorem checksShapes_direct (k : Nat) :
    ChecksShapes (S := Dense.NormalEquations α) (Dense.Matrix α) (fun s => s.ncols = k)
      fun _ n => k = n := by
  intro P solver hsolver problem o p j x
  refine Solver.shapeChecked hsolver ?_ ?_ problem o p j x
  · simp only [StepSolver.fits, hsolver.stepSolver, beq_iff_eq]
  · rintro rfl
    exact completesSteps_direct _ _

section Iterative

variable (hJ : ∀ j : J, Completes (LinearOperator.nrows j) (LinearOperator.ncols j) j)

include hJ

omit [StepSolver S J α] in
theorem completesSteps_iterative (m n : Nat) :
    CompletesSteps (S := Lsmr.DampedStep α) J m n (Lsmr.DampedStep.Shaped m n) where
  operator j hj := by
    obtain ⟨rfl, rfl⟩ := Prod.mk.inj hj
    exact hJ j
  solveStep s j f dtd lambda step hs hj hf hdtd hstep := by
    obtain ⟨rfl, rfl⟩ := Prod.mk.inj hj
    exact Lsmr.DampedStep.solve_completes hs (hJ j) lambda hf hdtd hstep

omit [StepSolver S J α] in
theorem checksShapes_iterative (k l : Nat) :
    ChecksShapes (S := Lsmr.DampedStep α) J (Lsmr.DampedStep.Shaped k l)
      fun m n => k = m ∧ l = n := by
  intro P solver hsolver problem o p j x
  have hs := hsolver.stepSolver
  refine Solver.shapeChecked hsolver hs.fits_iff ?_ problem o p j x
  rintro ⟨rfl, rfl⟩
  exact completesSteps_iterative hJ _ _

end Iterative

/-- Shapes that do not fit are errors that change nothing, and with shapes that fit nothing breaks
off: in solvers with a direct or an iterative step solver of any size, new or used, over matrices of
any shape, and in LSMR alone. -/
theorem shapes_checked (α : Type) [Scalar α] :
    (∀ k, ChecksShapes (S := Dense.NormalEquations α) (Dense.Matrix α) (fun s => s.ncols = k)
        fun _ n => k = n) ∧
    (∀ k l, ChecksShapes (S := Lsmr.DampedStep α) (Dense.Matrix α) (Lsmr.DampedStep.Shaped k l)
        fun m n => k = m ∧ l = n) ∧
    (∀ k l, ChecksShapes (S := Lsmr.DampedStep α) (Sparse.Matrix α) (Lsmr.DampedStep.Shaped k l)
        fun m n => k = m ∧ l = n) ∧
    (∀ m n k (solver : Solver α (Dense.NormalEquations α)),
        Solver.new m n (.new k) = .ok solver → solver.Shaped fun s => s.ncols = k) ∧
    (∀ m n k l params (solver : Solver α (Lsmr.DampedStep α)),
        Solver.new m n (.new k l params) = .ok solver →
          solver.Shaped (Lsmr.DampedStep.Shaped k l)) ∧
    (∀ m n, (Lsmr.Workspace.new m n : Lsmr.Workspace α).Shaped m n) ∧
    ∀ (m n : Nat) (w : Lsmr.Workspace α), w.Shaped m n →
      (∀ (a : Dense.Matrix α) b x p, Lsmr.ShapeChecked m n w a b x p) ∧
      ∀ (a : Sparse.Matrix α) b x p, Lsmr.ShapeChecked m n w a b x p := by
  refine ⟨checksShapes_direct, checksShapes_iterative Dense.Matrix.completes,
    checksShapes_iterative Sparse.Matrix.completes, fun m n k solver h => ?_,
    fun m n k l params solver h => ?_, Lsmr.Workspace.shaped_new, fun m n w hw => ⟨?_, ?_⟩⟩
  · refine Solver.shaped_new ?_ h
    exact Dense.NormalEquations.ncols_new k
  · exact Solver.shaped_new (Lsmr.DampedStep.shaped_new k l params) h
  · exact fun a b x p => Lsmr.shapeChecked hw a.completes b x p
  · exact fun a b x p => Lsmr.shapeChecked hw a.completes b x p

/-- Two residuals of one parameter.  The iterative step solver was built for one row and two
columns, which have the same sum. -/
theorem shapes_checked_two_residuals :
    let J : Dense.Matrix Float := .ofFn 2 1 fun row _ => if row = 0 then 1 else 2
    let problem : Problem Float (Dense.Matrix Float) Nat :=
      ⟨fun p y _ => .done (p + 1, #[y.getD 0 0 - 1, y.getD 0 0]), fun p _ j => .done (p, j)⟩
    let solver : Solver Float (Dense.NormalEquations Float) := ⟨2, 1, .new 1, .new 2 1⟩
    let wide : Solver Float (Dense.NormalEquations Float) := ⟨2, 1, .new 2, .new 2 1⟩
    let iterative : Solver Float (Lsmr.DampedStep Float) :=
      ⟨2, 1, .new 1 2 .default, .new 2 1⟩
    (solver.Shaped (fun s => s.ncols = 1) ∧ wide.Shaped (fun s => s.ncols = 2) ∧
      iterative.Shaped (Lsmr.DampedStep.Shaped 1 2) ∧ problem.Completes 2 1) ∧
    (∃ stats, (solver.solve problem .default 0 J #[5]).ending = .finished stats) ∧
    solver.solve problem .default 0 J #[5, 5] =
      ⟨solver, 0, J, #[5, 5], .refused (.parameterLength 1 2), #[]⟩ ∧
    solver.solve problem .default 0 (.zeros 1 2) #[5] =
      ⟨solver, 0, .zeros 1 2, #[5], .refused (.operatorShape (2, 1) (1, 2)), #[]⟩ ∧
    wide.solve problem .default 0 J #[5] =
      ⟨wide, 0, J, #[5], .refused (.stepSolverShape 2 1), #[]⟩ ∧
    iterative.solve problem .default 0 J #[5] =
      ⟨iterative, 0, J, #[5], .refused (.stepSolverShape 2 1), #[]⟩ ∧
    Lsmr.solve (.new 2 1) J #[1] #[0, 0] .default = .error (.residualLength 2 1) ∧
    ∃ sol info, Lsmr.solve (.new 2 1) J #[1, 1] #[0] .default = .ok sol ∧ sol.info = some info := by
  intro J problem solver wide iterative
  have hshape : shape J = (2, 1) := by decide +kernel
  have hwide : shape (Dense.Matrix.zeros 1 2 : Dense.Matrix Float) = (1, 2) := by decide +kernel
  have hbuffers := Buffers.sized_new (α := Float) 2 1
  have hsolver : solver.Shaped fun s => s.ncols = 1 := ⟨hbuffers, rfl⟩
  have hother : wide.Shaped fun s => s.ncols = 2 := ⟨hbuffers, rfl⟩
  have hiterative : iterative.Shaped (Lsmr.DampedStep.Shaped 1 2) :=
    ⟨hbuffers, Lsmr.DampedStep.shaped_new 1 2 .default⟩
  have hproblem : problem.Completes 2 1 :=
    { residuals := fun p y out _ _ => ⟨_, rfl, rfl⟩
      jacobian := fun p y j _ hj => ⟨_, rfl, hj⟩ }
  obtain ⟨hdirects, hiteratives, -, -, -, hworkspaces, hlsmr⟩ := shapes_checked Float
  have hchecked := hdirects 1 solver hsolver problem .default 0
  refine ⟨⟨hsolver, hother, hiterative, hproblem⟩, ?_, ?_, ?_, ?_, ?_, ?_, ?_⟩
  · obtain ⟨-, t, status, -, hends⟩ := (hchecked J #[5]).ends rfl hshape rfl hproblem
    exact ⟨t.stats status, by rw [hends]; rfl⟩
  · exact (hchecked J #[5, 5]).parameterLength (by decide)
  · have hne : shape (Dense.Matrix.zeros 1 2 : Dense.Matrix Float) ≠ (2, 1) := by
      rw [hwide]
      decide
    have hrefused := (hchecked (.zeros 1 2) #[5]).operatorShape rfl hne
    rwa [hwide] at hrefused
  · exact (hdirects 2 wide hother problem .default 0 J #[5]).stepSolverShape rfl hshape (by decide)
  · exact (hiteratives 1 2 iterative hiterative problem .default 0 J #[5]).stepSolverShape rfl
      hshape (by decide)
  · exact ((hlsmr 2 1 _ (hworkspaces 2 1)).1 J #[1] #[0, 0] .default).residualLength hshape
      (by decide)
  · obtain ⟨sol, info, hsol, hinfo, -⟩ :=
      ((hlsmr 2 1 _ (hworkspaces 2 1)).1 J #[1, 1] #[0] .default).ends hshape rfl rfl
    exact ⟨sol, info, hsol, hinfo⟩

end LeastSquares.Marquardt
