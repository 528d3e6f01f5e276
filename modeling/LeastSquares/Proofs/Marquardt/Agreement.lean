import Mathlib
import LeastSquares.Proofs.Dense.NormalEquations
import LeastSquares.Proofs.Lsmr.DampedStep
import LeastSquares.Proofs.Marquardt.Coordinates
import LeastSquares.Proofs.Operators.Overwriting

/-!
# Levenberg–Marquardt: step solvers that agree

Two solves whose step solvers both answer with the step stay side by side: at every loop head they
hold the same parameters, residual and damping, and they have judged all iterations alike.  Only
the inner iterations and the records of the step solvers differ.  They are one solve in the same
coordinates, whose questions are damped problems.
-/

namespace LeastSquares

namespace Marquardt

open Exact

/-- The reports of the iterations, without their numbers of inner iterations. -/
def verdicts {α : Type} (events : Array (Event α)) : List (IterationReport α) :=
  events.toList.filterMap fun
    | .report r => some { r with inner := 0 }
    | _ => none

def Ending.uncounted {α : Type} : Ending α → Ending α
  | .finished stats => .finished { stats with inner := 0 }
  | ending => ending

/-- The damping stays positive, and so does the diagonal that it scales. -/
structure Options.Damps (o : Options ℝ) : Prop where
  lambdaMin : 0 < o.lambdaMin
  lambdaMin_le : o.lambdaMin ≤ o.lambdaMax
  lambdaFactor : 1 ≤ o.lambdaFactor
  minDiagonal : 0 < o.minDiagonal

theorem Options.damps_default : (Options.default : Options ℝ).Damps := by
  constructor <;> norm_num [Options.default]

theorem Options.Damps.clamped_pos {o : Options ℝ} (ho : o.Damps) (lambda : ℝ) :
    0 < State.clamped o lambda := by
  simp [State.clamped, ho.lambdaMin, ho.lambdaMin.trans_le ho.lambdaMin_le]

theorem Options.Damps.lowered_pos {o : Options ℝ} (ho : o.Damps) (lambda : ℝ) :
    0 < State.lowered o lambda := by
  simp [State.lowered, ho.lambdaMin]

theorem Options.Damps.raised_pos {o : Options ℝ} (ho : o.Damps) {lambda : ℝ}
    (hlambda : 0 < lambda) : 0 < State.raised o lambda := by
  have hfactor : 0 < o.lambdaFactor := one_pos.trans_le ho.lambdaFactor
  simpa [State.raised] using
    ⟨mul_pos hlambda hfactor, ho.lambdaMin.trans_le ho.lambdaMin_le⟩

variable {P : Type} {m n : ℕ}

/-- What the callbacks do, and what they write, depends on the parameters alone. -/
structure Problem.Pure (problem : Problem ℝ (Dense.Matrix ℝ) P) (m n : ℕ) : Prop where
  residuals : ∀ p q (y out out' : Array ℝ), y.size = n → out.size = m → out'.size = m →
    Outcome.Alike (fun a b => a.2 = b.2 ∧ a.2.size = m) (fun _ _ => True)
      (problem.residuals p y out) (problem.residuals q y out')
  jacobian : ∀ p q (y : Array ℝ) (J J' : Dense.Matrix ℝ), y.size = n → J.nrows = m → J.ncols = n →
    J'.nrows = m → J'.ncols = n →
    Outcome.Alike (fun a b => a.2 = b.2 ∧ a.2.nrows = m ∧ a.2.ncols = n) (fun _ _ => True)
      (problem.jacobian p y J) (problem.jacobian q y J')

/-! ## What the solves have in common -/

/-- The same vectors in both solves, whatever is counted and recorded of the inner iterations. -/
def Chart.uncounted : Chart ℝ := { Chart.identity with counts := fun _ _ => True, records := false }

theorem Chart.lawful_uncounted (m n : ℕ) (o : Options ℝ) : Chart.uncounted.Lawful m n o :=
  { Chart.lawful_identity m n o with
    counts_zero := trivial
    counts_add := fun _ _ => trivial }

def Event.verdict? {α : Type} : Event α → Option (IterationReport α)
  | .report r => some { r with inner := 0 }
  | _ => none

theorem Event.Charted.verdict?_eq {e e' : Event ℝ} (h : e.Charted .uncounted e') :
    e'.verdict? = e.verdict? := by
  cases h with
  | residuals | jacobian | step | record | finished => rfl
  | report r h =>
    obtain rfl : r.stepInf = _ := h
    rfl

theorem verdicts_eq_common (events : Array (Event ℝ)) :
    verdicts events = (Chart.uncounted.common events).filterMap Event.verdict? := by
  rw [Chart.common, List.filterMap_filter]
  refine List.filterMap_congr fun e _ => ?_
  cases e <;> rfl

theorem EventsCharted.verdicts_eq {events events' : Array (Event ℝ)}
    (h : EventsCharted .uncounted events events') : verdicts events' = verdicts events := by
  rw [verdicts_eq_common, verdicts_eq_common]
  unfold EventsCharted at h
  generalize Chart.uncounted.common events = es at h ⊢
  generalize Chart.uncounted.common events' = es' at h ⊢
  induction h with
  | nil => rfl
  | cons he _ ih => rw [List.filterMap_cons, List.filterMap_cons, he.verdict?_eq, ih]

theorem Ending.Charted.uncounted_eq {e e' : Ending ℝ} (h : e.Charted .uncounted e') :
    e'.uncounted = e.uncounted := by
  cases h with
  | refused | brokenOff => rfl
  | finished stats h =>
    obtain rfl : stats.stepInf = _ := h
    rfl

/-! ## Solves side by side -/

variable {S S' : Type} {problem : Problem ℝ (Dense.Matrix ℝ) P} {o : Options ℝ} {Good : S → Prop}
  {Good' : S' → Prop}

def agreement (P : Type) (m n : ℕ) (Good : S → Prop) (Good' : S' → Prop) :
    Pairing ℝ S S' (Dense.Matrix ℝ) (Dense.Matrix ℝ) P P where
  stepSolver s s' := Good s ∧ Good' s'
  layout J J' := (J.nrows = m ∧ J.ncols = n) ∧ J'.nrows = m ∧ J'.ncols = n
  written J J' := J = J' ∧ J.nrows = m ∧ J.ncols = n
  problem _ _ := True
  looks := False
  damping lambda := 0 < lambda
  diagonal dtd := ∀ j, 0 < vec n dtd j

theorem Options.Damps.kept (ho : o.Damps) (Good : S → Prop) (Good' : S' → Prop) :
    (agreement P m n Good Good').Kept n o where
  clamped := ho.clamped_pos o.lambdaInit
  raised h := ho.raised_pos h
  lowered _ := ho.lowered_pos _
  diagonal {squares} hsize := fun j => by simp [hsize, ho.minDiagonal]

variable [StepSolver S (Dense.Matrix ℝ) ℝ] [StepSolver S' (Dense.Matrix ℝ) ℝ]

theorem answers_of_answersSteps (hS : AnswersSteps m n Good) (hS' : AnswersSteps m n Good') {s : S}
    {s' : S'} (hs : Good s) (hs' : Good' s') {J : Dense.Matrix ℝ} {f dtd step step' : Array ℝ}
    {lambda : ℝ} (h : DampedProblem m n J f dtd lambda step) (hstep' : step'.size = n) :
    Outcome.Alike (Chart.uncounted.Answers n fun s s' => Good s ∧ Good' s')
      (fun r r' => Chart.uncounted.records = true → r'.log = r.log)
      (StepSolver.solveStep s J f dtd lambda step)
      (StepSolver.solveStep s' J f dtd lambda step') := by
  obtain ⟨a, inner, ha, hinner, hgood, hsize, hstep⟩ := hS.solveStep _ _ _ _ _ _ hs h
  obtain ⟨b, inner', hb, hinner', hgood', hsize', hstepb⟩ :=
    hS'.solveStep _ _ _ _ _ _ hs' { h with size_step := hstep' }
  have heq : b.step = a.step := vec_injective hsize' hsize (hstepb.unique h.damped hstep)
  rw [ha, hb]
  refine .done ⟨⟨hgood, hgood'⟩, ?_, nofun, hsize, hsize', fun _ => heq⟩
  rw [hinner, hinner']
  exact .some trivial

theorem coordinated_agreement (ho : o.Damps) (hproblem : problem.Pure m n)
    (hS : AnswersSteps m n Good) (hS' : AnswersSteps m n Good') :
    Coordinated m n o .uncounted (agreement P m n Good Good') problem problem where
  lawful := Chart.lawful_uncounted m n o
  kept := ho.kept Good Good'
  residuals {p q} y out out' _ hy hout hout' _ :=
    (hproblem.residuals p q y out out' hy hout hout').imp fun ⟨heq, hsize⟩ =>
      ⟨trivial, heq.symm, hsize⟩
  jacobian {p q} y J J' _ hy hJ :=
    (hproblem.jacobian p q y J J' hy hJ.1.1 hJ.1.2 hJ.2.1 hJ.2.2).imp fun hwritten =>
      ⟨trivial, hwritten⟩
  layout := by
    rintro J _ ⟨rfl, hJ⟩
    exact ⟨hJ, hJ⟩
  columnSquares := by
    rintro J _ out out' ⟨rfl, -⟩ hout hout'
    exact ((J.overwrites m n).columnSquares out out' hout hout').imp fun ⟨heq, hsize⟩ =>
      ⟨hsize, heq ▸ rfl⟩
  predict := by
    rintro J _ p f ⟨rfl, -⟩ hp hf
    exact ((J.overwrites m n).apply 1 p 1 f hp hf).imp fun ⟨heq, hsize⟩ => ⟨heq.symm, hsize⟩
  solveStep := by
    rintro s s' J _ f dtd lambda step step' ⟨hs, hs'⟩ ⟨rfl, hm, hn⟩ hf hdtd hstep hstep' hdiagonal
      hlambda
    exact answers_of_answersSteps hS hS' hs hs' ⟨hm, hn, hf, hdtd, hstep, fun j =>
      mul_pos (pow_pos hlambda 2) (hdiagonal j)⟩ hstep'

structure Solver.Ready (m n : ℕ) (Good : S → Prop) (solver : Solver ℝ S) : Prop where
  nrows : solver.nrows = m
  ncols : solver.ncols = n
  sized : solver.buffers.Sized m n
  good : Good solver.stepSolver

theorem solve_uncounted (ho : o.Damps) (hproblem : problem.Pure m n) (hS : AnswersSteps m n Good)
    (hS' : AnswersSteps m n Good') {solver : Solver ℝ S} {solver' : Solver ℝ S'}
    (hsolver : solver.Ready m n Good) (hsolver' : solver'.Ready m n Good') (p : P)
    (J : Dense.Matrix ℝ) (x : Array ℝ) :
    (solver.solve problem o p J x).x = (solver'.solve problem o p J x).x ∧
      (solver.solve problem o p J x).ending.uncounted =
        (solver'.solve problem o p J x).ending.uncounted ∧
      verdicts (solver.solve problem o p J x).events =
        verdicts (solver'.solve problem o p J x).events := by
  have hcharted : (solver.solve problem o p J x).Charted m n .uncounted
      (fun s s' => Good s ∧ Good' s') (solver'.solve problem o p J x) :=
    solve_charted (χ := .uncounted) (ρ := agreement P m n Good Good')
      ((hS.fits _ hsolver.good).trans (hS'.fits _ hsolver'.good).symm)
      (fun _ => coordinated_agreement ho hproblem hS hS')
      ⟨hsolver.nrows, hsolver'.nrows, hsolver.ncols, hsolver'.ncols, hsolver.sized, hsolver'.sized,
        hsolver.good, hsolver'.good⟩
      False.elim trivial (fun hJ => ⟨Prod.mk.inj hJ, Prod.mk.inj hJ⟩) rfl rfl
  exact ⟨hcharted.x.symm, hcharted.ending.uncounted_eq.symm, hcharted.events.verdicts_eq.symm⟩

/-- The direct and the iterative step solver answer every damped problem with the same step, the
one solution of its normal equations.  So two solves that differ in their step solvers judge all
iterations alike and end with the same parameters, status, residual and damping. -/
theorem stepSolvers_agree {direct : Solver ℝ (Dense.NormalEquations ℝ)}
    {iterative : Solver ℝ (Lsmr.DampedStep ℝ)} (hdirect : direct.Ready m n (·.ncols = n))
    (hiterative : iterative.Ready m n (·.Sized m n)) :
    (∀ J f dtd lambda step step', DampedProblem m n J f dtd lambda step → step'.size = n →
      ∃ a inner b inner', direct.stepSolver.solve J f dtd lambda step = .done a ∧
        a.inner = some inner ∧ iterative.stepSolver.solve J f dtd lambda step' = .done b ∧
        b.inner = some inner' ∧ a.step = b.step ∧ a.step.size = n ∧
        ∀ p, IsStep (entries m n J) (vec m f) (vec n dtd) lambda p ↔ p = vec n a.step) ∧
    ∀ {P : Type} (problem : Problem ℝ (Dense.Matrix ℝ) P) (o : Options ℝ) (p : P)
      (J : Dense.Matrix ℝ) (x : Array ℝ), problem.Pure m n → o.Damps →
      (direct.solve problem o p J x).x = (iterative.solve problem o p J x).x ∧
        (direct.solve problem o p J x).ending.uncounted =
          (iterative.solve problem o p J x).ending.uncounted ∧
        verdicts (direct.solve problem o p J x).events =
          verdicts (iterative.solve problem o p J x).events := by
  have hS := Dense.NormalEquations.answersSteps m n
  have hS' := Lsmr.DampedStep.answersSteps m n
  constructor
  · intro J f dtd lambda step step' h hstep'
    obtain ⟨a, inner, ha, hinner, -, hsize, hstep⟩ := hS.solveStep _ _ _ _ _ _ hdirect.good h
    obtain ⟨b, inner', hb, hinner', -, hsize', hstepb⟩ :=
      hS'.solveStep _ _ _ _ _ _ hiterative.good { h with size_step := hstep' }
    have heq : a.step = b.step := vec_injective hsize hsize' (hstep.unique h.damped hstepb)
    refine ⟨a, inner, b, inner', ha, hinner, hb, hinner', heq, hsize, fun p => ?_⟩
    constructor
    · intro hp
      exact hp.unique h.damped hstep
    · rintro rfl
      exact hstep
  · intro P problem o p J x hproblem ho
    exact solve_uncounted ho hproblem hS hS' hdirect hiterative p J x

/-- Both step solvers on three residuals of two parameters. -/
theorem stepSolvers_agree_affine :
    let direct : Solver ℝ (Dense.NormalEquations ℝ) := ⟨3, 2, .new 2, .new 3 2⟩
    let iterative : Solver ℝ (Lsmr.DampedStep ℝ) :=
      ⟨3, 2, .new 3 2 ⟨0, 0, 0, 2, 0⟩, .new 3 2⟩
    let J : Dense.Matrix ℝ := .ofFn 3 2 fun row col => row + 2 * col - 1
    let residuals (y : Array ℝ) : Array ℝ :=
      #[y.getD 1 0 - y.getD 0 0, 2 * y.getD 1 0 - 2, y.getD 0 0 + 3 * y.getD 1 0 - 5]
    let problem : Problem ℝ (Dense.Matrix ℝ) Unit :=
      ⟨fun p y _ => .done (p, residuals y), fun p _ _ => .done (p, J)⟩
    direct.Ready 3 2 (·.ncols = 2) ∧ iterative.Ready 3 2 (·.Sized 3 2) ∧
      DampedProblem 3 2 J #[1, 2, 3] #[1, 4] 1 #[0, 0] ∧
      (∃ a b, direct.stepSolver.solve J #[1, 2, 3] #[1, 4] 1 #[0, 0] = .done a ∧
        iterative.stepSolver.solve J #[1, 2, 3] #[1, 4] 1 #[0, 0] = .done b ∧ a.step = b.step) ∧
      problem.Pure 3 2 ∧ (Options.default : Options ℝ).Damps ∧
      (direct.solve problem .default () J #[3, 4]).x =
        (iterative.solve problem .default () J #[3, 4]).x := by
  intro direct iterative J residuals problem
  have hdirect : direct.Ready 3 2 (·.ncols = 2) :=
    ⟨rfl, rfl, Buffers.sized_new 3 2, Dense.NormalEquations.ncols_new 2⟩
  have hiterative : iterative.Ready 3 2 (·.Sized 3 2) :=
    ⟨rfl, rfl, Buffers.sized_new 3 2,
      Lsmr.DampedStep.sized_new ⟨rfl, rfl, le_rfl⟩ rfl (by norm_num)⟩
  have hncols : J.ncols = 2 := by simp [J, Dense.Matrix.ofFn, Dense.Matrix.ncols]
  have hstep : DampedProblem 3 2 J #[1, 2, 3] #[1, 4] 1 #[0, 0] :=
    ⟨rfl, hncols, rfl, rfl, rfl, fun j => by fin_cases j <;> simp⟩
  have hproblem : problem.Pure 3 2 :=
    ⟨fun p q y out out' _ _ _ => .done ⟨rfl, rfl⟩, fun p q y K K' _ _ _ _ _ =>
      .done ⟨rfl, rfl, hncols⟩⟩
  obtain ⟨hsteps, hsolves⟩ := stepSolvers_agree hdirect hiterative
  obtain ⟨a, inner, b, inner', ha, -, hb, -, heq, -, -⟩ := hsteps _ _ _ _ _ #[0, 0] hstep rfl
  exact ⟨hdirect, hiterative, hstep, ⟨a, b, ha, hb, heq⟩, hproblem, Options.damps_default,
    (hsolves problem .default () J #[3, 4] hproblem Options.damps_default).1⟩

end Marquardt

end LeastSquares
