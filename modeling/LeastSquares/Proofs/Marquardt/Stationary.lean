import Mathlib
import LeastSquares.Proofs.Marquardt.Coherence
import LeastSquares.Proofs.Marquardt.Frozen

/-!
# Levenberg–Marquardt: zero steps and stationary points

A solve never looks at the gradient `Bᵀ f`; it ends where a step is zero in every entry.  Both step
solvers rest exactly at the stationary points, the direct one because a damped normal system has one
solution, and the iterative one because no inner solve that starts to move returns to zero.  So a
solve that ends on its gradient stands at a stationary point, and a solve that comes to one ends.
-/

namespace LeastSquares.Marquardt

open Exact
open Lsmr (DampedStep)
open LeastSquares.Dense (NormalEquations)
open Matrix (toEuclideanLin)

/-- The step solver answers a zero step at stationary points only, and at each of them as long as
every parameter is damped. -/
structure RestsAtStationary {S J : Type} [LinearOperator J ℝ] [StepSolver S J ℝ] (m n : ℕ)
    (Good : S → Prop) : Prop where
  stationary : ∀ (B : Matrix (Fin m) (Fin n) ℝ) (q : Question ℝ S J),
    q.Posed m n Good (fun j => Realizes j (toEuclideanLin B)) → q.answer.inner.isSome = true →
      q.answer.step.all (· == 0) = true → Stationary B (vec m q.residuals)
  rests : ∀ (s : S) (j : J) (B : Matrix (Fin m) (Fin n) ℝ) (f dtd : Array ℝ) (lambda : ℝ)
    (step : Array ℝ), Good s → Realizes j (toEuclideanLin B) → f.size = m → dtd.size = n →
      step.size = n → Stationary B (vec m f) → (∀ i, 0 < lambda ^ 2 * vec n dtd i) →
        ∃ answer inner, StepSolver.solveStep s j f dtd lambda step = .done answer ∧
          answer.inner = some inner ∧ answer.step.all (· == 0) = true

theorem restsAtStationary_direct (m n : ℕ) :
    RestsAtStationary (J := Dense.Matrix ℝ) m n fun s : NormalEquations ℝ => s.ncols = n where
  stationary B q hq hsome hzero := by
    have hB := hq.jacobian
    obtain ⟨a, ha, -, hsize, -, hstep⟩ := NormalEquations.solve_ends q.lambda hq.good hB.nrows
      hB.ncols hq.residuals hq.dtd hq.buffer
    obtain rfl : a = q.answer := Outcome.done.inj (ha.symm.trans hq.answer)
    have hstep := hstep hsome
    rw [(vec_eq_zero_iff hsize).2 hzero, hB.entries_eq] at hstep
    exact isStep_zero_iff.1 hstep
  rests s j B f dtd lambda step hs hj hf hdtd hstep hstationary hdamped := by
    obtain ⟨a, inner, ha, hinner, -, hsize, hisStep⟩ :=
      (NormalEquations.answersSteps m n).solveStep s j f dtd lambda step hs
        ⟨hj.nrows, hj.ncols, hf, hdtd, hstep, hdamped⟩
    rw [hj.entries_eq] at hisStep
    exact ⟨a, inner, ha, hinner, (vec_eq_zero_iff hsize).1
      ((hisStep.eq_zero_iff hdamped).2 hstationary)⟩

theorem restsAtStationary_iterative {J : Type} [LinearOperator J ℝ] (m n : ℕ) :
    RestsAtStationary (J := J) m n fun s : DampedStep ℝ => s.Shaped m n where
  stationary B q hq _ hzero := by
    obtain ⟨a, -, ha, -, -, hsize, hprogress⟩ := DampedStep.solve_progress hq.jacobian hq.good
      hq.residuals hq.dtd hq.buffer q.lambda
    obtain rfl : a = q.answer := Outcome.done.inj (ha.symm.trans hq.answer)
    rcases hprogress with ⟨hgradient, -⟩ | ⟨-, hmoves, -⟩
    · exact stationary_iff.2 hgradient
    · exact absurd ((vec_eq_zero_iff hsize).2 hzero) hmoves
  rests s j B f dtd lambda step hs hj hf hdtd hstep hstationary _ := by
    obtain ⟨a, inner, ha, hinner, -, hsize, hprogress⟩ :=
      DampedStep.solve_progress hj hs hf hdtd hstep lambda
    rcases hprogress with ⟨-, hzero⟩ | ⟨hgradient, -⟩
    · exact ⟨a, inner, ha, hinner, (vec_eq_zero_iff hsize).1 hzero⟩
    · exact absurd (stationary_iff.1 hstationary) hgradient

section Solves

variable {S J P : Type} [LinearOperator J ℝ] [StepSolver S J ℝ]

section

variable (solver : Solver ℝ S) (F : Array ℝ → Array ℝ)
  (B : Array ℝ → Matrix (Fin solver.nrows) (Fin solver.ncols) ℝ) (problem : Problem ℝ J P)
  (o : Options ℝ) (p : P) (jacobian : J) (x : Array ℝ)

structure Models : Prop where
  residuals : problem.Writes F solver.nrows solver.ncols
  columnSquares : ∀ (j : J) (out squares : Array ℝ), out.size = solver.ncols →
    LinearOperator.columnSquares j out = .done squares → squares.size = solver.ncols
  jacobian : ∀ k s, Head solver problem o p jacobian x k s → s.stale = true →
    ∀ p' j, problem.jacobian s.problem s.x s.jacobian = .done (p', j) →
      Realizes j (toEuclideanLin (B s.x))

/-- A solve ends on its gradient at stationary points only, and at each of them that it comes to. -/
structure MarksStationary : Prop where
  stationary : ∀ stats, (solver.solve problem o p jacobian x).ending = .finished stats →
    stats.status = .convergedGradient →
      Stationary (B (solver.solve problem o p jacobian x).x)
        (vec solver.nrows (F (solver.solve problem o p jacobian x).x))
  ends : ∀ k s r, Head solver problem o p jacobian x k s → k < o.maxIters →
    (s.residual == 0) = false →
    ({ s with outer := s.outer + 1 }).refresh problem o = .done r →
    (∀ i, 0 < r.lambda ^ 2 * vec solver.ncols r.buffers.dtd i) →
    Stationary (B s.x) (vec solver.nrows (F s.x)) →
      ∃ stats, (solver.solve problem o p jacobian x).ending = .finished stats ∧
        stats.status = .convergedGradient ∧ stats.outer = k + 1 ∧
        (solver.solve problem o p jacobian x).x = s.x

end

variable {F : Array ℝ → Array ℝ} {solver : Solver ℝ S}
  {B : Array ℝ → Matrix (Fin solver.nrows) (Fin solver.ncols) ℝ} {problem : Problem ℝ J P}
  {o : Options ℝ} {p : P} {jacobian : J} {x : Array ℝ} {Good : S → Prop}

theorem models_of_constant {S P : Type} [StepSolver S (Dense.Matrix ℝ) ℝ] {solver : Solver ℝ S}
    {C : Matrix (Fin solver.nrows) (Fin solver.ncols) ℝ} {o : Options ℝ} {p : P}
    {jacobian j : Dense.Matrix ℝ} {x : Array ℝ} (hF : ∀ y, (F y).size = solver.nrows)
    (hj : Realizes j (toEuclideanLin C)) :
    Models solver F (fun _ => C) ⟨fun p y _ => .done (p, F y), fun p _ _ => .done (p, j)⟩ o p
      jacobian x where
  residuals := ⟨fun y _ => hF y, fun _ _ _ _ _ _ _ h => (Prod.mk.inj (Outcome.done.inj h)).2.symm⟩
  columnSquares _ _ _ hout h := (Outcome.size_fill h).trans hout
  jacobian := evaluated_of_constant hj

theorem Models.inPlace (h : Models solver F B problem o p jacobian x) :
    problem.InPlace solver.nrows solver.ncols where
  residuals p' y out p'' r hy hout hr := by
    rw [h.residuals.2 p' y out p'' r hy hout hr]
    exact h.residuals.1 y hy
  columnSquares := h.columnSquares

variable (hmodels : Models solver F B problem o p jacobian x)
  (hK : ∀ C : Matrix (Fin solver.nrows) (Fin solver.ncols) ℝ, Sustains solver.nrows solver.ncols
    Good (fun j => Realizes j (toEuclideanLin C)) problem)
  (hsolver : solver.buffers.Sized solver.nrows solver.ncols) (hgood : Good solver.stepSolver)

include hmodels hK hsolver hgood

theorem Models.sound_of_head {k : ℕ} {s : State ℝ S J P}
    (head : Head solver problem o p jacobian x k s) :
    s.Sound solver.nrows solver.ncols Good fun j => Realizes j (toEuclideanLin (B s.x)) := by
  induction head with
  | first fits evaluates =>
    have hx := (Solver.misfit?_eq_none_iff.1 fits).1
    have hsize := hmodels.inPlace.residuals _ _ _ _ _ hx hsolver.residuals evaluates
    exact ⟨{ hsolver with residuals := hsize }, hx, rfl, hgood, nofun⟩
  | next head _ _ goes ih =>
    have goes := congrArg Step.state? goes
    have hs := (ih.iterate (hK _) (hmodels.jacobian _ _ head) goes).1
    exact { hs with jacobian := fun hfresh => x_of_iterate goes hfresh ▸ hs.jacobian hfresh }

/-- A step solver that rests at stationary points makes a solve mark them. -/
theorem Models.marksStationary
    (hrests : RestsAtStationary (J := J) solver.nrows solver.ncols Good) :
    MarksStationary solver F B problem o p jacobian x := by
  constructor
  · intro stats h hstatus
    obtain ⟨t, status, exit, rfl, hrun⟩ := exit_of_finished h
    obtain rfl : status = .convergedGradient := hstatus
    cases exit with
    | @stopped k s _ _ head more nonzero stops =>
      rcases of_iterate_stop stops with
        ⟨a, inner, asks, hzero, rfl, -⟩ | ⟨_, _, -, -, -, -, hstatus⟩
      · have hs := hmodels.sound_of_head hK hsolver hgood head
        obtain ⟨-, -, hx, q, hq, hinner, -, hresiduals, hstep⟩ :=
          hs.asks (hK _) (hmodels.jacobian _ _ head) asks
        have hcoherent := coherent_of_head hsolver hmodels.residuals head
        have hF : q.residuals = F s.x := by
          rw [← hresiduals, (hcoherent.asks asks).1.residuals, hx]
        have hstationary := hrests.stationary _ q hq (by rw [hinner]; rfl) (hstep ▸ hzero)
        rw [hrun]
        change Stationary (B a.x) (vec _ (F a.x))
        rw [hx, ← hF]
        exact hstationary
      · cases hstatus
  · intro k s r head more nonzero hr hdamped hstationary
    have hs := hmodels.sound_of_head hK hsolver hgood head
    have hF := (coherent_of_head hsolver hmodels.residuals head).residuals
    -- The question is about the residuals and the Jacobian of `s.x`, evaluated now or before.
    obtain ⟨hsound, hfresh, -⟩ := hs.refresh (hK _) (hmodels.jacobian _ _ head) hr
    have hresiduals : r.buffers.residuals = s.buffers.residuals := by
      rcases State.refresh_done hr with ⟨-, rfl⟩ | ⟨-, _, _, _, -, -, rfl⟩ <;> rfl
    obtain ⟨answer, inner, hanswer, hinner, hzero⟩ := hrests.rests r.stepSolver r.jacobian (B s.x)
      r.buffers.residuals r.buffers.dtd r.lambda r.buffers.step hsound.good
      (hsound.jacobian hfresh) hsound.buffers.residuals hsound.buffers.dtd hsound.buffers.step
      (by rwa [hresiduals, hF]) hdamped
    have asks : Asks problem o s _ (some inner) :=
      ⟨r, hr, hinner ▸ State.askStep_eq_done hanswer⟩
    have exit := Exit.stopped head more nonzero (asks.iterate_eq hzero)
    refine ⟨_, finished_of_exit exit, rfl, ?_, ?_⟩
    · exact asks.frame.2.2.2.trans (congrArg (· + 1) (outer_of_head head))
    · rw [solve_of_exit exit]
      exact asks.frame.1

omit hmodels hK hsolver hgood in
theorem MarksStationary.ends_at_start (h : MarksStationary solver F B problem o p jacobian x)
    (ho : o.Damps) (more : 0 < o.maxIters) {p' p'' : P} {r squares : Array ℝ} {j : J}
    (fits : solver.misfit? jacobian x = none)
    (evaluates : problem.residuals p x solver.buffers.residuals = .done (p', r))
    (nonzero : (Vec.dot r r == 0) = false)
    (hj : problem.jacobian p' x jacobian = .done (p'', j))
    (hsquares : LinearOperator.columnSquares j solver.buffers.dtd = .done squares)
    (hsize : squares.size = solver.ncols) (hstationary : Stationary (B x) (vec _ (F x))) :
    ∃ stats, (solver.solve problem o p jacobian x).ending = .finished stats ∧
      stats.status = .convergedGradient ∧ stats.outer = 1 ∧
      (solver.solve problem o p jacobian x).x = x := by
  have head : Head solver problem o p jacobian x 0 (solver.evaluated o p jacobian x p' r) :=
    .first fits evaluates (isFinite_eq_true _)
  have hr := State.refresh_eq_done (s := { solver.evaluated o p jacobian x p' r with outer := 1 }) o
    rfl hj hsquares
  refine h.ends 0 _ _ head more nonzero hr (fun i => ?_) hstationary
  have hdiagonal : 0 < vec solver.ncols (squares.map fun d => Scalar.max d o.minDiagonal) i := by
    simp [hsize, ho.minDiagonal]
  exact mul_pos (pow_pos (ho.clamped_pos o.lambdaInit) 2) hdiagonal

end Solves

/-- With either step solver, a solve that ends on a zero step stands at a stationary point, and one
that comes to a stationary point where every parameter is damped ends there in that iteration. -/
theorem solve_marks_stationary :
    (∀ {P : Type} {F : Array ℝ → Array ℝ} {solver : Solver ℝ (NormalEquations ℝ)}
      {B : Array ℝ → Matrix (Fin solver.nrows) (Fin solver.ncols) ℝ}
      {problem : Problem ℝ (Dense.Matrix ℝ) P} {o : Options ℝ} {p : P} {jacobian : Dense.Matrix ℝ}
      {x : Array ℝ}, Models solver F B problem o p jacobian x →
      solver.buffers.Sized solver.nrows solver.ncols → solver.stepSolver.ncols = solver.ncols →
      MarksStationary solver F B problem o p jacobian x) ∧
    (∀ {J P : Type} [LinearOperator J ℝ] {F : Array ℝ → Array ℝ}
      {solver : Solver ℝ (DampedStep ℝ)}
      {B : Array ℝ → Matrix (Fin solver.nrows) (Fin solver.ncols) ℝ} {problem : Problem ℝ J P}
      {o : Options ℝ} {p : P} {jacobian : J} {x : Array ℝ}, Models solver F B problem o p jacobian x →
      solver.buffers.Sized solver.nrows solver.ncols →
      solver.stepSolver.Shaped solver.nrows solver.ncols →
      MarksStationary solver F B problem o p jacobian x) := by
  constructor
  · intro P F solver B problem o p jacobian x hmodels hsolver hgood
    exact hmodels.marksStationary (fun C => sustains_direct hmodels.inPlace fun J hJ => ⟨C, hJ⟩)
      hsolver hgood (restsAtStationary_direct _ _)
  · intro J P _ F solver B problem o p jacobian x hmodels hsolver hgood
    exact hmodels.marksStationary (fun C => sustains_damped hmodels.inPlace fun j hj => ⟨C, hj⟩)
      hsolver hgood (restsAtStationary_iterative _ _)

/-- The second residual of two does not depend on the parameter, and the first one is zero at the
start.  Both step solvers see this in the first iteration. -/
theorem solve_marks_stationary_flat :
    let J : Dense.Matrix ℝ := .ofFn 2 1 fun row _ => if row = 0 then 1 else 0
    let F : Array ℝ → Array ℝ := fun y => #[y.getD 0 0, 1]
    let problem : Problem ℝ (Dense.Matrix ℝ) Unit :=
      ⟨fun p y _ => .done (p, F y), fun p _ _ => .done (p, J)⟩
    let direct : Solver ℝ (NormalEquations ℝ) := ⟨2, 1, .new 1, .new 2 1⟩
    let iterative : Solver ℝ (DampedStep ℝ) := ⟨2, 1, .new 2 1 .default, .new 2 1⟩
    Models direct F (fun _ => entries 2 1 J) problem .default () J #[0] ∧
      Models iterative F (fun _ => entries 2 1 J) problem .default () J #[0] ∧
      Stationary (entries 2 1 J) (vec 2 #[0, 1]) ∧
      (∃ stats, (direct.solve problem .default () J #[0]).ending = .finished stats ∧
        stats.status = .convergedGradient ∧ stats.outer = 1 ∧
        (direct.solve problem .default () J #[0]).x = #[0]) ∧
      ∃ stats, (iterative.solve problem .default () J #[0]).ending = .finished stats ∧
        stats.status = .convergedGradient ∧ stats.outer = 1 ∧
        (iterative.solve problem .default () J #[0]).x = #[0] := by
  intro J F problem direct iterative
  have hJ : Realizes J (linear 2 1 J) := realizes_ofFn 2 1 _
  have hmodels : Models direct F (fun _ => entries 2 1 J) problem .default () J #[0] :=
    models_of_constant (fun _ => rfl) hJ
  have hmodels' : Models iterative F (fun _ => entries 2 1 J) problem .default () J #[0] :=
    models_of_constant (fun _ => rfl) hJ
  have hstationary : Stationary (entries 2 1 J) (vec 2 #[0, 1]) := by
    rw [stationary_iff]
    ext i
    change LinearMap.adjoint (linear 2 1 J) (vec 2 #[0, 1]) i = 0
    rw [adjoint_linear_apply]
    simp [J, entries_ofFn]
  have ho := Options.damps_default
  have more : 0 < (Options.default : Options ℝ).maxIters := by
    norm_num [Options.default]
  have nonzero : (Vec.dot #[(0 : ℝ), 1] #[0, 1] == 0) = false := by
    norm_num [Vec.dot]
  obtain ⟨squares, hsquares, hnorms⟩ := J.columnSquares_done hJ.ncols
  have hfits : direct.stepSolver.ncols = 1 := NormalEquations.ncols_new _
  have hgood : iterative.stepSolver.Shaped 2 1 := DampedStep.shaped_new 2 1 _
  have hmarks := solve_marks_stationary.1 hmodels (Buffers.sized_new 2 1) hfits
  have hmarks' := solve_marks_stationary.2 hmodels' (Buffers.sized_new 2 1) hgood
  have fits : direct.misfit? J #[0] = none := Solver.misfit?_eq_none_iff.2
    ⟨rfl, Prod.ext hJ.nrows hJ.ncols, by simpa [StepSolver.fits] using hfits⟩
  have fits' : iterative.misfit? J #[0] = none := Solver.misfit?_eq_none_iff.2
    ⟨rfl, Prod.ext hJ.nrows hJ.ncols, hgood.fits_iff.2 ⟨rfl, rfl⟩⟩
  exact ⟨hmodels, hmodels', hstationary,
    hmarks.ends_at_start ho more fits rfl nonzero rfl (hnorms _ (Buffers.sized_new 2 1).dtd)
      hsquares hstationary,
    hmarks'.ends_at_start ho more fits' rfl nonzero rfl (hnorms _ (Buffers.sized_new 2 1).dtd)
      hsquares hstationary⟩

end LeastSquares.Marquardt
