import LeastSquares.Proofs.Exact.Shrinkage
import LeastSquares.Proofs.Lsmr.Exactness
import LeastSquares.Proofs.Marquardt.Decrease

/-!
# Levenberg–Marquardt: what more damping does

More damping makes the solution of a damped problem shorter and its fit worse, for the iterative
solver with its `damp` as for the direct step solver with its `lambda`.  So a rejection, which
raises the damping and leaves the linear model as it was, is followed by a shorter step.
-/

namespace LeastSquares

open Exact
open LinearMap (adjoint)
open LeastSquares.Dense (NormalEquations)

/-! ## Solutions and steps -/

theorem Lsmr.balances_of_normalResidual {m n : ℕ}
    {M : EuclideanSpace ℝ (Fin n) →ₗ[ℝ] EuclideanSpace ℝ (Fin m)} {damp : ℝ}
    {b : EuclideanSpace ℝ (Fin m)} {x : EuclideanSpace ℝ (Fin n)}
    (h : normalResidual M damp b 0 x = 0) : Balances M LinearMap.id b damp x := by
  intro d
  have hgradient : adjoint M (b - M x) = damp ^ 2 • (x - 0) := sub_eq_zero.1 h
  rw [← LinearMap.adjoint_inner_right, hgradient, sub_zero, inner_smul_right]
  rfl

namespace Exact

variable {m n : ℕ} {B : Matrix (Fin m) (Fin n) ℝ} {f : EuclideanSpace ℝ (Fin m)}
  {dtd p q : EuclideanSpace ℝ (Fin n)} {lambda lambda' : ℝ}

/-- The step `q` is shorter than `p`, in the norm that damps them, and fits worse. -/
structure Shrinks (M : EuclideanSpace ℝ (Fin n) →ₗ[ℝ] EuclideanSpace ℝ (Fin m))
    (f : EuclideanSpace ℝ (Fin m)) (dtd p q : EuclideanSpace ℝ (Fin n)) : Prop where
  shorter : ∑ j, dtd j * q j ^ 2 < ∑ j, dtd j * p j ^ 2
  worse : ‖f + M p‖ < ‖f + M q‖

theorem IsStep.shrinks (hp : IsStep B f dtd lambda p) (hq : IsStep B f dtd lambda' q)
    (hdtd : ∀ j, 0 < dtd j) (hlambda : 0 ≤ lambda) (hlt : lambda < lambda')
    (hne : ¬ Stationary B f) : Shrinks (Matrix.toEuclideanLin B) f dtd p q := by
  have hnonneg := fun j => (hdtd j).le
  have hgradient : adjoint (Matrix.toEuclideanLin B) (-f) ≠ 0 := by
    rwa [map_neg, neg_ne_zero, Ne, ← stationary_iff]
  have hp' := hp.balances hnonneg
  have hq' := hq.balances hnonneg
  have hinjective := weighted_injective hdtd
  have hnorm := hp'.norm_lt hq' hlambda hlt hinjective hgradient
  have hfit := hp'.residual_lt hq' hlambda hlt hinjective hgradient
  refine ⟨?_, ?_⟩
  · rw [← norm_sq_weighted hnonneg, ← norm_sq_weighted hnonneg]
    exact pow_lt_pow_left₀ hnorm (norm_nonneg _) two_ne_zero
  · rwa [← neg_add', ← neg_add', norm_neg, norm_neg] at hfit

end Exact

/-! ## Solves -/

theorem Lsmr.solve_shrinks {A : Type} [LinearOperator A ℝ] {a : A} {m n : ℕ}
    {M : EuclideanSpace ℝ (Fin n) →ₗ[ℝ] EuclideanSpace ℝ (Fin m)} (ha : Realizes a M)
    {w w' : Workspace ℝ} (hw : w.Sized m n) (hw' : w'.Sized m n) {rhs : Array ℝ}
    (hrhs : rhs.size = m) {p p' : Params ℝ} (hp : p.Exact) (hp' : p'.Exact)
    (hiters : min m n ≤ p.maxIters) (hiters' : min m n ≤ p'.maxIters) (hdamp : 0 ≤ p.damp)
    (hlt : p.damp < p'.damp) (hne : adjoint M (vec m rhs) ≠ 0) :
    ∃ sol sol', solve w a rhs (Vec.zeros n) p = .ok sol ∧
      solve w' a rhs (Vec.zeros n) p' = .ok sol' ∧ ‖vec n sol'.x‖ < ‖vec n sol.x‖ ∧
        ‖vec m rhs - M (vec n sol.x)‖ < ‖vec m rhs - M (vec n sol'.x)‖ := by
  have hx : (Vec.zeros n : Array ℝ).size = n := by simp [Vec.zeros]
  have hnormal := (solveFitting_exact ha hw hrhs hx hp hiters).normal
  have hnormal' := (solveFitting_exact ha hw' hrhs hx hp' hiters').normal
  rw [vec_zeros] at hnormal hnormal'
  have hb := balances_of_normalResidual hnormal
  have hb' := balances_of_normalResidual hnormal'
  exact ⟨_, _, solve_eq_ok ha hw hrhs hx p, solve_eq_ok ha hw' hrhs hx p',
    hb.norm_lt hb' hdamp hlt Function.injective_id hne,
    hb.residual_lt hb' hdamp hlt Function.injective_id hne⟩

theorem Dense.NormalEquations.solve_shrinks {m n : ℕ} {s s' : NormalEquations ℝ}
    {J : Dense.Matrix ℝ} {f dtd step step' : Array ℝ} {lambda lambda' : ℝ} (hs : s.ncols = n)
    (hs' : s'.ncols = n) (hm : J.nrows = m) (hn : J.ncols = n) (hf : f.size = m)
    (hdtd : dtd.size = n) (hstep : step.size = n) (hstep' : step'.size = n)
    (hpos : ∀ j, 0 < vec n dtd j) (hlambda : 0 < lambda) (hlt : lambda < lambda')
    (hne : adjoint (linear m n J) (vec m f) ≠ 0) :
    ∃ a a', s.solve J f dtd lambda step = .done a ∧ s'.solve J f dtd lambda' step' = .done a' ∧
      a.inner.isSome = true ∧ a'.inner.isSome = true ∧
      Shrinks (linear m n J) (vec m f) (vec n dtd) (vec n a.step) (vec n a'.step) := by
  have hlambda' := hlambda.trans hlt
  obtain ⟨a, ha, -, -, hsome, hisStep⟩ := solve_ends lambda hs hm hn hf hdtd hstep
  obtain ⟨a', ha', -, -, hsome', hisStep'⟩ := solve_ends lambda' hs' hm hn hf hdtd hstep'
  have hinner := hsome.2 (posDef_dampedNormal ⟨hm, hn, hf, hdtd, hstep, fun j =>
    mul_pos (sq_pos_of_pos hlambda) (hpos j)⟩)
  have hinner' := hsome'.2 (posDef_dampedNormal ⟨hm, hn, hf, hdtd, hstep', fun j =>
    mul_pos (sq_pos_of_pos hlambda') (hpos j)⟩)
  refine ⟨a, a', ha, ha', hinner, hinner', ?_⟩
  exact (hisStep hinner).shrinks (hisStep' hinner') hpos hlambda.le hlt
    fun hstationary => hne (stationary_iff.1 hstationary)

namespace Marquardt

/-! ## Rejections -/

section Rejected

variable {P : Type} {problem : Problem ℝ (Dense.Matrix ℝ) P} {solver : Solver ℝ (NormalEquations ℝ)}
  {o : Options ℝ} {p : P} {jacobian : Dense.Matrix ℝ} {x : Array ℝ} {k inner : ℕ}
  {s t : State ℝ (NormalEquations ℝ) (Dense.Matrix ℝ) P}

variable (hproblem : problem.InPlace solver.nrows solver.ncols)
  (hsolver : solver.buffers.Sized solver.nrows solver.ncols)
  (hncols : solver.stepSolver.ncols = solver.ncols)
  (hj : Evaluated (IsMatrix solver.nrows solver.ncols) solver problem o p jacobian x)
  (ho : o.Damps)

include hproblem hsolver hncols hj ho

theorem exists_asks_of_fresh (head : Head solver problem o p jacobian x k s)
    (hfresh : s.stale = false) : ∃ a inner, Asks problem o s a (some inner) ∧
      a.lambda = s.lambda ∧
      IsStep (entries solver.nrows solver.ncols s.jacobian) (vec solver.nrows s.buffers.residuals)
        (vec solver.ncols s.buffers.dtd) s.lambda (vec solver.ncols a.buffers.step) := by
  have hr : ({ s with outer := s.outer + 1 }).refresh problem o =
      .done { s with outer := s.outer + 1 } := by
    simp [State.refresh, hfresh]
  obtain ⟨a, inner, ha, hsolved⟩ := exists_step_of_refresh hproblem hsolver hncols hj ho head hr
  obtain ⟨answer, -, -, rfl⟩ := State.askStep_done ha
  exact ⟨_, inner, ⟨_, hr, ha⟩, rfl, hsolved.solves⟩

theorem exists_judges_of_not_stationary {r : State ℝ (NormalEquations ℝ) (Dense.Matrix ℝ) P}
    (head : Head solver problem o p jacobian x k s)
    (hr : ({ s with outer := s.outer + 1 }).refresh problem o = .done r)
    (hne : ¬ Stationary (entries solver.nrows solver.ncols r.jacobian)
      (vec solver.nrows r.buffers.residuals))
    (tries : ∀ y, ∃ p' tried,
      problem.residuals r.problem y r.buffers.trialResiduals = .done (p', tried)) :
    ∃ inner t, Judges problem o s inner t := by
  obtain ⟨a, inner, ha, hsolved⟩ := exists_step_of_refresh hproblem hsolver hncols hj ho head hr
  obtain ⟨answer, hanswer, hinner, rfl⟩ := State.askStep_done ha
  have moves : answer.step.all (· == 0) = false := by
    rw [← Bool.not_eq_true, ← vec_eq_zero_iff hsolved.step,
      hsolved.solves.eq_zero_iff hsolved.damped]
    exact hne
  obtain ⟨predicted, hpredicted, -⟩ := NormalEquations.apply_model hsolved.nrows hsolved.ncols
    hsolved.residuals hsolved.step
  obtain ⟨t, judges⟩ := exists_judges hr hanswer hinner.symm moves hpredicted tries
  exact ⟨inner, t, judges⟩

/-- After a rejection that raises the damping the step solver answers a shorter step for the same
linear model. -/
theorem rejection_shrinks (head : Head solver problem o p jacobian x k s) (more : k < o.maxIters)
    (judges : Judges problem o s inner t) (hrejected : ¬ t.Accepts o)
    (hraised : s.lambda < State.raised o s.lambda) :
    Head solver problem o p jacobian x (k + 1) ((t.reported o inner).reject o) ∧
    ∃ a inner', Asks problem o ((t.reported o inner).reject o) a (some inner') ∧
      a.lambda = State.raised o s.lambda ∧
      Shrinks (linear solver.nrows solver.ncols t.jacobian)
        (vec solver.nrows t.buffers.residuals) (vec solver.ncols t.buffers.dtd)
        (vec solver.ncols t.buffers.step) (vec solver.ncols a.buffers.step) := by
  obtain ⟨a, asks, moves, ht⟩ := judges.evaluates
  have hK := sustains_direct (K := IsMatrix solver.nrows solver.ncols) hproblem fun _ => id
  obtain ⟨hsound, hfresh, -⟩ :=
    (sound_of_head hK hsolver hncols hj head).asks hK (hj _ _ head) asks
  have hdamped : a.Damped solver.ncols :=
    (damped_of_head ho hK hsolver hncols hj head).asks ho asks hsound.buffers.dtd
  have hsolved := (solved_of_asks hproblem hsolver hncols hj ho head asks).2
  have hne : ¬ Stationary (entries solver.nrows solver.ncols a.jacobian)
      (vec solver.nrows a.buffers.residuals) := by
    rw [← hsolved.solves.eq_zero_iff hsolved.damped, vec_eq_zero_iff hsolved.step, moves]
    exact Bool.false_ne_true
  have nonzero : (s.residual == 0) = false := by
    refine decide_eq_false fun hzero => hne ?_
    have hresidual := hsolved.residual.symm.trans (asks.frame.2.1.trans hzero)
    rw [dot_eq_inner hsolved.residuals hsolved.residuals, inner_self_eq_zero] at hresidual
    rw [hresidual, Stationary, WithLp.ofLp_zero, Matrix.mulVec_zero]
  have goes : s.iterate problem o = .next ((t.reported o inner).reject o) :=
    judges.iterate_eq.trans (State.judge_eq_next_iff.2 (.inr ⟨hrejected, rfl⟩))
  have head' := head.next more nonzero goes
  obtain ⟨a', inner', asks', hlambda', hstep'⟩ :=
    exists_asks_of_fresh hproblem hsolver hncols hj ho head' (ht.stale.trans hfresh)
  have hraise : ((t.reported o inner).reject o).lambda = State.raised o s.lambda :=
    congrArg (State.raised o) judges.frame.2.2.1
  refine ⟨head', a', inner', asks', hlambda'.trans hraise, ?_⟩
  -- The rejection keeps the linear model that the judged step comes from.
  have hstep : IsStep (entries solver.nrows solver.ncols a.jacobian)
      (vec solver.nrows a.buffers.residuals) (vec solver.ncols a.buffers.dtd)
      (State.raised o s.lambda) (vec solver.ncols a'.buffers.step) := by
    rw [← hraise, ← ht.jacobian, ← ht.residuals, ← ht.dtd]
    exact hstep'
  rw [ht.jacobian, ht.residuals, ht.dtd, ht.step]
  exact hsolved.solves.shrinks hstep (hdamped.dtd hfresh) hdamped.lambda.le
    (asks.frame.2.2.1.trans_lt hraised) hne

end Rejected

/-- More damping shrinks a solution strictly and makes its fit strictly worse, for the iterative
solver from zero and for the direct step solver.  So within a solve a rejection that raises the
damping is followed by a shorter step. -/
theorem damping_shrinks :
    (∀ {A : Type} [LinearOperator A ℝ] {a : A} {m n : ℕ}
      {M : EuclideanSpace ℝ (Fin n) →ₗ[ℝ] EuclideanSpace ℝ (Fin m)} {w w' : Lsmr.Workspace ℝ}
      {rhs : Array ℝ} {p p' : Lsmr.Params ℝ}, Realizes a M → w.Sized m n → w'.Sized m n →
      rhs.size = m → p.Exact → p'.Exact → min m n ≤ p.maxIters → min m n ≤ p'.maxIters →
      0 ≤ p.damp → p.damp < p'.damp → adjoint M (vec m rhs) ≠ 0 →
      ∃ sol sol', Lsmr.solve w a rhs (Vec.zeros n) p = .ok sol ∧
        Lsmr.solve w' a rhs (Vec.zeros n) p' = .ok sol' ∧ ‖vec n sol'.x‖ < ‖vec n sol.x‖ ∧
          ‖vec m rhs - M (vec n sol.x)‖ < ‖vec m rhs - M (vec n sol'.x)‖) ∧
    (∀ {m n : ℕ} {s s' : NormalEquations ℝ} {J : Dense.Matrix ℝ} {f dtd step step' : Array ℝ}
      {lambda lambda' : ℝ}, s.ncols = n → s'.ncols = n → J.nrows = m → J.ncols = n → f.size = m →
      dtd.size = n → step.size = n → step'.size = n → (∀ j, 0 < vec n dtd j) → 0 < lambda →
      lambda < lambda' → adjoint (linear m n J) (vec m f) ≠ 0 →
      ∃ a a', s.solve J f dtd lambda step = .done a ∧ s'.solve J f dtd lambda' step' = .done a' ∧
        a.inner.isSome = true ∧ a'.inner.isSome = true ∧
        Shrinks (linear m n J) (vec m f) (vec n dtd) (vec n a.step) (vec n a'.step)) ∧
    ∀ {P : Type} {problem : Problem ℝ (Dense.Matrix ℝ) P} {solver : Solver ℝ (NormalEquations ℝ)}
      {o : Options ℝ} {p : P} {jacobian : Dense.Matrix ℝ} {x : Array ℝ},
      problem.InPlace solver.nrows solver.ncols → solver.buffers.Sized solver.nrows solver.ncols →
      solver.stepSolver.ncols = solver.ncols →
      Evaluated (IsMatrix solver.nrows solver.ncols) solver problem o p jacobian x → o.Damps →
      ∀ k s inner t, Head solver problem o p jacobian x k s → k < o.maxIters →
        Judges problem o s inner t → ¬ t.Accepts o → s.lambda < State.raised o s.lambda →
        Head solver problem o p jacobian x (k + 1) ((t.reported o inner).reject o) ∧
        ∃ a inner', Asks problem o ((t.reported o inner).reject o) a (some inner') ∧
          a.lambda = State.raised o s.lambda ∧
          Shrinks (linear solver.nrows solver.ncols t.jacobian)
            (vec solver.nrows t.buffers.residuals) (vec solver.ncols t.buffers.dtd)
            (vec solver.ncols t.buffers.step) (vec solver.ncols a.buffers.step) :=
  ⟨fun ha hw hw' hrhs hp hp' hiters hiters' hdamp hlt hne =>
      Lsmr.solve_shrinks ha hw hw' hrhs hp hp' hiters hiters' hdamp hlt hne,
    NormalEquations.solve_shrinks,
    fun hproblem hsolver hncols hj ho _ _ _ _ head more judges hrejected hraised =>
      rejection_shrinks hproblem hsolver hncols hj ho head more judges hrejected hraised⟩

/-- Two damped solves, two damped steps, and a problem of two parameters with residuals that no step
changes: its first step is rejected. -/
theorem damping_shrinks_flat :
    let a : Dense.Matrix ℝ := .ofFn 2 2 fun row col => if row ≤ col then 1 else 0
    let solver : Solver ℝ (NormalEquations ℝ) := ⟨2, 2, .new 2, .new 2 2⟩
    let problem : Problem ℝ (Dense.Matrix ℝ) Unit :=
      ⟨fun p _ _ => .done (p, #[3, 1]), fun p _ _ => .done (p, a)⟩
    (∃ sol sol', Lsmr.solve (.new 2 2) a #[3, 1] (Vec.zeros 2) ⟨0, 0, 0, 2, 0⟩ = .ok sol ∧
      Lsmr.solve (.new 2 2) a #[3, 1] (Vec.zeros 2) ⟨0, 0, 0, 2, 2⟩ = .ok sol' ∧
        ‖vec 2 sol'.x‖ < ‖vec 2 sol.x‖) ∧
    (∃ answer answer', solver.stepSolver.solve a #[3, 1] #[1, 4] 1 #[0, 0] = .done answer ∧
      solver.stepSolver.solve a #[3, 1] #[1, 4] 2 #[0, 0] = .done answer' ∧
        Shrinks (linear 2 2 a) (vec 2 #[3, 1]) (vec 2 #[1, 4]) (vec 2 answer.step)
          (vec 2 answer'.step)) ∧
    ∃ s inner t, Head solver problem .default () a #[0, 0] 0 s ∧
      Judges problem .default s inner t ∧ ¬ t.Accepts .default ∧
      Head solver problem .default () a #[0, 0] 1 ((t.reported .default inner).reject .default) := by
  intro a solver problem
  obtain ⟨hsolves, hsteps, hrejections⟩ := damping_shrinks
  have ha : Realizes a (linear 2 2 a) := realizes_ofFn 2 2 _
  have hf : (#[3, 1] : Array ℝ).size = 2 := rfl
  have hdtd : (#[1, 4] : Array ℝ).size = 2 := rfl
  have hstep : (#[0, 0] : Array ℝ).size = 2 := rfl
  have hne : adjoint (linear 2 2 a) (vec 2 #[3, 1]) ≠ 0 := by
    intro hzero
    have hentry := congrArg (fun y : EuclideanSpace ℝ (Fin 2) => y 0) hzero
    simp [adjoint_linear_apply, a, entries_ofFn] at hentry
  have hsized := Lsmr.Workspace.sized_new 2 2
  have hexact (damp : ℝ) : (⟨0, 0, 0, 2, damp⟩ : Lsmr.Params ℝ).Exact := ⟨rfl, rfl, le_rfl⟩
  obtain ⟨sol, sol', hsolve, hsolve', hshrinks, -⟩ :=
    hsolves ha hsized hsized hf (hexact 0) (hexact 2) le_rfl le_rfl le_rfl two_pos hne
  have hsolver : solver.buffers.Sized 2 2 := Buffers.sized_new 2 2
  have hncols : solver.stepSolver.ncols = 2 := NormalEquations.ncols_new _
  obtain ⟨answer, answer', hanswer, hanswer', -, -, hshrink⟩ :=
    hsteps hncols hncols ha.nrows ha.ncols hf hdtd hstep hstep
      (fun j => by fin_cases j <;> simp) (one_pos : (0 : ℝ) < 1) (one_lt_two : (1 : ℝ) < 2) hne
  have hproblem : problem.InPlace 2 2 := Problem.inPlace_of_size fun _ => rfl
  have hj : Evaluated (IsMatrix 2 2) solver problem .default () a #[0, 0] :=
    evaluated_of_constant ⟨entries 2 2 a, ha⟩
  have ho := Options.damps_default
  have fits : solver.misfit? a #[0, 0] = none := Solver.misfit?_eq_none_iff.2
    ⟨rfl, Prod.ext ha.nrows ha.ncols, by simpa [StepSolver.fits] using hncols⟩
  have head : Head solver problem .default () a #[0, 0] 0 _ :=
    .first (r := #[3, 1]) fits rfl (isFinite_eq_true _)
  obtain ⟨squares, -, hnorms⟩ := a.columnSquares_done ha.ncols
  have hjacobian : problem.jacobian () #[0, 0] a = .done ((), a) := rfl
  have hr := State.refresh_eq_done (s := { solver.evaluated .default () a #[0, 0] () #[3, 1] with
    outer := 1 }) .default rfl hjacobian (hnorms _ hsolver.dtd)
  obtain ⟨inner, t, judges⟩ := exists_judges_of_not_stationary hproblem hsolver hncols hj ho head hr
    (fun hstationary => hne (stationary_iff.1 hstationary)) fun y => ⟨_, _, rfl⟩
  have hrejected : ¬ t.Accepts .default := by
    obtain ⟨b, -, -, ht⟩ := judges.evaluates
    have htried : t.buffers.trialResiduals = #[3, 1] :=
      (congrArg Prod.snd (Outcome.done.inj ht.tries)).symm
    have hresidual : t.residual = t.trial := by
      rw [judges.frame.2.1, State.trial, htried]
      rfl
    rw [State.Accepts, State.ratio, State.gainRatio, hresidual, sub_self, zero_div]
    norm_num [Options.default]
  have hraised : (solver.evaluated .default () a #[0, 0] () #[3, 1]).lambda <
      State.raised .default (solver.evaluated .default () a #[0, 0] () #[3, 1]).lambda := by
    norm_num [Solver.evaluated, Solver.begin, State.raised, State.clamped, Options.default]
  refine ⟨⟨sol, sol', hsolve, hsolve', hshrinks⟩, ⟨answer, answer', hanswer, hanswer', hshrink⟩,
    _, inner, t, head, judges, hrejected, ?_⟩
  exact (hrejections hproblem hsolver hncols hj ho 0 _ inner t head (by norm_num [Options.default])
    judges hrejected hraised).1

end Marquardt

end LeastSquares
