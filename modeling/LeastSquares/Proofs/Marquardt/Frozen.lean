import Mathlib
import LeastSquares.Proofs.Lsmr.Subspace
import LeastSquares.Proofs.Marquardt.Progress

/-!
# Levenberg–Marquardt: parameters without influence

Where a column of the Jacobian is zero at all visited parameters, both step solvers answer a step
that is zero there, so the solve never moves this parameter.
-/

namespace LeastSquares

open Exact
open Matrix (toEuclideanLin)
open LinearMap (adjoint)

variable {m n : ℕ}

inductive ZeroColumn {J : Type} [LinearOperator J ℝ] (m n j : ℕ) (jacobian : J) : Prop
  | intro (B : Matrix (Fin m) (Fin n) ℝ) (realizes : Realizes jacobian (toEuclideanLin B))
      (zero : ∀ i (k : Fin n), k = j → B i k = 0)

theorem Dense.NormalEquations.solve_entry {J : Dense.Matrix ℝ} {f dtd step : Array ℝ} (lambda : ℝ)
    {s : NormalEquations ℝ} {j : Fin n} (hJ : ZeroColumn m n j J) (hs : s.ncols = n)
    (hf : f.size = m) (hdtd : dtd.size = n) (hstep : step.size = n) :
    ∃ a, s.solve J f dtd lambda step = .done a ∧ a.solver.ncols = n ∧ a.step.size = n ∧
      (a.inner.isSome = true → vec n a.step j = 0) := by
  obtain ⟨B, hB, hzero⟩ := hJ
  have hentries : entries m n J = B := hB.entries_eq
  obtain ⟨a, ha, hsize, hlength, hsome, hisStep⟩ := solve_ends lambda hs hB.nrows hB.ncols
    hf hdtd hstep
  refine ⟨a, ha, hsize, hlength, fun h => ?_⟩
  have hadjoint := Lsmr.adjoint_apply_of_column (B := B) (j := j) fun i => hzero i j rfl
  have hpivot := diagonal_pos hB.nrows hB.ncols hdtd (hsome.1 h) j
  have hcolumn : linear m n J (EuclideanSpace.single j 1) = 0 := by
    ext i
    rw [linear, hentries, toEuclideanLin_apply_eq_sum]
    simp [hzero i j rfl]
  have hentry := isStep_iff.1 (hisStep h) j
  rw [hentries, hadjoint, hadjoint, zero_add, neg_zero] at hentry
  rw [hcolumn, norm_zero, zero_pow two_ne_zero, zero_add] at hpivot
  exact (mul_eq_zero.1 hentry).resolve_left hpivot.ne'

namespace Marquardt

open Lsmr (DampedStep)
open LeastSquares.Dense (NormalEquations)

/-- The parameter `j` is never moved: every step that is tried is zero there. -/
def Frozen {S J P : Type} [LinearOperator J ℝ] [StepSolver S J ℝ] (j : ℕ) (solver : Solver ℝ S)
    (problem : Problem ℝ J P) (o : Options ℝ) (p : P) (jacobian : J) (x : Array ℝ) : Prop :=
  (∀ k s, Head solver problem o p jacobian x k s → s.x[j]? = x[j]? ∧
    ∀ inner t, Judges problem o s inner t → t.buffers.step[j]? = some 0) ∧
  ∀ stats, (solver.solve problem o p jacobian x).ending = .finished stats →
    (solver.solve problem o p jacobian x).x[j]? = x[j]?

variable {S J P : Type} [LinearOperator J ℝ] [StepSolver S J ℝ] {solver : Solver ℝ S}
  {problem : Problem ℝ J P} {o : Options ℝ} {p : P} {jacobian : J} {x : Array ℝ} {Good : S → Prop}
  {K : J → Prop} {j : ℕ}

theorem frozen_of_questions (hK : Sustains solver.nrows solver.ncols Good K problem)
    (hsolver : solver.buffers.Sized solver.nrows solver.ncols) (hgood : Good solver.stepSolver)
    (hj : Evaluated K solver problem o p jacobian x)
    (hzero : ∀ q : Question ℝ S J, q.Posed solver.nrows solver.ncols Good K →
      q.answer.inner.isSome = true → q.answer.step[j]? = some 0) :
    Frozen j solver problem o p jacobian x := by
  have hI : ∀ y (q : Question ℝ S J), y.size = solver.ncols → y[j]? = x[j]? →
      q.Posed solver.nrows solver.ncols Good K → q.answer.inner.isSome = true →
        (Array.zipWith (· + ·) y q.answer.step)[j]? = x[j]? := by
    intro y q _ hy hq hsome
    rw [Array.getElem?_zipWith, hzero q hq hsome, ← hy]
    cases y[j]? with
    | none => rfl
    | some e => simp
  refine ⟨fun k s head => ⟨kept_of_head hK hsolver hgood hj hI rfl head, fun inner t judges => ?_⟩,
    fun stats h => ?_⟩
  · obtain ⟨-, -, -, q, hq, hinner, -, hstep, -⟩ :=
      (sound_of_head hK hsolver hgood hj head).judges hK (hj _ _ head) judges
    rw [hstep]
    exact hzero q hq (by rw [hinner]; rfl)
  · obtain ⟨t, status, exit, rfl, hrun⟩ := exit_of_finished h
    rw [hrun]
    exact kept_of_exit hK hsolver hgood hj hI rfl exit

theorem getElem?_eq_some_zero {xs : Array ℝ} (hx : xs.size = n) {j : Fin n} (h : vec n xs j = 0) :
    xs[(j : ℕ)]? = some 0 := by
  have hj : (j : ℕ) < xs.size := hx ▸ j.isLt
  rw [Array.getElem?_eq_getElem hj, ← vec_eq_getElem hx, h]

theorem ZeroColumn.isMatrix {J : Type} [LinearOperator J ℝ] {jacobian : J}
    (h : ZeroColumn m n j jacobian) : IsMatrix m n jacobian := by
  obtain ⟨B, hB, -⟩ := h
  exact ⟨B, hB⟩

theorem sustains_direct {P : Type} {problem : Problem ℝ (Dense.Matrix ℝ) P}
    (hproblem : problem.InPlace m n) {K : Dense.Matrix ℝ → Prop} (hK : ∀ J, K J → IsMatrix m n J) :
    Sustains m n (fun s : NormalEquations ℝ => s.ncols = n) K problem where
  inPlace := hproblem
  apply J _ _ _ hJ hv hout h := (hK J hJ).size_apply hv hout h
  solveStep s J f dtd lambda step a hs hJ hf hdtd hstep h := by
    obtain ⟨B, hB⟩ := hK J hJ
    obtain ⟨a', ha', hsize, hlength, -⟩ := NormalEquations.solve_ends lambda hs
      hB.nrows hB.ncols hf hdtd hstep
    cases ha'.symm.trans h
    exact ⟨hsize, hlength⟩

/-- Where a column of the Jacobian is zero at all visited parameters, a solve with either step
solver never moves this parameter. -/
theorem zero_column_frozen :
    (∀ {P : Type} {problem : Problem ℝ (Dense.Matrix ℝ) P} {solver : Solver ℝ (NormalEquations ℝ)}
      {o : Options ℝ} {p : P} {jacobian : Dense.Matrix ℝ} {x : Array ℝ} (j : Fin solver.ncols),
      problem.InPlace solver.nrows solver.ncols →
      solver.buffers.Sized solver.nrows solver.ncols → solver.stepSolver.ncols = solver.ncols →
      Evaluated (ZeroColumn solver.nrows solver.ncols j) solver problem o p jacobian x →
      Frozen j solver problem o p jacobian x) ∧
    (∀ {J P : Type} [LinearOperator J ℝ] {problem : Problem ℝ J P}
      {solver : Solver ℝ (DampedStep ℝ)} {o : Options ℝ} {p : P} {jacobian : J} {x : Array ℝ}
      (j : Fin solver.ncols), problem.InPlace solver.nrows solver.ncols →
      solver.buffers.Sized solver.nrows solver.ncols →
      solver.stepSolver.Shaped solver.nrows solver.ncols →
      Evaluated (ZeroColumn solver.nrows solver.ncols j) solver problem o p jacobian x →
      Frozen j solver problem o p jacobian x) := by
  constructor
  · intro P problem solver o p jacobian x j hproblem hsolver hgood hj
    refine frozen_of_questions (sustains_direct hproblem fun _ => ZeroColumn.isMatrix) hsolver hgood
      hj fun q hq hsome => ?_
    obtain ⟨a, ha, -, hsize, hentry⟩ := NormalEquations.solve_entry q.lambda hq.jacobian
      hq.good hq.residuals hq.dtd hq.buffer
    obtain rfl : a = q.answer := Outcome.done.inj (ha.symm.trans hq.answer)
    exact getElem?_eq_some_zero hsize (hentry hsome)
  · intro J P _ problem solver o p jacobian x j hproblem hsolver hgood hj
    refine frozen_of_questions (sustains_damped hproblem fun _ => ZeroColumn.isMatrix) hsolver hgood
      hj fun q hq _ => ?_
    obtain ⟨B, hB, hzero⟩ := hq.jacobian
    obtain ⟨a, ha, -, hsize, hentry⟩ := DampedStep.solve_entry (j := j) hB
      (fun i => hzero i j rfl) hq.good hq.residuals hq.buffer q.dtd q.lambda
    obtain rfl : a = q.answer := Outcome.done.inj (ha.symm.trans hq.answer)
    exact getElem?_eq_some_zero hsize hentry

/-- A residual that does not depend on the second of two parameters.  With steps by LSMR the first
iteration already comes to judge a step. -/
theorem zero_column_frozen_second :
    let J : Dense.Matrix ℝ := .ofFn 1 2 fun _ col => if col = 0 then 1 else 0
    let problem : Problem ℝ (Dense.Matrix ℝ) Unit :=
      ⟨fun p y _ => .done (p, #[y.getD 0 0]), fun p _ _ => .done (p, J)⟩
    let direct : Solver ℝ (NormalEquations ℝ) := ⟨1, 2, .new 2, .new 1 2⟩
    let iterative : Solver ℝ (DampedStep ℝ) := ⟨1, 2, .new 1 2 .default, .new 1 2⟩
    problem.InPlace 1 2 ∧ ZeroColumn 1 2 1 J ∧
      Frozen 1 direct problem .default () J #[3, 5] ∧
      Frozen 1 iterative problem .default () J #[3, 5] ∧
      ∃ s inner t, Head iterative problem .default () J #[3, 5] 0 s ∧
        Judges problem .default s inner t ∧ t.buffers.step[1]? = some 0 := by
  intro J problem direct iterative
  obtain ⟨hdirect, hiterative⟩ := zero_column_frozen
  have hJ : Realizes J (linear 1 2 J) := realizes_ofFn 1 2 _
  have hentries : ∀ i k, entries 1 2 J i k = if k = 0 then 1 else 0 := by
    intro i k
    fin_cases k <;> simp [J, entries, Dense.Matrix.row, Dense.Matrix.ofFn]
  have hcolumn : ZeroColumn 1 2 1 J := by
    refine ⟨entries 1 2 J, hJ, fun i k hk => ?_⟩
    rw [hentries, if_neg (by omega)]
  have hproblem : problem.InPlace 1 2 := Problem.inPlace_of_size fun _ => rfl
  have hgood : iterative.stepSolver.Shaped 1 2 := DampedStep.shaped_new 1 2 _
  have hfits : direct.stepSolver.ncols = 2 := NormalEquations.ncols_new _
  have hevaluated : Evaluated (ZeroColumn 1 2 1) iterative problem .default () J #[3, 5] :=
    evaluated_of_constant hcolumn
  have hevaluated' : Evaluated (ZeroColumn 1 2 1) direct problem .default () J #[3, 5] :=
    evaluated_of_constant hcolumn
  have hfrozen := hiterative 1 hproblem (Buffers.sized_new 1 2) hgood hevaluated
  have hstays := hdirect 1 hproblem (Buffers.sized_new 1 2) hfits hevaluated'
  have hgradient : adjoint (linear 1 2 J) (vec 1 #[3]) ≠ 0 := by
    intro h
    have hentry := congrArg (fun y : EuclideanSpace ℝ (Fin 2) => y 0) h
    rw [adjoint_linear_apply] at hentry
    simp [hentries] at hentry
  have fits : iterative.misfit? J #[3, 5] = none := Solver.misfit?_eq_none_iff.2
    ⟨rfl, Prod.ext hJ.nrows hJ.ncols, hgood.fits_iff.2 ⟨rfl, rfl⟩⟩
  obtain ⟨squares, hsquares, hnorms⟩ := J.columnSquares_done hJ.ncols
  have hresiduals : problem.residuals () #[3, 5] iterative.buffers.residuals =
      .done ((), #[3]) := rfl
  have hjacobian : problem.jacobian () #[3, 5] J = .done ((), J) := rfl
  obtain ⟨s, inner, t, head, judges⟩ := exists_judges_first .default (Buffers.sized_new 1 2) hgood
    fits hresiduals rfl hjacobian hJ (hnorms _ (Buffers.sized_new 1 2).dtd) hsquares hgradient
    fun y => ⟨_, _, rfl⟩
  exact ⟨hproblem, hcolumn, hstays, hfrozen, s, inner, t, head, judges,
    (hfrozen.1 0 s head).2 inner t judges⟩

end Marquardt

end LeastSquares
