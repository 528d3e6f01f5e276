import LeastSquares.Proofs.Dense.Units
import LeastSquares.Proofs.Marquardt.Renumbering

/-!
# Levenberg–Marquardt: the units of the parameters

A parameter is damped by the squares of its column, so its damping follows its unit.  Where no floor
is put under the squares and no step counts as small, nothing else of a solve knows the units: over
the direct step solver the problem in other units goes through the same iterations, with the same
verdicts, and ends at the same parameters in the new units.
-/

namespace LeastSquares.Marquardt

open Exact
open LinearOperator (shape)
open LeastSquares.Dense (NormalEquations)

variable {m n : ℕ} {s : Fin n → ℝ}

/-- Every parameter in a unit of its own.  The squares of its column lose the square of the factor,
and the lengths of two steps are not compared. -/
noncomputable def units (s : Fin n → ℝ) : Chart ℝ where
  residuals := id
  parameters := rescale s
  dtd := rescale (s⁻¹ ^ 2)
  stepInf a b := 0 ≤ a ∧ 0 ≤ b

theorem lawful_units (hs : ∀ j, s j ≠ 0) {o : Options ℝ} (htol : o.tol = 0) :
    (units s).Lawful m n o where
  size_residuals h := h
  size_parameters _ := size_rescale s _
  size_dtd _ := size_rescale _ _
  dot _ := rfl
  move hx hp := rescale_add hx hp
  rests h := all_rescale hs h
  stepInf _ := ⟨maxAbs_nonneg _, maxAbs_nonneg _⟩
  stepInf_zero := ⟨le_rfl, le_rfl⟩
  stepInf_infinity := by simp [units, Scalar.infinity]
  small := by
    rintro a b ⟨ha, hb⟩
    rw [htol]
    exact iff_of_false hb.not_gt ha.not_gt
  counts_zero := rfl
  counts_add := by
    rintro a _ b _ rfl rfl
    rfl

variable {P P' : Type}

/-- Problems with `m` residuals and `n` parameters, of which the second measures the parameters in
other units.  From related states the callbacks answer alike up to the units: the residuals are the
same, and the columns of the Jacobian are divided by the factors.  They may rely on a layout of the
Jacobians that they keep, and the residuals may look at what their buffer held. -/
structure Rescaled (m : ℕ) (s : Fin n → ℝ) (Related : P → P' → Prop)
    (Layout : Dense.Matrix ℝ → Dense.Matrix ℝ → Prop) (looks : Prop)
    (problem : Problem ℝ (Dense.Matrix ℝ) P) (problem' : Problem ℝ (Dense.Matrix ℝ) P') :
    Prop where
  residuals : ∀ {p q} (y out out' : Array ℝ), Related p q → y.size = n → out.size = m →
    out'.size = m → (looks → out' = out) →
    Outcome.Alike (fun a b => Related a.1 b.1 ∧ b.2 = a.2 ∧ a.2.size = m) (fun _ _ => True)
      (problem.residuals p y out) (problem'.residuals q (rescale s y) out')
  jacobian : ∀ {p q} (y : Array ℝ) {j j'}, Related p q → y.size = n → Layout j j' →
    shape j = (m, n) → shape j' = (m, n) →
    Outcome.Alike (fun a b => Related a.1 b.1 ∧ Layout a.2 b.2 ∧ Rescales m s a.2 b.2)
      (fun _ _ => True) (problem.jacobian p y j) (problem'.jacobian q (rescale s y) j')

namespace Rescaled

variable {Related : P → P' → Prop} {Layout : Dense.Matrix ℝ → Dense.Matrix ℝ → Prop}
  {looks : Prop} {problem : Problem ℝ (Dense.Matrix ℝ) P}
  {problem' : Problem ℝ (Dense.Matrix ℝ) P'}

def pairing (k m : ℕ) (s : Fin n → ℝ) (Related : P → P' → Prop)
    (Layout : Dense.Matrix ℝ → Dense.Matrix ℝ → Prop) (looks : Prop) :
    Pairing ℝ (NormalEquations ℝ) (NormalEquations ℝ) (Dense.Matrix ℝ) (Dense.Matrix ℝ) P P' where
  stepSolver := NormalEquations.Alike k
  layout j j' := Layout j j' ∧ shape j = (m, n) ∧ shape j' = (m, n)
  written j j' := Layout j j' ∧ Rescales m s j j'
  problem := Related
  looks := looks

theorem coordinated (hs : ∀ j, s j ≠ 0)
    (h : Rescaled m s Related Layout looks problem problem') {o : Options ℝ} (htol : o.tol = 0)
    (hfloor : o.minDiagonal = 0) :
    Coordinated m n o (units s) (pairing n m s Related Layout looks) problem problem' where
  lawful := lawful_units hs htol
  kept := .of_forall (fun _ => trivial) (fun _ => trivial) n o
  residuals := h.residuals
  jacobian := by
    rintro p q y j j' hp hy ⟨hlayout, hj, hj'⟩
    exact h.jacobian y hp hy hlayout hj hj'
  layout := by
    rintro j j' ⟨hlayout, hj⟩
    exact ⟨hlayout, Prod.ext hj.nrows hj.ncols, Prod.ext hj.nrows' hj.ncols'⟩
  columnSquares := by
    rintro j j' out out' ⟨-, hj⟩ hout hout'
    obtain ⟨r, hr, hsize, hvec⟩ := (computes_entries hj.nrows hj.ncols).columnSquares out hout
    obtain ⟨r', hr', hsize', hvec'⟩ :=
      (computes_entries hj.nrows' hj.ncols').columnSquares out' hout'
    have hfloored {d : Array ℝ} {B : Matrix (Fin m) (Fin n) ℝ} (hd : d.size = n)
        (hsquares : ∀ j, vec n d j = ∑ i, B i j ^ 2) :
        (d.map fun d => Scalar.max d o.minDiagonal) = d := by
      refine vec_injective (by simpa) hd (PiLp.ext fun j => ?_)
      have hnonneg : 0 ≤ vec n d j := hsquares j ▸ Finset.sum_nonneg fun i _ => sq_nonneg _
      rw [vec_eq_getElem hd] at hnonneg
      rw [vec_eq_getElem (by simpa), vec_eq_getElem hd, Array.getElem_map, max_eq, hfloor,
        max_eq_left hnonneg]
    rw [hr, hr']
    refine .done ⟨hsize, ?_⟩
    rw [hfloored hsize hvec, hfloored hsize' hvec']
    refine (rescale_eq_iff hsize').2 fun j => ?_
    rw [hvec', hvec, hj.entries_eq, sum_mul_diagonal_sq, Pi.pow_apply]
  predict := by
    rintro j j' p f ⟨-, hj⟩ hp hf
    obtain ⟨r, hr, hsize, hvec⟩ := (computes_entries hj.nrows hj.ncols).apply 1 p 1 f hp hf
    obtain ⟨r', hr', hsize', hvec'⟩ := (computes_entries hj.nrows' hj.ncols').apply 1 (rescale s p)
      1 f (size_rescale s p) hf
    change Outcome.Alike _ _ _ (LinearOperator.apply j' 1 (rescale s p) 1 f)
    rw [hj.entries_eq, toEuclideanLin_mul_diagonal_inv hs (vec_rescale s p), ← hvec] at hvec'
    rw [hr, hr']
    exact .done ⟨vec_injective hsize' hsize hvec', hsize⟩
  solveStep {N N' j j'} f dtd lambda step step' hN hj hf hdtd hstep hstep' _ _ := by
    obtain ⟨a, a', ha, ha', hcharted⟩ :=
      NormalEquations.solve_rescale hs hj.2 hN hf hdtd lambda hstep hstep'
    change Outcome.Alike _ _ (N.solve j f dtd lambda step)
      (N'.solve j' f (rescale (s⁻¹ ^ 2) dtd) lambda step')
    rw [ha, ha']
    exact .done (.of_charted (fun _ => rfl) hcharted)

end Rescaled

noncomputable def Problem.rescale (m : ℕ) (s : Fin n → ℝ)
    (problem : Problem ℝ (Dense.Matrix ℝ) P) : Problem ℝ (Dense.Matrix ℝ) P where
  residuals p y out := problem.residuals p (Exact.rescale s⁻¹ y) out
  jacobian p y j := (problem.jacobian p (Exact.rescale s⁻¹ y) (rescaleColumns m s⁻¹ j)).map
    fun a => (a.1, rescaleColumns m s a.2)

theorem rescaled_rescale (hs : ∀ j, s j ≠ 0) {problem : Problem ℝ (Dense.Matrix ℝ) P}
    (h : problem.KeepsShapes m n) :
    Rescaled m s Eq (fun j j' => j' = rescaleColumns m s j) True problem
      (problem.rescale m s) where
  residuals := by
    rintro p _ y out out' rfl hy hout - hlooks
    simp only [Problem.rescale]
    rw [hlooks trivial, rescale_inv_rescale hs hy]
    cases hr : problem.residuals p y out with
    | done a => exact .done ⟨rfl, rfl, h.residuals p y out a hy hout hr⟩
    | brokenOff => exact .brokenOff trivial
  jacobian := by
    rintro p _ y j _ rfl hy rfl hj -
    simp only [Problem.rescale]
    rw [rescaleColumns_inv_rescaleColumns hs hj, rescale_inv_rescale hs hy]
    cases hr : problem.jacobian p y j with
    | done a => exact .done ⟨rfl, rfl, rescales_rescaleColumns (h.jacobian p y j a hy hj hr)⟩
    | brokenOff => exact .brokenOff trivial

/-- The units of the parameters are no matter.  Every problem can be put in any units.  Without a
tolerance on the step and a floor under the squares of the columns, a direct solve in other units
from the same start has the same ending and the same iterations as the solve in the old ones, in
each of which only the length of the step differs, and it ends at the same parameters in the new
units. -/
theorem units_irrelevant (hs : ∀ j, 0 < s j) :
    (∀ {P : Type} {problem : Problem ℝ (Dense.Matrix ℝ) P}, problem.KeepsShapes m n →
      Rescaled m s Eq (fun j j' => j' = rescaleColumns m s j) True problem
        (problem.rescale m s)) ∧
    ∀ {P P' : Type} {Related : P → P' → Prop} {Layout : Dense.Matrix ℝ → Dense.Matrix ℝ → Prop}
      {looks : Prop} {problem : Problem ℝ (Dense.Matrix ℝ) P}
      {problem' : Problem ℝ (Dense.Matrix ℝ) P'},
      Rescaled m s Related Layout looks problem problem' →
      ∀ {k : ℕ} {solver solver' : Solver ℝ (NormalEquations ℝ)},
      solver.Alike m n (NormalEquations.Alike k) solver' →
      (looks → solver'.buffers.residuals = solver.buffers.residuals ∧
        solver'.buffers.trialResiduals = solver.buffers.trialResiduals) →
      ∀ {p : P} {q : P'}, Related p q →
      ∀ {j j' : Dense.Matrix ℝ}, Layout j j' → shape j = shape j' →
      ∀ {o : Options ℝ}, o.tol = 0 → o.minDiagonal = 0 → ∀ {x : Array ℝ}, x.size = n →
        (solver.solve problem o p j x).Charted m n (units s) (NormalEquations.Alike k)
          (solver'.solve problem' o q j' (rescale s x)) := by
  have hne (j : Fin n) : s j ≠ 0 := (hs j).ne'
  refine ⟨rescaled_rescale hne, ?_⟩
  intro P P' Related Layout looks problem problem' h k solver solver' hsolver hlooks p q hp j j'
    hlayout hshape o htol hfloor x hx
  obtain ⟨hk, hk'⟩ := hsolver.stepSolver
  refine solve_charted (χ := units s) (ρ := Rescaled.pairing k m s Related Layout looks)
    (by simp [StepSolver.fits, hk, hk']) (fun hfits => ?_) hsolver hlooks hp
    (fun hj => ⟨hlayout, hj, hshape.symm.trans hj⟩) hshape ((size_rescale s x).trans hx.symm)
  obtain rfl : k = n := by simpa [StepSolver.fits, hk] using hfits
  exact h.coordinated hne htol hfloor

/-- A line and a parabola, the parameters of which are measured in thousandths and in doubles. -/
theorem units_irrelevant_parabola :
    let s : Fin 2 → ℝ := ![1000, 1 / 2]
    let problem : Problem ℝ (Dense.Matrix ℝ) Unit :=
      ⟨fun p y _ => .done (p, #[y.getD 0 0 - 1, y.getD 1 0 ^ 2 - 4]),
        fun p y _ => .done (p, .ofFn 2 2 fun row col =>
          (#[#[1, 0], #[0, 2 * y.getD 1 0]].getD row #[]).getD col 0)⟩
    let problem' : Problem ℝ (Dense.Matrix ℝ) Unit :=
      ⟨fun p y _ => .done (p, #[y.getD 0 0 / 1000 - 1, (2 * y.getD 1 0) ^ 2 - 4]),
        fun p y _ => .done (p, .ofFn 2 2 fun row col =>
          (#[#[1 / 1000, 0], #[0, 8 * y.getD 1 0]].getD row #[]).getD col 0)⟩
    let direct : Solver ℝ (NormalEquations ℝ) := ⟨2, 2, .new 2, .new 2 2⟩
    let o : Options ℝ := { Options.default with tol := 0, minDiagonal := 0 }
    (∀ j, 0 < s j) ∧
      (problem.KeepsShapes 2 2 ∧ Rescaled 2 s Eq (fun _ _ => True) False problem problem') ∧
      Rescaled 2 s Eq (fun j j' => j' = rescaleColumns 2 s j) True problem
        (problem.rescale 2 s) ∧
      (direct.solve problem o () (.zeros 2 2) #[3, 1]).Charted 2 2 (units s)
        (NormalEquations.Alike 2) (direct.solve problem' o () (.zeros 2 2) #[3000, 1 / 2]) := by
  intro s problem problem' direct o
  have hs : ∀ j, 0 < s j := by
    intro j
    fin_cases j <;> norm_num [s]
  have hshape (entry : ℕ → ℕ → ℝ) : shape (Dense.Matrix.ofFn 2 2 entry) = (2, 2) := by
    simp [shape, LinearOperator.nrows, LinearOperator.ncols, Dense.Matrix.ncols, Dense.Matrix.ofFn]
  have hkeeps : problem.KeepsShapes 2 2 :=
    { residuals := by
        rintro p y out _ - - ⟨⟩
        rfl
      jacobian := by
        rintro p y j _ - - ⟨⟩
        exact hshape _ }
  have hgetD (y : Array ℝ) (i : ℕ) (hi : i < 2) :
      (rescale s y).getD i 0 = s ⟨i, hi⟩ * y.getD i 0 := by
    simp [rescale, hi]
  have hrescaled : Rescaled 2 s Eq (fun _ _ => True) False problem problem' :=
    { residuals := by
        rintro p _ y out out' rfl - - - -
        refine .done ⟨rfl, ?_, rfl⟩
        simp only [hgetD _ 0 two_pos, hgetD _ 1 one_lt_two]
        simp [s]
      jacobian := by
        rintro p _ y j j' rfl - - - -
        refine .done ⟨rfl, trivial, rfl, (Prod.mk.inj (hshape _)).2, rfl,
          (Prod.mk.inj (hshape _)).2, ?_⟩
        ext i j
        rw [Matrix.mul_diagonal, entries_ofFn, entries_ofFn]
        simp only [hgetD _ 1 one_lt_two]
        fin_cases i <;> fin_cases j <;> simp [s]
        ring }
  have hstart : #[3000, 1 / 2] = rescale s #[(3 : ℝ), 1] := by
    refine (rescale_eq_iff rfl).2 fun j => ?_
    fin_cases j <;> norm_num [s]
  have hdirect : direct.Alike 2 2 (NormalEquations.Alike 2) direct :=
    ⟨rfl, rfl, rfl, rfl, Buffers.sized_new 2 2, Buffers.sized_new 2 2, rfl, rfl⟩
  obtain ⟨hrescales, hsolves⟩ := units_irrelevant (m := 2) hs
  refine ⟨hs, ⟨hkeeps, hrescaled⟩, hrescales hkeeps, ?_⟩
  rw [hstart]
  exact hsolves hrescaled hdirect False.elim rfl trivial rfl rfl rfl rfl

end LeastSquares.Marquardt
