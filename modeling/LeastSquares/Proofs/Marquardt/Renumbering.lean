import LeastSquares.Proofs.Dense.Renumbering
import LeastSquares.Proofs.Lsmr.Renumbering
import LeastSquares.Proofs.Marquardt.Coordinates
import LeastSquares.Proofs.Marquardt.Reports

/-!
# Levenberg–Marquardt: renumbered problems

In which order the residuals and the parameters of a problem are numbered is no matter.  A chart
that permutes vectors is lawful, and both step solvers answer renumbered problems with renumbered
steps, although their factors and their bases are others.  So a solve of the renumbered problem from
the renumbered start is the same solve in other coordinates.
-/

namespace LeastSquares.Marquardt

open Exact
open LinearOperator (shape)
open Matrix (toEuclideanLin)
open LeastSquares.Dense (NormalEquations)

variable {m n : ℕ}

def renumbering (σ : Equiv.Perm (Fin m)) (τ : Equiv.Perm (Fin n)) : Chart ℝ where
  residuals := permute σ
  parameters := permute τ
  dtd := permute τ
  stepInf := Eq

theorem faithful_renumbering (σ : Equiv.Perm (Fin m)) (τ : Equiv.Perm (Fin n)) :
    (renumbering σ τ).Faithful := ⟨rfl, rfl, rfl⟩

theorem lawful_renumbering (σ : Equiv.Perm (Fin m)) (τ : Equiv.Perm (Fin n)) (o : Options ℝ) :
    (renumbering σ τ).Lawful m n o where
  size_residuals _ := size_permute σ _
  size_parameters _ := size_permute τ _
  size_dtd _ := size_permute τ _
  dot h := (carries_permute σ h).dot (carries_permute σ h)
  move hx hp := permute_add τ hx hp
  rests h := all_permute τ h _
  stepInf h := (maxAbs_permute τ h).symm
  stepInf_zero := rfl
  stepInf_infinity := rfl
  small := by
    rintro a b ⟨⟩
    rfl
  counts_zero := rfl
  counts_add := by
    rintro a _ b _ rfl rfl
    rfl

variable {J J' P P' S S' : Type} [LinearOperator J ℝ] [LinearOperator J' ℝ]
  {σ : Equiv.Perm (Fin m)} {τ : Equiv.Perm (Fin n)}

/-- Problems with `m` residuals and `n` parameters, of which the second is the first in the new
numbers.  From related states the callbacks answer alike up to the numbers, and leave Jacobians of
which the second computes the matrix of the first in the new numbers.  They may rely on a layout of
the Jacobians that they keep, and the residuals may look at what their buffer held. -/
structure Renumbered (σ : Equiv.Perm (Fin m)) (τ : Equiv.Perm (Fin n)) (Related : P → P' → Prop)
    (Layout : J → J' → Prop) (looks : Prop) (problem : Problem ℝ J P) (problem' : Problem ℝ J' P') :
    Prop where
  residuals : ∀ {p q} (y out out' : Array ℝ), Related p q → y.size = n → out.size = m →
    out'.size = m → (looks → out' = permute σ out) →
    Outcome.Alike (fun a b => Related a.1 b.1 ∧ b.2 = permute σ a.2 ∧ a.2.size = m)
      (fun _ _ => True) (problem.residuals p y out) (problem'.residuals q (permute τ y) out')
  jacobian : ∀ {p q} (y : Array ℝ) {j j'}, Related p q → y.size = n → Layout j j' →
    shape j = (m, n) → shape j' = (m, n) →
    Outcome.Alike (fun a b => Related a.1 b.1 ∧ Layout a.2 b.2 ∧ Renumbers σ τ a.2 b.2)
      (fun _ _ => True) (problem.jacobian p y j) (problem'.jacobian q (permute τ y) j')

def RenumbersSteps (J J' : Type) [LinearOperator J ℝ] [LinearOperator J' ℝ] [StepSolver S J ℝ]
    [StepSolver S' J' ℝ] (σ : Equiv.Perm (Fin m)) (τ : Equiv.Perm (Fin n))
    (R : S → S' → Prop) : Prop :=
  ∀ {s : S} {s' : S'} {j : J} {j' : J'} {f dtd step step' : Array ℝ} (lambda : ℝ),
    R s s' → Renumbers σ τ j j' → f.size = m → dtd.size = n → step.size = n → step'.size = n →
    ∃ a a', StepSolver.solveStep s j f dtd lambda step = .done a ∧
      StepSolver.solveStep s' j' (permute σ f) (permute τ dtd) lambda step' = .done a' ∧
        a.Charted n (permute τ) R a'

namespace Renumbered

variable {Related : P → P' → Prop} {Layout : J → J' → Prop} {looks : Prop}
  {problem : Problem ℝ J P} {problem' : Problem ℝ J' P'}

def pairing (R : S → S' → Prop) (σ : Equiv.Perm (Fin m)) (τ : Equiv.Perm (Fin n))
    (Related : P → P' → Prop) (Layout : J → J' → Prop) (looks : Prop) :
    Pairing ℝ S S' J J' P P' where
  stepSolver := R
  layout j j' := Layout j j' ∧ shape j = (m, n) ∧ shape j' = (m, n)
  written j j' := Layout j j' ∧ Renumbers σ τ j j'
  problem := Related
  looks := looks

theorem coordinated [StepSolver S J ℝ] [StepSolver S' J' ℝ]
    (h : Renumbered σ τ Related Layout looks problem problem') {R : S → S' → Prop}
    (hsolve : RenumbersSteps J J' σ τ R) (o : Options ℝ) :
    Coordinated m n o (renumbering σ τ) (pairing R σ τ Related Layout looks) problem problem' where
  lawful := lawful_renumbering σ τ o
  kept := .of_forall (fun _ => trivial) (fun _ => trivial) n o
  residuals := h.residuals
  jacobian := by
    rintro p q y j j' hp hy ⟨hlayout, hj, hj'⟩
    exact h.jacobian y hp hy hlayout hj hj'
  layout := by
    rintro j j' ⟨hlayout, B, hj, hj'⟩
    exact ⟨hlayout, Prod.ext hj.nrows hj.ncols, Prod.ext hj'.nrows hj'.ncols⟩
  columnSquares := by
    rintro j j' out out' ⟨-, B, hj, hj'⟩ hout hout'
    obtain ⟨r, hr, hsize, hvec⟩ := hj.columnSquares out hout
    obtain ⟨r', hr', hsize', hvec'⟩ := hj'.columnSquares out' hout'
    have hsquares : r' = permute τ r := by
      rw [permute_eq_iff τ hsize']
      intro k
      rw [hvec, hvec', sum_submatrix_sq]
    rw [hr, hr']
    refine .done ⟨hsize, ?_⟩
    rw [hsquares, permute_map τ _ hsize]
    rfl
  predict := by
    rintro j j' p f ⟨-, B, hj, hj'⟩ hp hf
    obtain ⟨r, r', hr, hr', hcarries⟩ := hj.toRealizes.carries_apply hj'.toRealizes
      (toEuclideanLin_submatrix σ τ) 1 1 (carries_permute τ hp) (carries_permute σ hf)
    change Outcome.Alike _ _ _ (LinearOperator.apply j' 1 (permute τ p) 1 (permute σ f))
    rw [hr, hr']
    exact .done ⟨hcarries.unique (carries_permute σ hcarries.size), hcarries.size⟩
  solveStep {s s' j j'} f dtd lambda step step' hs hj hf hdtd hstep hstep' _ _ := by
    obtain ⟨a, a', ha, ha', hcharted⟩ := hsolve lambda hs hj.2 hf hdtd hstep hstep'
    change Outcome.Alike _ _ _
      (StepSolver.solveStep s' j' (permute σ f) (permute τ dtd) lambda step')
    rw [ha, ha']
    exact .done (.of_charted (fun _ => rfl) hcharted)

end Renumbered

/-! ## Every problem has its renumbering -/

structure Problem.KeepsShapes (m n : ℕ) (problem : Problem ℝ (Dense.Matrix ℝ) P) : Prop where
  residuals : ∀ p (y out : Array ℝ) a, y.size = n → out.size = m →
    problem.residuals p y out = .done a → a.2.size = m
  jacobian : ∀ p (y : Array ℝ) j a, y.size = n → shape j = (m, n) →
    problem.jacobian p y j = .done a → shape a.2 = (m, n)

/-- The problem in the new numbers: what it is given is read in the old ones, and what it writes is
written in the new ones. -/
noncomputable def Problem.renumber (σ : Equiv.Perm (Fin m)) (τ : Equiv.Perm (Fin n))
    (problem : Problem ℝ (Dense.Matrix ℝ) P) : Problem ℝ (Dense.Matrix ℝ) P where
  residuals p y out := (problem.residuals p (permute τ.symm y) (permute σ.symm out)).map
    fun a => (a.1, permute σ a.2)
  jacobian p y j := (problem.jacobian p (permute τ.symm y) (Exact.renumber σ.symm τ.symm j)).map
    fun a => (a.1, Exact.renumber σ τ a.2)

theorem renumbered_renumber {problem : Problem ℝ (Dense.Matrix ℝ) P}
    (h : problem.KeepsShapes m n) (σ : Equiv.Perm (Fin m)) (τ : Equiv.Perm (Fin n)) :
    Renumbered σ τ Eq (fun j j' => j' = Exact.renumber σ τ j) True problem
      (problem.renumber σ τ) where
  residuals := by
    rintro p _ y out out' rfl hy hout - hlooks
    simp only [Problem.renumber]
    rw [hlooks trivial, permute_symm_permute σ hout, permute_symm_permute τ hy]
    cases hr : problem.residuals p y out with
    | done a => exact .done ⟨rfl, rfl, h.residuals p y out a hy hout hr⟩
    | brokenOff => exact .brokenOff trivial
  jacobian := by
    rintro p _ y j _ rfl hy rfl hj -
    simp only [Problem.renumber]
    rw [renumber_symm_renumber σ τ hj, permute_symm_permute τ hy]
    cases hr : problem.jacobian p y j with
    | done a => exact .done ⟨rfl, rfl, renumbers_renumber σ τ (h.jacobian p y j a hy hj hr)⟩
    | brokenOff => exact .brokenOff trivial

/-! ## Whole solves -/

theorem reporterCalls_read (χ : Chart ℝ) (events : Array (Event ℝ)) :
    reporterCalls (events.map (Event.read χ)) = reporterCalls events := by
  have hreported : Event.isReported ∘ Event.read χ = Event.isReported := by
    funext e
    cases e <;> rfl
  rw [reporterCalls, reporterCalls, Array.toList_map, List.filter_map, hreported]
  refine (List.map_congr_left fun e he => ?_).trans (List.map_id _)
  have hisReported := (List.mem_filter.1 he).2
  cases e with
  | report | finished => rfl
  | residuals | jacobian | step | record => cases hisReported

/-- Two solves of which the second is the first in the new numbers.  Unless they broke off, their
solvers are alike again. -/
structure Run.Renumbered (σ : Equiv.Perm (Fin m)) (τ : Equiv.Perm (Fin n)) (R : S → S' → Prop)
    (run : Run ℝ S J P) (run' : Run ℝ S' J' P') : Prop where
  x : run'.x = permute τ run.x
  /-- The error, or the status, the counts, the residual, the length of the last step and the
  damping. -/
  ending : run'.ending = run.ending
  reports : reporterCalls run'.events = reporterCalls run.events
  events : run'.events = run.events.map (Event.read (renumbering σ τ))
  solver : run.ending ≠ .brokenOff → run.solver.Alike m n R run'.solver

omit [LinearOperator J ℝ] [LinearOperator J' ℝ] in
theorem Run.Charted.renumbered {R : S → S' → Prop} {run : Run ℝ S J P} {run' : Run ℝ S' J' P'}
    (h : run.Charted m n (renumbering σ τ) R run') : run.Renumbered σ τ R run' where
  x := h.x
  ending := h.ending.eq (faithful_renumbering σ τ)
  reports := by rw [h.events.eq_map (faithful_renumbering σ τ), reporterCalls_read]
  events := h.events.eq_map (faithful_renumbering σ τ)
  solver := h.solver

def Unnumbered (J J' S : Type) [LinearOperator J ℝ] [LinearOperator J' ℝ] [StepSolver S J ℝ]
    [StepSolver S J' ℝ] (m n : ℕ) (R : S → S → Prop) : Prop :=
  ∀ (σ : Equiv.Perm (Fin m)) (τ : Equiv.Perm (Fin n)) {P P' : Type} {Related : P → P' → Prop}
    {Layout : J → J' → Prop} {looks : Prop} {problem : Problem ℝ J P} {problem' : Problem ℝ J' P'},
    Marquardt.Renumbered σ τ Related Layout looks problem problem' →
    ∀ {solver solver' : Solver ℝ S}, solver.Alike m n R solver' →
    (looks → solver'.buffers.residuals = permute σ solver.buffers.residuals ∧
      solver'.buffers.trialResiduals = permute σ solver.buffers.trialResiduals) →
    ∀ {p : P} {q : P'}, Related p q → ∀ {j : J} {j' : J'}, Layout j j' → shape j = shape j' →
    ∀ (o : Options ℝ) {x : Array ℝ}, x.size = n →
      (solver.solve problem o p j x).Renumbered σ τ R
        (solver'.solve problem' o q j' (permute τ x))

theorem Renumbered.solve_renumbered [StepSolver S J ℝ] [StepSolver S' J' ℝ]
    {Related : P → P' → Prop} {Layout : J → J' → Prop} {looks : Prop} {problem : Problem ℝ J P}
    {problem' : Problem ℝ J' P'} (h : Renumbered σ τ Related Layout looks problem problem')
    {R : S → S' → Prop} {solver : Solver ℝ S} {solver' : Solver ℝ S'}
    (hsolver : solver.Alike m n R solver')
    (hfits : StepSolver.fits J solver.stepSolver m n = StepSolver.fits J' solver'.stepSolver m n)
    (hsolve : StepSolver.fits J solver.stepSolver m n = true → RenumbersSteps J J' σ τ R)
    (hlooks : looks → solver'.buffers.residuals = permute σ solver.buffers.residuals ∧
      solver'.buffers.trialResiduals = permute σ solver.buffers.trialResiduals)
    {p : P} {q : P'} (hp : Related p q) {j : J} {j' : J'} (hlayout : Layout j j')
    (hshape : shape j = shape j') (o : Options ℝ) {x : Array ℝ} (hx : x.size = n) :
    (solver.solve problem o p j x).Renumbered σ τ R
      (solver'.solve problem' o q j' (permute τ x)) := by
  have hcharted : (solver.solve problem o p j x).Charted m n (renumbering σ τ) R
      (solver'.solve problem' o q j' (permute τ x)) :=
    solve_charted (χ := renumbering σ τ) (ρ := pairing R σ τ Related Layout looks) hfits
      (fun hfit => h.coordinated (hsolve hfit) o) hsolver hlooks hp
      (fun hj => ⟨hlayout, hj, hshape.symm.trans hj⟩) hshape ((size_permute τ x).trans hx.symm)
  exact hcharted.renumbered

theorem unnumbered_direct (m n k : ℕ) :
    Unnumbered (Dense.Matrix ℝ) (Dense.Matrix ℝ) (NormalEquations ℝ) m n
      (NormalEquations.Alike k) := by
  intro σ τ P P' Related Layout looks problem problem' h solver solver' hsolver hlooks p q hp j j'
    hlayout hshape o x hx
  obtain ⟨hk, hk'⟩ := hsolver.stepSolver
  refine h.solve_renumbered hsolver (by simp [StepSolver.fits, hk, hk']) (fun hfits => ?_) hlooks hp
    hlayout hshape o hx
  obtain rfl : k = n := by simpa [StepSolver.fits, hk] using hfits
  intro s s' j j' f dtd step step' lambda hs hj hf hdtd hstep hstep'
  exact NormalEquations.solve_permute hj hs hf hdtd lambda hstep hstep'

theorem unnumbered_iterative (J J' : Type) [LinearOperator J ℝ] [LinearOperator J' ℝ]
    (m n k l : ℕ) : Unnumbered J J' (Lsmr.DampedStep ℝ) m n (Lsmr.DampedStep.Alike k l) := by
  intro σ τ P P' Related Layout looks problem problem' h solver solver' hsolver hlooks p q hp j j'
    hlayout hshape o x hx
  obtain ⟨hs, hs', -⟩ := hsolver.stepSolver
  refine h.solve_renumbered hsolver (Bool.eq_iff_iff.2 (hs.fits_iff.trans hs'.fits_iff.symm))
    (fun hfits => ?_) hlooks hp hlayout hshape o hx
  obtain ⟨rfl, rfl⟩ := hs.fits_iff.1 hfits
  intro s s' j j' f dtd step step' lambda hs hj hf hdtd hstep hstep'
  exact Lsmr.DampedStep.solve_permute hj hs hf hdtd lambda hstep hstep'

/-- The numbers of residuals and parameters are no matter.  Every problem has a renumbering.  Solves
of renumbered problems from renumbered starts, with direct step solvers or with iterative ones of
the same parameters, have the same ending and the same reports, and renumbered parameters. -/
theorem renumbering_irrelevant :
    (∀ {P : Type} {m n : ℕ} {problem : Problem ℝ (Dense.Matrix ℝ) P}, problem.KeepsShapes m n →
      ∀ (σ : Equiv.Perm (Fin m)) (τ : Equiv.Perm (Fin n)),
        Renumbered σ τ Eq (fun j j' => j' = Exact.renumber σ τ j) True problem
          (problem.renumber σ τ)) ∧
    (∀ m n k : ℕ, Unnumbered (Dense.Matrix ℝ) (Dense.Matrix ℝ) (NormalEquations ℝ) m n
      (NormalEquations.Alike k)) ∧
    ∀ (J J' : Type) [LinearOperator J ℝ] [LinearOperator J' ℝ] (m n k l : ℕ),
      Unnumbered J J' (Lsmr.DampedStep ℝ) m n (Lsmr.DampedStep.Alike k l) :=
  ⟨renumbered_renumber, unnumbered_direct, fun J J' _ _ => unnumbered_iterative J J'⟩

/-- Three residuals that move on by one, and two parameters that change places. -/
theorem renumbering_irrelevant_cycled :
    let σ : Equiv.Perm (Fin 3) := finRotate 3
    let τ : Equiv.Perm (Fin 2) := Equiv.swap 0 1
    let J : Dense.Matrix ℝ :=
      .ofFn 3 2 fun row col => (#[#[1, 0], #[0, 2], #[1, 1]].getD row #[]).getD col 0
    let J' : Dense.Matrix ℝ :=
      .ofFn 3 2 fun row col => (#[#[2, 0], #[1, 1], #[0, 1]].getD row #[]).getD col 0
    let problem : Problem ℝ (Dense.Matrix ℝ) Unit :=
      ⟨fun p y _ => .done (p, #[y.getD 0 0 - 1, 2 * y.getD 1 0 - 2, y.getD 0 0 + y.getD 1 0 - 3]),
        fun p _ _ => .done (p, J)⟩
    let problem' : Problem ℝ (Dense.Matrix ℝ) Unit :=
      ⟨fun p y _ => .done (p, #[2 * y.getD 0 0 - 2, y.getD 1 0 + y.getD 0 0 - 3, y.getD 1 0 - 1]),
        fun p _ _ => .done (p, J')⟩
    let direct : Solver ℝ (NormalEquations ℝ) := ⟨3, 2, .new 2, .new 3 2⟩
    let iterative : Solver ℝ (Lsmr.DampedStep ℝ) := ⟨3, 2, .new 3 2 .default, .new 3 2⟩
    (problem.KeepsShapes 3 2 ∧ Renumbered σ τ Eq (fun _ _ => True) False problem problem') ∧
      Renumbered σ τ Eq (fun j j' => j' = Exact.renumber σ τ j) True problem
        (problem.renumber σ τ) ∧
      (direct.solve problem .default () (.zeros 3 2) #[3, 4]).Renumbered σ τ
        (NormalEquations.Alike 2) (direct.solve problem' .default () (.zeros 3 2) #[4, 3]) ∧
      (iterative.solve problem .default () (.zeros 3 2) #[3, 4]).Renumbered σ τ
        (Lsmr.DampedStep.Alike 3 2)
        (iterative.solve problem' .default () (.zeros 3 2) #[4, 3]) := by
  intro σ τ J J' problem problem' direct iterative
  have hshape (entry : ℕ → ℕ → ℝ) : shape (Dense.Matrix.ofFn 3 2 entry) = (3, 2) := by
    simp [shape, LinearOperator.nrows, LinearOperator.ncols, Dense.Matrix.ncols, Dense.Matrix.ofFn]
  have hkeeps : problem.KeepsShapes 3 2 :=
    { residuals := by
        rintro p y out _ - - ⟨⟩
        rfl
      jacobian := by
        rintro p y j _ - - ⟨⟩
        exact hshape _ }
  have hentries : entries 3 2 J' = (entries 3 2 J).submatrix σ τ := by
    ext i j
    rw [Matrix.submatrix_apply, entries_ofFn, entries_ofFn]
    fin_cases i <;> fin_cases j <;> rfl
  have hjacobians : Renumbers σ τ J J' :=
    ⟨entries 3 2 J, computes_entries rfl (Prod.mk.inj (hshape _)).2,
      hentries ▸ computes_entries rfl (Prod.mk.inj (hshape _)).2⟩
  have hrenumbered : Renumbered σ τ Eq (fun _ _ => True) False problem problem' :=
    { residuals := by
        rintro p _ y out out' rfl hy - - -
        refine .done ⟨rfl, ?_, rfl⟩
        rw [permute_eq_iff σ rfl]
        intro i
        fin_cases i <;> simp [σ, τ, permute]
      jacobian := fun _ _ _ _ _ _ _ _ => .done ⟨rfl, trivial, hjacobians⟩ }
  have hstart : #[4, 3] = permute τ #[(3 : ℝ), 4] := by
    rw [permute_eq_iff τ rfl]
    intro j
    fin_cases j <;> simp [τ]
  have hdirect : direct.Alike 3 2 (NormalEquations.Alike 2) direct :=
    ⟨rfl, rfl, rfl, rfl, Buffers.sized_new 3 2, Buffers.sized_new 3 2, rfl, rfl⟩
  have hiterative : iterative.Alike 3 2 (Lsmr.DampedStep.Alike 3 2) iterative :=
    ⟨rfl, rfl, rfl, rfl, Buffers.sized_new 3 2, Buffers.sized_new 3 2,
      Lsmr.DampedStep.shaped_new 3 2 .default, Lsmr.DampedStep.shaped_new 3 2 .default, rfl⟩
  obtain ⟨hrenumbers, hdirects, hiteratives⟩ := renumbering_irrelevant
  refine ⟨⟨hkeeps, hrenumbered⟩, hrenumbers hkeeps σ τ, ?_, ?_⟩
  · rw [hstart]
    exact hdirects 3 2 2 σ τ hrenumbered hdirect False.elim rfl trivial rfl .default rfl
  · rw [hstart]
    exact hiteratives _ _ 3 2 3 2 σ τ hrenumbered hiterative False.elim rfl trivial rfl .default rfl

end LeastSquares.Marquardt
