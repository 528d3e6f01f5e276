import LeastSquares.Double
import LeastSquares.Proofs.Dense.Reuse
import LeastSquares.Proofs.Lsmr.Completion
import LeastSquares.Proofs.Marquardt.Parallel
import LeastSquares.Proofs.Operators.Forgetting

/-!
# Levenberg–Marquardt: leftovers in buffers

Operators leave nothing of what their buffers and scratch vectors held, so nothing of it reaches a
solve: LSMR from two workspaces over operators that forget, and two outer solves whose Jacobians
forget, have the same results.
-/

namespace LeastSquares.Marquardt

open LinearOperator (Agree Forgets ncols nrows shape)

variable {α S J J' P P' : Type} [Scalar α] [LinearOperator J α] [LinearOperator J' α]

/-- Problems with `m` residuals and `n` parameters whose callbacks answer alike from related states,
with Jacobians that are related by `Written`.  They may rely on a layout of the Jacobians that they
keep, and the residuals may look at what their buffer held. -/
structure Twins (m n : Nat) (Related : P → P' → Prop) (Layout Written : J → J' → Prop)
    (looks : Prop) (problem : Problem α J P) (problem' : Problem α J' P') : Prop where
  residuals : ∀ {p q} (y out out' : Array α), Related p q → y.size = n → out.size = m →
    out'.size = m → (looks → out = out') →
    Outcome.Alike (fun a b => Related a.1 b.1 ∧ a.2 = b.2 ∧ a.2.size = m) (fun _ _ => True)
      (problem.residuals p y out) (problem'.residuals q y out')
  jacobian : ∀ {p q} (y : Array α) {j j'}, Related p q → y.size = n → Layout j j' →
    shape j = (m, n) → shape j' = (m, n) →
    Outcome.Alike
      (fun a b => Related a.1 b.1 ∧ Layout a.2 b.2 ∧ shape a.2 = (m, n) ∧ Written a.2 b.2)
      (fun _ _ => True) (problem.jacobian p y j) (problem'.jacobian q y j')

def AnswersAlike (J J' : Type) [LinearOperator J α] [LinearOperator J' α] [StepSolver S J α]
    [StepSolver S J' α] (m n : Nat) (Written : J → J' → Prop) (R : S → S → Prop) : Prop :=
  ∀ {s s' : S} {j : J} {j' : J'} (f dtd : Array α) (lambda : α) (step step' : Array α), R s s' →
    shape j = (m, n) → Written j j' → dtd.size = n → step.size = n → step'.size = n →
    Outcome.Alike (StepAnswer.Charted n id R) (fun r r' => r'.log = r.log)
      (StepSolver.solveStep s j f dtd lambda step) (StepSolver.solveStep s' j' f dtd lambda step')

namespace Twins

variable {m n : Nat} {Related : P → P' → Prop} {Layout Written : J → J' → Prop} {looks : Prop}
  {problem : Problem α J P} {problem' : Problem α J' P'}

def pairing (R : S → S → Prop) (m n : Nat) (Related : P → P' → Prop)
    (Layout Written : J → J' → Prop) (looks : Prop) : Pairing α S S J J' P P' where
  stepSolver := R
  layout j j' := Layout j j' ∧ shape j = (m, n) ∧ shape j' = (m, n)
  written j j' := Layout j j' ∧ shape j = (m, n) ∧ Written j j'
  problem := Related
  looks := looks

theorem sideBySide [StepSolver S J α] [StepSolver S J' α]
    (h : Twins m n Related Layout Written looks problem problem')
    (hagree : ∀ {j j'}, shape j = (m, n) → Written j j' → Agree m n j j') {R : S → S → Prop}
    (hsolve : AnswersAlike J J' m n Written R) :
    SideBySide m n (pairing R m n Related Layout Written looks) problem problem' where
  residuals := h.residuals
  jacobian := by
    rintro p q y j j' hp hy ⟨hlayout, hj, hj'⟩
    exact h.jacobian y hp hy hlayout hj hj'
  layout := by
    rintro j j' ⟨hlayout, hj, hwritten⟩
    have h := hagree hj hwritten
    exact ⟨hlayout, hj, (Prod.ext h.nrows h.ncols).symm.trans hj⟩
  agree := by
    rintro j j' ⟨-, hj, hwritten⟩
    exact hagree hj hwritten
  damping _ := trivial
  diagonal _ := trivial
  solveStep := by
    rintro s s' j j' f dtd lambda step step' hs ⟨-, hj, hwritten⟩ - hdtd hstep hstep'
    exact hsolve f dtd lambda step step' hs hj hwritten hdtd hstep hstep'

end Twins

def Indifferent (J J' S : Type) [LinearOperator J Float] [LinearOperator J' Float]
    [StepSolver S J Float] [StepSolver S J' Float] (m n : Nat) (Written : J → J' → Prop)
    (R : S → S → Prop) : Prop :=
  ∀ {P P' : Type} {Related : P → P' → Prop} {Layout : J → J' → Prop} {looks : Prop}
    {problem : Problem Float J P} {problem' : Problem Float J' P'},
    Twins m n Related Layout Written looks problem problem' →
    ∀ {solver solver' : Solver Float S}, solver.Alike m n R solver' →
    (looks → solver.buffers.residuals = solver'.buffers.residuals ∧
      solver.buffers.trialResiduals = solver'.buffers.trialResiduals) →
    ∀ {p : P} {q : P'}, Related p q → ∀ {j : J} {j' : J'}, Layout j j' → shape j = shape j' →
    ∀ (o : Options Float) (x : Array Float),
      (solver.solve problem o p j x).Alike m n R (solver'.solve problem' o q j' x)

theorem Twins.indifferent {J J' S : Type} [LinearOperator J Float] [LinearOperator J' Float]
    [StepSolver S J Float] [StepSolver S J' Float] {m n : Nat} {Written : J → J' → Prop}
    {R : S → S → Prop}
    (hagree : ∀ {j j'}, shape j = (m, n) → Written j j' → Agree m n j j')
    (hfits : ∀ {s s' : S}, R s s' → StepSolver.fits J s m n = StepSolver.fits J' s' m n)
    (hsolve : ∀ {s s' : S}, R s s' → StepSolver.fits J s m n = true →
      AnswersAlike J J' m n Written R) :
    Indifferent J J' S m n Written R := by
  intro P P' Related Layout looks problem problem' h solver solver' hsolver hlooks p q hp j j'
    hlayout hshape o x
  exact solve_alike (ρ := Twins.pairing R m n Related Layout Written looks)
    (hfits hsolver.stepSolver)
    (fun hfit => h.sideBySide hagree (hsolve hsolver.stepSolver hfit)) hsolver hlooks hp
    (fun hj => ⟨hlayout, hj, hshape.symm.trans hj⟩) hshape

theorem indifferent_direct (m n k : Nat) :
    Indifferent (Dense.Matrix Float) (Dense.Matrix Float) (Dense.NormalEquations Float) m n Eq
      (Dense.NormalEquations.Alike k) := by
  have hzero : ((0 : Float) == 0) = true := by decide
  apply Twins.indifferent
  · rintro j _ - rfl
    exact j.overwrites m n
  · rintro s s' ⟨hk, hk'⟩
    simp [StepSolver.fits, hk, hk']
  · intro r r' hr hfits
    obtain rfl : k = n := by simpa [StepSolver.fits, hr.1] using hfits
    rintro s s' j _ f dtd lambda step step' hs - rfl - hstep hstep'
    exact Dense.NormalEquations.solve_alike hzero hs j f dtd lambda hstep hstep'

theorem indifferent_iterative (J J' : Type) [LinearOperator J Float] [LinearOperator J' Float]
    (m n k l : Nat) :
    Indifferent J J' (Lsmr.DampedStep Float) m n Forgets (Lsmr.DampedStep.Alike k l) := by
  have hzero : ((0 : Float) == 0) = true := by decide
  apply Twins.indifferent
  · intro j j' hj h
    obtain ⟨rfl, rfl⟩ := Prod.mk.inj hj
    exact h.agree
  · rintro s s' ⟨hs, hs', -⟩
    exact Bool.eq_iff_iff.2 (hs.fits_iff.trans hs'.fits_iff.symm)
  · intro r r' hr hfits
    obtain ⟨rfl, rfl⟩ := hr.shaped.fits_iff.1 hfits
    intro s s' j j' f dtd lambda step step' hs hj h hdtd hstep hstep'
    obtain ⟨rfl, rfl⟩ := Prod.mk.inj hj
    exact Lsmr.DampedStep.solve_alike hzero hs h.agree f lambda hdtd hstep hstep'

/-- Nothing of what a buffer or a scratch vector held shows in a result.  Products with a zero of
either sign and column norms over a dense or a sparse matrix, damped any number of times, are the
same on any two buffers, and damping an operator with this property keeps it.  So LSMR over two such
operators from any two workspaces has the same results, and so have two outer solves with direct or
iterative step solvers. -/
theorem leftovers_irrelevant :
    (∀ zero ∈ [(0 : Float), -0], (zero == 0) = true) ∧
    (∀ {A : Type} [LinearOperator A Float] {a a' : A}, Leftover a a' → Forgets a a') ∧
    (∀ {A A' : Type} [LinearOperator A Float] [LinearOperator A' Float] {a : A} {a' : A'}
      {d d' : Damping Float}, Forgets a a' → d.Match (ncols a) d' →
      Forgets (⟨a, d⟩ : DampedOperator A Float) (⟨a', d'⟩ : DampedOperator A' Float)) ∧
    (∀ {A A' : Type} [LinearOperator A Float] [LinearOperator A' Float] {a : A} {a' : A'}
      {m n : Nat} {w w' : Lsmr.Workspace Float}, Forgets a a' → w.Shaped m n → w'.Shaped m n →
      ∀ (b x : Array Float) (p : Lsmr.Params Float),
        (∃ e, Lsmr.solve w a b x p = .error e ∧ Lsmr.solve w' a' b x p = .error e) ∨
          ∃ sol sol', Lsmr.solve w a b x p = .ok sol ∧ Lsmr.solve w' a' b x p = .ok sol' ∧
            sol.Alike m n sol') ∧
    (∀ m n k : Nat, Indifferent (Dense.Matrix Float) (Dense.Matrix Float)
      (Dense.NormalEquations Float) m n Eq (Dense.NormalEquations.Alike k)) ∧
    ∀ (J J' : Type) [LinearOperator J Float] [LinearOperator J' Float] (m n k l : Nat),
      Indifferent J J' (Lsmr.DampedStep Float) m n Forgets (Lsmr.DampedStep.Alike k l) := by
  have hzero : ((0 : Float) == 0) = true := by decide
  refine ⟨by decide, fun h => h.forgets hzero, fun h hd => DampedOperator.forgets hzero h hd,
    fun h hw hw' b x p => Lsmr.solve_alike hzero h.agree hw hw' b x p, indifferent_direct,
    fun J J' _ _ => indifferent_iterative J J'⟩

/-- A dense matrix that is damped twice, and buffers, workspaces and scratch vectors in which nothing
is a number. -/
theorem leftovers_irrelevant_nested :
    let nan : Float := 0 / 0
    let J : Dense.Matrix Float := ⟨1, #[#[2]], by decide⟩
    let d : Damping Float := ⟨#[1], #[2], #[nan]⟩
    let d' : Damping Float := ⟨#[1], #[2], #[0]⟩
    let op : DampedOperator (DampedOperator (Dense.Matrix Float) Float) Float := ⟨⟨J, d⟩, d⟩
    let op' : DampedOperator (DampedOperator (Dense.Matrix Float) Float) Float := ⟨⟨J, d'⟩, d'⟩
    let w : Lsmr.Workspace Float := ⟨#[nan, nan, nan], #[nan], #[nan], #[nan]⟩
    let problem : Problem Float (DampedOperator (DampedOperator (Dense.Matrix Float) Float) Float)
        Unit :=
      ⟨fun p y _ => .done (p, #[y.getD 0 0, 1, 2]), fun p _ j => .done (p, j)⟩
    let solver : Solver Float (Lsmr.DampedStep Float) :=
      ⟨3, 1, ⟨⟨#[nan, nan, nan, nan], #[nan], #[nan], #[nan]⟩, ⟨#[nan], #[nan], #[nan]⟩,
        #[nan, nan, nan, nan], .default, none⟩,
        ⟨#[nan, nan, nan], #[nan, nan, nan], #[nan, nan, nan], #[nan], #[nan], #[nan]⟩⟩
    let solver' : Solver Float (Lsmr.DampedStep Float) := ⟨3, 1, .new 3 1 .default, .new 3 1⟩
    let layout := fun j j' => j = op ∧ j' = op'
    (Leftover op op' ∧ w.Shaped 3 1 ∧ Twins 3 1 Eq layout Forgets False problem problem ∧
      solver.Alike 3 1 (Lsmr.DampedStep.Alike 3 1) solver') ∧
    (∃ r, LinearOperator.apply op 1 #[4] (-0) #[nan, nan, nan] = .done r ∧
      LinearOperator.apply op' 1 #[4] (-0) #[0, 0, 0] = .done r) ∧
    (∃ sol sol', Lsmr.solve w op #[1, 2, 3] #[0] .default = .ok sol ∧
      Lsmr.solve (.new 3 1) op' #[1, 2, 3] #[0] .default = .ok sol' ∧ sol.x = sol'.x) ∧
    (solver.solve problem .default () op #[3]).x =
      (solver'.solve problem .default () op' #[3]).x := by
  intro nan J d d' op op' w problem solver solver' layout
  have hmatch : d.Match 1 d' := ⟨rfl, rfl, rfl, rfl, rfl, rfl⟩
  have hleftover : Leftover op op' := .damped (.damped (.dense J) hmatch) hmatch
  have hw : w.Shaped 3 1 := ⟨rfl, rfl, rfl, rfl⟩
  have hsolver : solver.Alike 3 1 (Lsmr.DampedStep.Alike 3 1) solver' :=
    ⟨rfl, rfl, rfl, rfl, ⟨rfl, rfl, rfl, rfl, rfl, rfl⟩, Buffers.sized_new 3 1,
      ⟨⟨rfl, rfl, rfl, rfl⟩, rfl, rfl, rfl, rfl⟩, Lsmr.DampedStep.shaped_new 3 1 .default, rfl⟩
  obtain ⟨hzeros, hforgets, -, hlsmr, -, hiterative⟩ := leftovers_irrelevant
  have hop : Forgets op op' := hforgets hleftover
  have htwins : Twins 3 1 Eq layout Forgets False problem problem :=
    { residuals := fun _ _ _ hp _ _ _ _ => .done ⟨hp, rfl, rfl⟩
      jacobian := by
        rintro p _ y j j' rfl - ⟨rfl, rfl⟩ hj -
        exact .done ⟨rfl, ⟨rfl, rfl⟩, hj, hop⟩ }
  refine ⟨⟨hleftover, hw, htwins, hsolver⟩, ?_, ?_, ?_⟩
  · exact hop.product 1 #[4] (-0) _ _ (hzeros (-0) (by simp)) rfl rfl rfl
  · obtain ⟨e, he, -⟩ | ⟨sol, sol', hsol, hsol', halike⟩ := hlsmr hop hw
      (Lsmr.Workspace.shaped_new 3 1) #[1, 2, 3] #[0] .default
    · obtain ⟨sol, _, hsol, -⟩ :=
        (Lsmr.shapeChecked hw hop.completes #[1, 2, 3] #[0] .default).ends rfl rfl rfl
      cases he.symm.trans hsol
    · exact ⟨sol, sol', hsol, hsol', halike.x⟩
  · exact (hiterative _ _ 3 1 3 1 htwins hsolver False.elim rfl ⟨rfl, rfl⟩ rfl .default #[3]).x

end LeastSquares.Marquardt
