import Mathlib
import LeastSquares.Proofs.Lsmr.LoopHead
import LeastSquares.Proofs.Lsmr.Run

/-!
# LSMR: exact solves

Over exact scalars and without tolerances a solve ends at a minimizer after at most as many
iterations as the smaller dimension of the operator: each loop head needs one more dimension on
both sides, so the last of them is followed by a stopping rule.
-/

namespace LeastSquares.Lsmr

open Exact
open LinearMap (adjoint)

variable {A : Type} [LinearOperator A ℝ] {a : A} {m n : ℕ}
  {M : EuclideanSpace ℝ (Fin n) →ₗ[ℝ] EuclideanSpace ℝ (Fin m)}
  {b : EuclideanSpace ℝ (Fin m)} {x₀ : EuclideanSpace ℝ (Fin n)} {s : State ℝ} {p : Params ℝ}
  {damp : ℝ}

/-! ## One iteration -/

structure State.Turns (a : A) (damp : ℝ) (s : State ℝ) (g : Basis ℝ) (t : Turn ℝ) : Prop where
  extended : s.basis.extend a = .done g
  rotated : turn? damp g s.factors = some t

theorem State.Regular.exists_turns (ha : Realizes a M) (hs : s.Regular M damp b x₀) :
    ∃ g t, s.Turns a damp g t := by
  obtain ⟨g, hextend, -⟩ := Basis.extend_done ha (g := s.basis) ⟨hs.sized.u, hs.sized.v⟩
  obtain ⟨t, hturn, -⟩ := turn?_eq_some (g := g) damp hs.factors
  exact ⟨g, t, hextend, hturn⟩

namespace State.Turns

variable {g : Basis ℝ} {t : Turn ℝ}

theorem basis_extends (h : s.Turns a damp g t) (ha : Realizes a M)
    (hs : s.Regular M damp b x₀) : Basis.Extends M s.basis g := by
  obtain ⟨g', hextend, hg⟩ := Basis.extend_done ha (g := s.basis) ⟨hs.sized.u, hs.sized.v⟩
  cases h.extended.symm.trans hextend
  exact hg

theorem rotates (h : s.Turns a damp g t) (hs : s.Regular M damp b x₀) :
    t.Rotates damp g s.factors := by
  obtain ⟨t', hturn, ht⟩ := turn?_eq_some (g := g) damp hs.factors
  cases h.rotated.symm.trans hturn
  exact ht

variable {s' : State ℝ} {rule : Stop} (h : s.Turns a p.damp g t)

include h

theorem step_eq_next (hrule : (s.turned g t).stopRule? p = none) :
    step a p s = .next (s.turned g t) := by
  rw [State.turned] at hrule
  simp only [step, h.extended, h.rotated, hrule]
  rfl

theorem step_eq_stop (hrule : (s.turned g t).stopRule? p = some rule) :
    step a p s = .stop (s.turned g t) rule := by
  rw [State.turned] at hrule
  simp only [step, h.extended, h.rotated, hrule]
  rfl

theorem of_next (goes : step a p s = .next s') :
    s' = s.turned g t ∧ s'.stopRule? p = none := by
  cases hrule : (s.turned g t).stopRule? p with
  | none =>
    cases (h.step_eq_next hrule).symm.trans goes
    exact ⟨rfl, hrule⟩
  | some rule => cases (h.step_eq_stop hrule).symm.trans goes

theorem of_stop (stops : step a p s = .stop s' rule) :
    s' = s.turned g t ∧ s'.stopRule? p = some rule := by
  cases hrule : (s.turned g t).stopRule? p with
  | none => cases (h.step_eq_next hrule).symm.trans stops
  | some rule =>
    cases (h.step_eq_stop hrule).symm.trans stops
    exact ⟨rfl, hrule⟩

end State.Turns

theorem step_regular (ha : Realizes a M) (hp : p.Exact) (hs : s.Regular M p.damp b x₀) :
    (∃ t, step a p s = .next t ∧ t.Regular M p.damp b x₀ ∧ t.iteration = s.iteration + 1) ∨
      ∃ t rule, step a p s = .stop t rule ∧ t.Solves M p.damp b x₀ ∧
        t.iteration = s.iteration + 1 ∧ rule ≠ .maxIterations := by
  obtain ⟨g, t, hq⟩ := hs.exists_turns ha
  have hg := hq.basis_extends ha hs
  have ht := hq.rotates hs
  have hstop := hs.isSome_stopRule?_turned ht hp
  cases hrule : (s.turned g t).stopRule? p with
  | none =>
    left
    have hne : t.zetabar ≠ 0 := fun h => by simp [hrule, h] at hstop
    exact ⟨_, hq.step_eq_next hrule, hs.regular_turned hg ht hne, rfl⟩
  | some rule =>
    right
    have hzero : t.zetabar = 0 := by simpa [hrule] using hstop
    refine ⟨_, rule, hq.step_eq_stop hrule, hs.solves_turned hg ht hzero, rfl, ?_⟩
    rintro rfl
    exact (s.turned g t).stopRule?_ne_maxIterations p hrule

theorem iterate_regular (ha : Realizes a M) (hp : p.Exact) {further : ℕ}
    (hs : s.Regular M p.damp b x₀) (henough : min m n ≤ s.iteration + further + 1) :
    ∃ t rule, iterate a p further s = (t, some rule) ∧ t.Solves M p.damp b x₀ ∧
      t.iteration ≤ min m n ∧ rule ≠ .maxIterations := by
  induction further generalizing s with
  | zero =>
    rcases step_regular ha hp hs with
      ⟨t, -, ht, hiteration⟩ | ⟨t, rule, hstep, hsolves, hiteration, hrule⟩
    -- A further loop head would need more dimensions than there are.
    · have hlt := ht.iteration_lt
      omega
    · have hlt := hs.iteration_lt
      exact ⟨t, rule, by simp [iterate, hstep], hsolves, by omega, hrule⟩
  | succ further ih =>
    rcases step_regular ha hp hs with
      ⟨t, hstep, ht, hiteration⟩ | ⟨t, rule, hstep, hsolves, hiteration, hrule⟩
    · obtain ⟨last, rule, hiterate, hlast⟩ := ih ht (by omega)
      exact ⟨last, rule, by simp [iterate, hstep, hiterate], hlast⟩
    · have hlt := hs.iteration_lt
      exact ⟨t, rule, by simp [iterate, hstep], hsolves, by omega, hrule⟩

/-! ## The start -/

structure Basis.Starts (M : EuclideanSpace ℝ (Fin n) →ₗ[ℝ] EuclideanSpace ℝ (Fin m))
    (r : EuclideanSpace ℝ (Fin m)) (g : Basis ℝ) : Prop where
  sized : g.Sized m n
  beta_nonneg : 0 ≤ g.beta
  alpha_nonneg : 0 ≤ g.alpha
  residual : r = g.beta • vec m g.u
  parameter : adjoint M (vec m g.u) = g.alpha • vec n g.v
  norm_u : 0 < g.beta → ‖vec m g.u‖ = 1
  norm_v : 0 < g.alpha → ‖vec n g.v‖ = 1

theorem firstBasis_done (ha : Realizes a M) {w : Workspace ℝ} (hw : w.Sized m n)
    {rhs x : Array ℝ} (hrhs : rhs.size = m) (hx : x.size = n) :
    ∃ g, firstBasis w a rhs x = .done g ∧ g.Starts M (vec m rhs - M (vec n x)) := by
  obtain ⟨r, hr, hsize, hvec⟩ := ha.apply (-1) x 1 rhs hx hrhs
  have hu : (Vec.normalize (Vec.norm r) r).size = m := (Vec.size_normalize _ _).trans hsize
  obtain ⟨z, hz, hsize', hvec'⟩ := ha.applyTranspose 1 (Vec.normalize (Vec.norm r) r) 0 w.v hu hw.v
  refine ⟨⟨Vec.normalize (Vec.norm r) r, Vec.normalize (Vec.norm z) z, Vec.norm z, Vec.norm r⟩,
    by simp [firstBasis, hr, Basis.unit, hz], ?_⟩
  exact
    { sized := ⟨hu, (Vec.size_normalize _ _).trans hsize'⟩
      beta_nonneg := norm_eq hsize ▸ norm_nonneg _
      alpha_nonneg := norm_eq hsize' ▸ norm_nonneg _
      residual := by
        rw [norm_smul_normalize hsize, hvec]
        module
      parameter := by
        rw [norm_smul_normalize hsize', hvec']
        module
      norm_u := norm_normalize hsize
      norm_v := norm_normalize hsize' }

theorem Basis.Starts.regular {g : Basis ℝ} {x hbar : Array ℝ} (damp : ℝ)
    (hg : g.Starts M (b - M (vec n x))) (hx : x.size = n) (hhbar : hbar.size = n)
    (halpha : 0 < g.alpha) (hbeta : 0 < g.beta) :
    (State.initial hbar x g).Regular M damp b (vec n x) where
  sized := ⟨hg.sized.u, hg.sized.v, hg.sized.v, by simpa [State.initial, State.workspace]⟩
  size_x := hx
  alpha := halpha
  orthogonal := ⟨⊥, ⊥, by simp [State.initial], by simp [State.initial],
    .first (hg.norm_u hbeta) (hg.norm_v halpha) hg.parameter⟩
  factors := ⟨halpha, one_pos, one_pos, one_pos⟩
  residual := ⟨hbeta.ne', one_pos, le_rfl⟩
  operator := ⟨mul_pos halpha halpha, le_rfl, by simp only [State.initial]; norm_num⟩
  normB := hbeta
  conjugate := by
    simp only [State.initial, normal_apply, map_sub, map_smul, hg.parameter]
    module
  directions := by
    refine ⟨0, vec n g.v, ?_, ?_, ?_⟩
    · simp [State.initial, vec_map_zero hhbar]
    · simp [State.initial]
    · simp only [State.initial, normalResidual, hg.residual, map_smul, hg.parameter]
      module
  row_v := by
    refine (Submodule.smul_mem_iff _ halpha.ne').1 ?_
    exact hg.parameter ▸ LinearMap.mem_range_self _ _
  row_h := by
    refine (Submodule.smul_mem_iff _ halpha.ne').1 ?_
    exact hg.parameter ▸ LinearMap.mem_range_self _ _
  row_hbar := by simp [State.initial, vec_map_zero hhbar]
  row_x := by simp [State.initial]

/-! ## The solve -/

theorem solve_eq_ok (ha : Realizes a M) {w : Workspace ℝ} (hw : w.Sized m n) {rhs x : Array ℝ}
    (hrhs : rhs.size = m) (hx : x.size = n) (p : Params ℝ) :
    solve w a rhs x p = .ok (solveFitting w a rhs x p) := by
  have hshape : w.shape = LinearOperator.shape a := by
    simp [Workspace.shape, Workspace.nrows, Workspace.ncols, LinearOperator.shape, hw.u, hw.v,
      ha.nrows, ha.ncols]
  simp [solve, hshape, Workspace.nrows, Workspace.ncols, hw.u, hw.v, hrhs, hx]

structure Solution.Exact (M : EuclideanSpace ℝ (Fin n) →ₗ[ℝ] EuclideanSpace ℝ (Fin m)) (damp : ℝ)
    (b : EuclideanSpace ℝ (Fin m)) (x₀ : EuclideanSpace ℝ (Fin n)) (sol : Solution ℝ) : Prop where
  sized : sol.workspace.Sized m n
  size_x : sol.x.size = n
  normal : normalResidual M damp b x₀ (vec n sol.x) = 0
  row_x : vec n sol.x - x₀ ∈ LinearMap.range (adjoint M)
  info : ∃ info, sol.info = some info ∧ info.iterations ≤ max 1 (min m n) ∧
    info.stop ≠ .maxIterations

theorem solveFitting_exact (ha : Realizes a M) {w : Workspace ℝ} (hw : w.Sized m n)
    {rhs x : Array ℝ} (hrhs : rhs.size = m) (hx : x.size = n) (hp : p.Exact)
    (hiters : min m n ≤ p.maxIters) :
    (solveFitting w a rhs x p).Exact M p.damp (vec m rhs) (vec n x) := by
  obtain ⟨g, hfirst, hg⟩ := firstBasis_done ha hw hrhs hx
  unfold solveFitting
  simp only [hfirst]
  split
  case isTrue hzero =>
    have hproduct : g.beta * g.alpha = 0 := (mul_comm _ _).trans (of_decide_eq_true hzero)
    exact
      { sized := ⟨hg.sized.u, hg.sized.v, hg.sized.v, by
          simpa [State.initial, State.workspace] using hw.hbar⟩
        size_x := hx
        normal := by
          rw [normalResidual, hg.residual, map_smul, hg.parameter, smul_smul, hproduct]
          simp
        row_x := by simp
        info := ⟨_, rfl, le_max_left _ _, nofun⟩ }
  case isFalse hne =>
    have hproduct : g.alpha * g.beta ≠ 0 := fun h => hne (decide_eq_true h)
    have halpha := lt_of_le_of_ne hg.alpha_nonneg (left_ne_zero_of_mul hproduct).symm
    have hbeta := lt_of_le_of_ne hg.beta_nonneg (right_ne_zero_of_mul hproduct).symm
    have hs := hg.regular p.damp hx hw.hbar halpha hbeta
    have henough : min m n ≤ (State.initial w.hbar x g).iteration + (p.maxIters - 1) + 1 := by
      omega
    obtain ⟨t, rule, hiterate, hsolves, hle, hrule⟩ := iterate_regular ha hp hs henough
    rw [hiterate]
    exact ⟨hsolves.sized, hsolves.size_x, hsolves.normal, hsolves.row_x,
      ⟨_, rfl, hle.trans (le_max_right _ _), hrule⟩⟩

/-- A solve over exact scalars without tolerances stops after at most as many iterations as the
smaller dimension of the operator, never at the limit.  Its `x` is a minimizer, it differs from the
start by a vector of the row space, and without damping it is the one minimizer closest to the
start. -/
theorem solve_minimizes (ha : Realizes a M) {w : Workspace ℝ} (hw : w.Sized m n)
    {rhs x : Array ℝ} (hrhs : rhs.size = m) (hx : x.size = n) (hp : p.Exact)
    (hiters : min m n ≤ p.maxIters) :
    ∃ sol info, solve w a rhs x p = .ok sol ∧ sol.info = some info ∧
      info.iterations ≤ max 1 (min m n) ∧ info.stop ≠ .maxIterations ∧ sol.x.size = n ∧
      (∀ y, objective M p.damp (vec m rhs) (vec n x) (vec n sol.x) ≤
        objective M p.damp (vec m rhs) (vec n x) y) ∧
      vec n sol.x - vec n x ∈ LinearMap.range (adjoint M) ∧
      (p.damp = 0 → ∀ y, ‖M y - vec m rhs‖ ≤ ‖M (vec n sol.x) - vec m rhs‖ → y ≠ vec n sol.x →
        ‖vec n sol.x - vec n x‖ < ‖y - vec n x‖) := by
  have hsolve := solve_eq_ok ha hw hrhs hx p
  have hexact := solveFitting_exact ha hw hrhs hx hp hiters
  obtain ⟨info, hinfo, hle, hstop⟩ := hexact.info
  refine ⟨_, info, hsolve, hinfo, hle, hstop, hexact.size_x, objective_le hexact.normal,
    hexact.row_x, ?_⟩
  intro hdamp y hy hne
  refine norm_sub_lt_of_minimizer hexact.normal hexact.row_x ?_ hne
  rw [objective, objective, hdamp]
  have hsq := pow_le_pow_left₀ (norm_nonneg _) hy 2
  linarith

/-- The minimum-norm solution of a rank-deficient system. -/
theorem solve_minimizes_ones :
    let a : Dense.Matrix ℝ := .ofFn 2 3 fun _ _ => 1
    let p : Params ℝ := ⟨0, 0, 0, 2, 0⟩
    Realizes a (linear 2 3 a) ∧ p.Exact ∧
      ∃ sol info, solve (Workspace.new 2 3) a #[1, 2] (Vec.zeros 3) p = .ok sol ∧
        sol.info = some info ∧ info.iterations ≤ 2 ∧ info.stop ≠ .maxIterations ∧
          ∀ y, ‖linear 2 3 a (vec 3 sol.x) - vec 2 #[1, 2]‖ ≤
            ‖linear 2 3 a y - vec 2 #[1, 2]‖ := by
  intro a p
  have ha : Realizes a (linear 2 3 a) := realizes_ofFn 2 3 _
  have hp : p.Exact := ⟨rfl, rfl, le_rfl⟩
  have hrhs : (#[1, 2] : Array ℝ).size = 2 := rfl
  have hx : (Vec.zeros 3 : Array ℝ).size = 3 := by simp [Vec.zeros]
  obtain ⟨sol, info, hsolve, hinfo, hle, hstop, -, hmin, -, -⟩ :=
    solve_minimizes ha (Workspace.sized_new 2 3) hrhs hx hp (by decide)
  refine ⟨ha, hp, sol, info, hsolve, hinfo, hle, hstop, ?_⟩
  intro y
  have hy := hmin y
  simp only [objective, p] at hy
  refine le_of_sq_le_sq ?_ (norm_nonneg _)
  linarith

end LeastSquares.Lsmr
