import Mathlib
import LeastSquares.Proofs.Lsmr.TruncatedStep

/-!
# LSMR: invariant subspaces

Where the operator and its adjoint map two subspaces into each other and the residual at the start
lies in one of them, every vector of a solve stays inside, whichever rule stops it.  Over the damped
operator a zero column of the Jacobian gives such a pair: the parameters without this component and
the residuals without its damping slot.
-/

namespace LeastSquares.Lsmr

open Exact
open Matrix (toEuclideanLin)
open LinearMap (adjoint)

section Run

variable {A : Type} [LinearOperator A ℝ] {a : A} {m n : ℕ}
  {M : EuclideanSpace ℝ (Fin n) →ₗ[ℝ] EuclideanSpace ℝ (Fin m)} {b : EuclideanSpace ℝ (Fin m)}
  {x₀ : EuclideanSpace ℝ (Fin n)} {V : Submodule ℝ (EuclideanSpace ℝ (Fin n))}
  {W : Submodule ℝ (EuclideanSpace ℝ (Fin m))} {s t : State ℝ} {g : Basis ℝ} {q : Turn ℝ}
  {p : Params ℝ} {damp : ℝ}

structure State.Within (V : Submodule ℝ (EuclideanSpace ℝ (Fin n)))
    (W : Submodule ℝ (EuclideanSpace ℝ (Fin m))) (x₀ : EuclideanSpace ℝ (Fin n)) (s : State ℝ) :
    Prop where
  u : vec m s.basis.u ∈ W
  v : vec n s.basis.v ∈ V
  h : vec n s.h ∈ V
  hbar : vec n s.hbar ∈ V
  x : vec n s.x - x₀ ∈ V

/-- A map and its adjoint map the subspaces into each other. -/
structure Invariant (M : EuclideanSpace ℝ (Fin n) →ₗ[ℝ] EuclideanSpace ℝ (Fin m))
    (V : Submodule ℝ (EuclideanSpace ℝ (Fin n))) (W : Submodule ℝ (EuclideanSpace ℝ (Fin m))) :
    Prop where
  map : ∀ y ∈ V, M y ∈ W
  adjoint : ∀ z ∈ W, adjoint M z ∈ V

theorem Basis.Extends.within (hM : Invariant M V W) (hg : Basis.Extends M s.basis g)
    (hu : vec m s.basis.u ∈ W) (hv : vec n s.basis.v ∈ V) (hbeta : 0 < g.beta)
    (halpha : 0 < g.alpha) : vec m g.u ∈ W ∧ vec n g.v ∈ V := by
  have hu' : vec m g.u ∈ W := by
    refine (Submodule.smul_mem_iff _ hbeta.ne').1 ?_
    rw [← hg.residual]
    exact sub_mem (hM.map _ hv) (Submodule.smul_mem _ _ hu)
  refine ⟨hu', (Submodule.smul_mem_iff _ halpha.ne').1 ?_⟩
  rw [← hg.parameter hbeta]
  exact sub_mem (hM.adjoint _ hu') (Submodule.smul_mem _ _ hv)

namespace State.Within

variable (hw : s.Within V W x₀) (hs : s.Regular M damp b x₀)

include hw hs

theorem hbar_turned : vec n (s.turned g q).hbar ∈ V := by
  rw [vec_hbar_turned hs.sized.h hs.sized.hbar]
  exact sub_mem hw.h (Submodule.smul_mem _ _ hw.hbar)

theorem x_turned : vec n (s.turned g q).x - x₀ ∈ V := by
  rw [vec_x_turned hs.size_x hs.sized.hbar, add_sub_right_comm]
  exact add_mem hw.x (Submodule.smul_mem _ _ (hw.hbar_turned hs))

theorem turned (hM : Invariant M V W) (hg : Basis.Extends M s.basis g) (hbeta : 0 < g.beta)
    (halpha : 0 < g.alpha) : (s.turned g q).Within V W x₀ := by
  obtain ⟨hu, hv⟩ := hg.within hM hw.u hw.v hbeta halpha
  refine ⟨hu, hv, ?_, hw.hbar_turned hs, hw.x_turned hs⟩
  rw [vec_h_turned hs.sized.h hg.sized.v]
  exact sub_mem hv (Submodule.smul_mem _ _ hw.h)

end State.Within

theorem State.Within.step (ha : Realizes a M) (hM : Invariant M V W)
    (hs : s.Tracks M p.damp b x₀) (hw : s.Within V W x₀) :
    (∀ t, (Lsmr.step a p s).state? = some t → vec n t.x - x₀ ∈ V) ∧
      ∀ t, Lsmr.step a p s = .next t → t.Within V W x₀ := by
  obtain ⟨g, q, hg, ht, -, ⟨-, hstep, htracks⟩ | ⟨rule, -, hstep⟩⟩ := step_tracks ha hs
  · refine ⟨fun t h => ?_, fun t h => ?_⟩
    · rw [hstep] at h
      cases h
      exact hw.x_turned hs.regular
    · cases hstep.symm.trans h
      -- There is a further vector on both sides, since something of the residual is left.
      have hsbar : q.sbar ≠ 0 := by
        intro hzero
        exact htracks.zetabar_ne_zero (ht.zetabar.trans (by rw [hzero, neg_zero, zero_mul]))
      obtain ⟨hbeta, halpha⟩ := ht.further hg hs.regular.alpha.le hsbar
      exact hw.turned hs.regular hM hg hbeta halpha
  · refine ⟨fun t h => ?_, fun t h => ?_⟩
    · rw [hstep] at h
      cases h
      exact hw.x_turned hs.regular
    · cases hstep.symm.trans h

variable {w : Workspace ℝ} {rhs x : Array ℝ} {rule : Stop} (ha : Realizes a M) (hw : w.Sized m n)
  (hrhs : rhs.size = m) (hx : x.size = n) (hM : Invariant M V W)
  (hr : vec m rhs - M (vec n x) ∈ W)

include ha hw hrhs hx hM hr

theorem Head.within (head : Head w a rhs x p s) : s.Within V W (vec n x) := by
  induction head with
  | first starts moves =>
    rename_i g
    obtain ⟨g', hfirst, hg⟩ := firstBasis_done ha hw hrhs hx
    obtain rfl : g = g' := Outcome.done.inj (starts.symm.trans hfirst)
    have hproduct : g.alpha * g.beta ≠ 0 := of_decide_eq_false moves
    have hu : vec m g.u ∈ W := by
      refine (Submodule.smul_mem_iff _ (right_ne_zero_of_mul hproduct)).1 ?_
      exact hg.residual ▸ hr
    have hv : vec n g.v ∈ V := by
      refine (Submodule.smul_mem_iff _ (left_ne_zero_of_mul hproduct)).1 ?_
      exact hg.parameter ▸ hM.adjoint _ hu
    exact ⟨hu, hv, hv, by simp [State.initial, vec_map_zero hw.hbar], by simp [State.initial]⟩
  | next head goes _ ih => exact (ih.step ha hM (head.tracks ha hw hrhs hx)).2 _ goes

theorem Exit.mem (h : Exit w a rhs x p t rule) : vec n t.x - vec n x ∈ V := by
  cases h with
  | rests => simp [State.initial]
  | stopped head stops =>
    exact ((head.within ha hw hrhs hx hM hr).step ha hM (head.tracks ha hw hrhs hx)).1 _
      (by rw [stops]; rfl)
  | limit head goes =>
    exact ((head.within ha hw hrhs hx hM hr).step ha hM (head.tracks ha hw hrhs hx)).1 _
      (by rw [goes]; rfl)

end Run

/-! ## Zero columns -/

section Columns

variable {m n : ℕ}

def without (j : Fin n) : Submodule ℝ (EuclideanSpace ℝ (Fin n)) where
  carrier := {y | y j = 0}
  add_mem' := by
    intro y z (hy : y j = 0) (hz : z j = 0)
    simp [hy, hz]
  zero_mem' := rfl
  smul_mem' := by
    intro c y (hy : y j = 0)
    simp [hy]

variable {B : Matrix (Fin m) (Fin n) ℝ} {j : Fin n}

theorem adjoint_apply_of_column (hB : ∀ i, B i j = 0) (y : EuclideanSpace ℝ (Fin m)) :
    adjoint (toEuclideanLin B) y j = 0 := by
  rw [adjoint_apply_eq_sum]
  exact Finset.sum_eq_zero fun i _ => by rw [hB, zero_mul]

theorem invariant_system (hB : ∀ i, B i j = 0) (d : Damping ℝ) :
    Invariant (toEuclideanLin (DampedStep.system B d)) (without j) (without (Fin.natAdd m j)) where
  map y hy := by
    have hentry : y j = 0 := hy
    change toEuclideanLin (DampedStep.system B d) y (Fin.natAdd m j) = 0
    rw [DampedStep.system, stacked_natAdd
      (y := WithLp.toLp 2 fun k => y k / vec n d.normalization k) (fun k => rfl)]
    simp [hentry]
  adjoint z hz := by
    have hentry : z (Fin.natAdd m j) = 0 := hz
    change adjoint (toEuclideanLin (DampedStep.system B d)) z j = 0
    rw [DampedStep.system, adjoint_stacked (u := WithLp.toLp 2 fun i => z (Fin.castAdd n i))
      (w := WithLp.toLp 2 fun k => z (Fin.natAdd m k)) (fun i => rfl) (fun k => rfl),
      adjoint_apply_of_column hB]
    simp [hentry]

theorem DampedStep.solve_entry {J : Type} [LinearOperator J ℝ] {jacobian : J}
    (hj : Realizes jacobian (toEuclideanLin B)) (hB : ∀ i, B i j = 0) {s : DampedStep ℝ}
    (hs : s.Shaped m n) {f step : Array ℝ} (hf : f.size = m) (hstep : step.size = n)
    (dtd : Array ℝ) (lambda : ℝ) :
    ∃ answer, s.solve jacobian f dtd lambda step = .done answer ∧ answer.solver.Shaped m n ∧
      answer.step.size = n ∧ vec n answer.step j = 0 := by
  obtain ⟨answer, t, rule, hsolve, hexit, hsize, hanswer, -, hshaped, -⟩ :=
    solve_ends hj hs hf hstep dtd lambda
  have hupdate : (s.damping.update lambda dtd).Sized n := sized_update hs.damping
  have hstart : vec n (step.map fun _ => (0 : ℝ)) = 0 := vec_map_zero hstep
  have hmem := hexit.mem (realizes_damped hj hupdate) hs.workspace.sized
    (Lsmr.size_rightHandSide hf) (by simpa using hstep)
    (invariant_system hB (s.damping.update lambda dtd)) (by
      rw [hstart, map_zero, sub_zero]
      exact rightHandSide_natAdd hf j)
  rw [hstart, sub_zero] at hmem
  have hentry : vec n t.x j = 0 := hmem
  refine ⟨answer, hsolve, hshaped, ?_, ?_⟩
  · rw [hanswer]
    exact (Vec.size_zipUpdate _ _ _).trans hsize
  · rw [hanswer, vec_unscale hupdate hsize, hentry, zero_div]

end Columns

end LeastSquares.Lsmr
