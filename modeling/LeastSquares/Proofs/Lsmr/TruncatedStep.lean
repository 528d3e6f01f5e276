import Mathlib
import LeastSquares.Proofs.Lsmr.DampedStep
import LeastSquares.Proofs.Lsmr.Residuals
import LeastSquares.Proofs.Lsmr.Reuse

/-!
# LSMR: damped steps with any parameters

Whatever the tolerances and the limit of its inner solves are, the step solver by LSMR answers every
problem of its shape, with an exit of a solve over the damped operator, and keeps its shape.
-/

namespace LeastSquares.Lsmr

open Exact
open Matrix (toEuclideanLin)
open LinearMap (adjoint)

variable {m n : ℕ}

noncomputable def DampedStep.system (B : Matrix (Fin m) (Fin n) ℝ) (d : Damping ℝ) :
    Matrix (Fin (m + n)) (Fin n) ℝ :=
  stacked B (vec n d.diagonal) (vec n d.normalization)

theorem DampedStep.Shaped.damping {s : DampedStep ℝ} (hs : s.Shaped m n) : s.damping.Sized n :=
  ⟨hs.diagonal, hs.normalization, hs.scratch⟩

theorem Workspace.Shaped.sized {w : Workspace ℝ} (hw : w.Shaped m n) : w.Sized m n :=
  ⟨hw.u, hw.v, hw.h, hw.hbar⟩

/-! ## The system of the inner solves -/

section System

variable {B : Matrix (Fin m) (Fin n) ℝ} {d : Damping ℝ} {f dtd x : Array ℝ}

theorem norm_sq_blocks (z : EuclideanSpace ℝ (Fin (m + n))) :
    ‖z‖ ^ 2 = ∑ i, z (Fin.castAdd n i) ^ 2 + ∑ k, z (Fin.natAdd m k) ^ 2 := by
  simp [EuclideanSpace.norm_sq_eq, Fin.sum_univ_add]

theorem norm_sq_rightHandSide (hf : f.size = m) :
    ‖vec (m + n) (DampedStep.rightHandSide f (m + n))‖ ^ 2 = ‖vec m f‖ ^ 2 := by
  rw [norm_sq_blocks, EuclideanSpace.norm_sq_eq]
  simp only [rightHandSide_castAdd hf, rightHandSide_natAdd hf, neg_sq, Real.norm_eq_abs, sq_abs]
  simp

theorem norm_sq_model_le (hd : d.Sized n) (hf : f.size = m) (hx : x.size = n) :
    ‖vec m f + toEuclideanLin B (vec n (d.unscale x))‖ ^ 2 ≤
      ‖toEuclideanLin (DampedStep.system B d) (vec n x) -
        vec (m + n) (DampedStep.rightHandSide f (m + n))‖ ^ 2 := by
  have hentry : ∀ i, (toEuclideanLin (DampedStep.system B d) (vec n x) -
      vec (m + n) (DampedStep.rightHandSide f (m + n))) (Fin.castAdd n i) =
        (vec m f + toEuclideanLin B (vec n (d.unscale x))) i := by
    intro i
    rw [PiLp.sub_apply, DampedStep.system, stacked_castAdd (vec_unscale hd hx),
      rightHandSide_castAdd hf, PiLp.add_apply]
    ring
  rw [norm_sq_blocks, EuclideanSpace.norm_sq_eq]
  simp only [hentry, Real.norm_eq_abs, sq_abs]
  exact le_add_of_nonneg_right (Finset.sum_nonneg fun k _ => sq_nonneg _)

theorem adjoint_system_apply (hf : f.size = m) (j : Fin n) :
    adjoint (toEuclideanLin (DampedStep.system B d))
        (vec (m + n) (DampedStep.rightHandSide f (m + n))) j =
      -adjoint (toEuclideanLin B) (vec m f) j / vec n d.normalization j := by
  rw [DampedStep.system, adjoint_stacked (u := -vec m f) (w := 0)
    (fun i => (rightHandSide_castAdd hf i).symm) (fun k => (rightHandSide_natAdd hf k).symm)]
  simp

theorem adjoint_system_eq_zero_iff (hd : d.Sized n) (lambda : ℝ) (hf : f.size = m)
    (hdtd : dtd.size = n) :
    adjoint (toEuclideanLin (DampedStep.system B (d.update lambda dtd)))
        (vec (m + n) (DampedStep.rightHandSide f (m + n))) = 0 ↔
      adjoint (toEuclideanLin B) (vec m f) = 0 := by
  constructor
  · intro h
    ext j
    have hj := adjoint_system_apply (B := B) (d := d.update lambda dtd) hf j
    rw [h, PiLp.zero_apply, eq_comm, div_eq_zero_iff,
      or_iff_left (normalization_update_pos lambda hd hdtd j).ne', neg_eq_zero] at hj
    exact hj
  · intro h
    ext j
    rw [adjoint_system_apply hf, h]
    simp

end System

/-! ## The answer -/

variable {J : Type} [LinearOperator J ℝ] {j : J} {B : Matrix (Fin m) (Fin n) ℝ}
  {s : DampedStep ℝ} {f step : Array ℝ}

theorem DampedStep.solve_ends (hj : Realizes j (toEuclideanLin B)) (hs : s.Shaped m n)
    (hf : f.size = m) (hstep : step.size = n) (dtd : Array ℝ) (lambda : ℝ) :
    ∃ answer t rule, s.solve j f dtd lambda step = .done answer ∧
      Exit s.workspace (⟨j, s.damping.update lambda dtd⟩ : DampedOperator J ℝ)
        (rightHandSide f (m + n)) (step.map fun _ => 0) s.params t rule ∧
      t.x.size = n ∧ answer.step = (s.damping.update lambda dtd).unscale t.x ∧
      answer.inner = some t.iteration ∧ answer.solver.Shaped m n ∧
      answer.solver.params = s.params := by
  have hle : f.size ≤ s.rhs.size := by
    rw [hs.rhs, hf]
    exact Nat.le_add_right _ _
  have hupdate : (s.damping.update lambda dtd).Sized n := sized_update hs.damping
  have hstart : (step.map fun _ => (0 : ℝ)).size = n := by simpa using hstep
  have hrhs : (rightHandSide f (m + n)).size = m + n := Lsmr.size_rightHandSide hf
  have hop := realizes_damped hj hupdate
  obtain ⟨t, rule, hexit, hinfo, hx, hworkspace⟩ :=
    solveFitting_ends hop hs.workspace.sized hrhs hstart s.params
  have hsize := (hexit.faithful hop hs.workspace.sized hrhs hstart).size_x
  have hsized := hexit.sized hop hs.workspace.sized hrhs hstart
  have hsolve : ∃ log, s.solve j f dtd lambda step = .done
      ⟨{ s with
          rhs := rightHandSide f (m + n)
          damping := s.damping.update lambda dtd
          workspace := t.workspace
          lastInfo := some (t.info rule) },
        (s.damping.update lambda dtd).unscale t.x, some t.iteration, log⟩ := by
    rw [solve, if_pos hle]
    simp only [hs.rhs, hinfo, hx, hworkspace]
    exact ⟨_, rfl⟩
  obtain ⟨log, hsolve⟩ := hsolve
  exact ⟨_, t, rule, hsolve, hexit, hsize, rfl, rfl,
    ⟨⟨hsized.u, hsized.v, hsized.h, hsized.hbar⟩, hupdate.diagonal, hupdate.normalization,
      hupdate.scratch, hrhs⟩, rfl⟩

end LeastSquares.Lsmr
