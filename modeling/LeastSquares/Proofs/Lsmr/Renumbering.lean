import LeastSquares.Proofs.Exact.Renumbering
import LeastSquares.Proofs.Lsmr.Isometry
import LeastSquares.Proofs.Lsmr.TruncatedStep

/-!
# LSMR: renumbered damped steps

The damped operator of a renumbered Jacobian is the renumbered damped operator: its rows are the
residuals and then the parameters, each in their new numbers.  So the inner solves are turned
against each other, and the step solver answers the renumbered step.
-/

namespace LeastSquares.Lsmr.DampedStep

open Exact
open Matrix (toEuclideanLin)

variable {m n : ℕ} {σ : Equiv.Perm (Fin m)} {τ : Equiv.Perm (Fin n)}
  {f dtd step step' x x' : Array ℝ} {d d' : Damping ℝ}

theorem carries_rightHandSide (σ : Equiv.Perm (Fin m)) (τ : Equiv.Perm (Fin n)) (hf : f.size = m) :
    Carries (permutation (blockPerm σ τ)) (rightHandSide f (m + n))
      (rightHandSide (permute σ f) (m + n)) := by
  refine ⟨Lsmr.size_rightHandSide hf, Lsmr.size_rightHandSide (size_permute σ f), ?_⟩
  ext i
  refine Fin.addCases (fun i => ?_) (fun j => ?_) i
  · rw [permutation_apply, blockPerm_castAdd, rightHandSide_castAdd hf,
      rightHandSide_castAdd (size_permute σ f), vec_permute, permutation_apply]
  · rw [permutation_apply, blockPerm_natAdd, rightHandSide_natAdd hf,
      rightHandSide_natAdd (size_permute σ f)]

/-- The damping of renumbered column norms, whatever both held before. -/
structure Renumbered (τ : Equiv.Perm (Fin n)) (d d' : Damping ℝ) : Prop where
  sized : d.Sized n
  sized' : d'.Sized n
  diagonal : d'.diagonal = permute τ d.diagonal
  normalization : d'.normalization = permute τ d.normalization

theorem renumbered_update (hd : d.Sized n) (hd' : d'.Sized n) (hdtd : dtd.size = n) (lambda : ℝ) :
    Renumbered τ (d.update lambda dtd) (d'.update lambda (permute τ dtd)) where
  sized := sized_update hd
  sized' := sized_update hd'
  diagonal := by
    simp only [Damping.update]
    rw [Vec.zipUpdate_overwrite _ (hd.diagonal.trans hdtd.symm),
      Vec.zipUpdate_overwrite _ (hd'.diagonal.trans (size_permute τ dtd).symm),
      permute_map τ _ hdtd]
  normalization := by
    simp only [Damping.update]
    rw [Vec.zipUpdate_overwrite _ (hd.normalization.trans hdtd.symm),
      Vec.zipUpdate_overwrite _ (hd'.normalization.trans (size_permute τ dtd).symm),
      permute_map τ _ hdtd]

theorem Renumbered.system_eq (h : Renumbered τ d d') (B : Matrix (Fin m) (Fin n) ℝ) :
    system (B.submatrix σ τ) d' = (system B d).submatrix (blockPerm σ τ) τ := by
  rw [system, h.diagonal, h.normalization, vec_permute, vec_permute, stacked_submatrix, system]

theorem Renumbered.unscale_eq (h : Renumbered τ d d') (hx : Carries (permutation τ) x x') :
    d'.unscale x' = permute τ (d.unscale x) := by
  have hsize : (d'.unscale x').size = n := (Vec.size_zipUpdate _ _ _).trans hx.size'
  rw [permute_eq_iff τ hsize]
  intro j
  rw [vec_unscale h.sized' hx.size', vec_unscale h.sized hx.size, hx.vec_eq, h.normalization,
    vec_permute, permutation_apply, permutation_apply]

variable {J J' : Type} [LinearOperator J ℝ] [LinearOperator J' ℝ] {j : J} {j' : J'}
  {s s' : DampedStep ℝ}

/-- Renumbered problems have renumbered steps, found in as many iterations. -/
theorem solve_permute (hj : Renumbers σ τ j j') (h : s.Alike m n s') (hf : f.size = m)
    (hdtd : dtd.size = n) (lambda : ℝ) (hstep : step.size = n) (hstep' : step'.size = n) :
    ∃ a a', s.solve j f dtd lambda step = .done a ∧
      s'.solve j' (permute σ f) (permute τ dtd) lambda step' = .done a' ∧
        a.Charted n (permute τ) (Alike m n) a' := by
  obtain ⟨B, hj, hj'⟩ := hj
  have hupdate := renumbered_update (τ := τ) h.shaped.damping h.shaped'.damping hdtd lambda
  have hop := realizes_damped hj.toRealizes hupdate.sized
  have hop' := realizes_damped hj'.toRealizes hupdate.sized'
  change Realizes _ (toEuclideanLin (system (B.submatrix σ τ) _)) at hop'
  rw [hupdate.system_eq B] at hop'
  have hturned := solveFitting_turned (p := s.params) hop hop'
    (toEuclideanLin_submatrix (blockPerm σ τ) τ) h.shaped.workspace.sized
    h.shaped'.workspace.sized (carries_rightHandSide σ τ hf) (.map_zero hstep hstep')
  have hle : f.size ≤ s.rhs.size := by
    rw [h.shaped.rhs, hf]
    exact Nat.le_add_right _ _
  have hle' : (permute σ f).size ≤ s'.rhs.size := by
    rw [h.shaped'.rhs, size_permute]
    exact Nat.le_add_right _ _
  unfold solve
  rw [if_pos hle, if_pos hle', h.shaped.rhs, h.shaped'.rhs, ← h.params]
  dsimp only
  generalize solveFitting s.workspace (⟨j, s.damping.update lambda dtd⟩ : DampedOperator J ℝ)
    (rightHandSide f (m + n)) (step.map fun _ => 0) s.params = sol at hturned ⊢
  generalize solveFitting s'.workspace
    (⟨j', s'.damping.update lambda (permute τ dtd)⟩ : DampedOperator J' ℝ)
    (rightHandSide (permute σ f) (m + n)) (step'.map fun _ => 0) s.params = sol' at hturned ⊢
  obtain ⟨info, hinfo, hinfo'⟩ := hturned.info
  have hunscale := hupdate.unscale_eq hturned.x
  rw [hinfo, hinfo']
  refine ⟨_, _, rfl, rfl, ⟨⟨?_, ?_, rfl⟩, rfl, ?_, ?_, ?_, fun _ => hunscale⟩⟩
  · exact ⟨⟨hturned.sized.u, hturned.sized.v, hturned.sized.h, hturned.sized.hbar⟩,
      hupdate.sized.diagonal, hupdate.sized.normalization, hupdate.sized.scratch,
      Lsmr.size_rightHandSide hf⟩
  · exact ⟨⟨hturned.sized'.u, hturned.sized'.v, hturned.sized'.h, hturned.sized'.hbar⟩,
      hupdate.sized'.diagonal, hupdate.sized'.normalization, hupdate.sized'.scratch,
      Lsmr.size_rightHandSide (size_permute σ f)⟩
  · dsimp only
    rw [hturned.log]
  · exact (Vec.size_zipUpdate _ _ _).trans hturned.x.size
  · exact (Vec.size_zipUpdate _ _ _).trans hturned.x.size'

end LeastSquares.Lsmr.DampedStep
