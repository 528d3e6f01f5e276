import LeastSquares.Proofs.Dense.Definite
import LeastSquares.Proofs.Dense.Reuse
import LeastSquares.Proofs.Exact.Renumbering

/-!
# Renumbered normal equations

The factor of a renumbered matrix is another one, but whether there is a factor depends on the
matrix being positive definite alone, and the step on its having one solution.  So the direct step
solver answers the renumbered step, or has none in either numbering.
-/

open Matrix (diagonal)
open scoped Matrix

namespace LeastSquares.Dense.NormalEquations

open Exact

variable {m n : ℕ} {σ : Equiv.Perm (Fin m)} {τ : Equiv.Perm (Fin n)} {J J' : Matrix ℝ}
  {f f' dtd dtd' step step' : Array ℝ} {lambda : ℝ} {s s' : NormalEquations ℝ}

theorem inner_log_congr {a a' : StepAnswer (NormalEquations ℝ) ℝ}
    (h : s.solve J f dtd lambda step = .done a)
    (h' : s'.solve J' f' dtd' lambda step' = .done a')
    (hsome : a'.inner.isSome = true ↔ a.inner.isSome = true) :
    a'.inner = a.inner ∧ a'.log = a.log := by
  obtain ⟨hinner, hlog⟩ | ⟨hinner, hlog, -⟩ := solveBy_done h <;>
    obtain ⟨hinner', hlog'⟩ | ⟨hinner', hlog', -⟩ := solveBy_done h' <;>
    simp_all

/-- Two damped systems that are positive definite together, of which the second has the steps of the
first in other coordinates, have answers that differ by these coordinates. -/
theorem solve_moved {move : Array ℝ → Array ℝ} (hs : s.Alike n s') (hm : J.nrows = m)
    (hn : J.ncols = n) (hm' : J'.nrows = m) (hn' : J'.ncols = n) (hf : f.size = m)
    (hf' : f'.size = m) (hdtd : dtd.size = n) (hdtd' : dtd'.size = n) (hstep : step.size = n)
    (hstep' : step'.size = n) (hmove : ∀ p, (move p).size = n)
    (hposDef :
      ((entries m n J')ᵀ * entries m n J' + lambda ^ 2 • diagonal (vec n dtd').ofLp).PosDef ↔
        ((entries m n J)ᵀ * entries m n J + lambda ^ 2 • diagonal (vec n dtd).ofLp).PosDef)
    (hsteps : ∀ p, IsStep (entries m n J) (vec m f) (vec n dtd) lambda (vec n p) →
      IsStep (entries m n J') (vec m f') (vec n dtd') lambda (vec n (move p))) :
    ∃ a a', s.solve J f dtd lambda step = .done a ∧
      s'.solve J' f' dtd' lambda step' = .done a' ∧ a.Charted n move (Alike n) a' := by
  obtain ⟨hs, hs'⟩ := hs
  obtain ⟨a, ha, hncols, hsize, hsome, hsolves⟩ := solve_ends lambda hs hm hn hf hdtd hstep
  obtain ⟨a', ha', hncols', hsize', hsome', hsolves'⟩ :=
    solve_ends lambda hs' hm' hn' hf' hdtd' hstep'
  rw [posDef_dampedNormal_iff hm hn hdtd] at hsome
  rw [posDef_dampedNormal_iff hm' hn' hdtd'] at hsome'
  have htogether : a'.inner.isSome = true ↔ a.inner.isSome = true :=
    (hsome'.trans hposDef).trans hsome.symm
  obtain ⟨hinner, hlog⟩ := inner_log_congr ha ha' htogether
  refine ⟨a, a', ha, ha', ⟨hncols, hncols'⟩, hinner, hlog, hsize, hsize', fun hanswers => ?_⟩
  have hanswers' := htogether.2 hanswers
  exact vec_injective hsize' (hmove _)
    (IsStep.unique_of_posDef (hsome'.1 hanswers') (hsolves' hanswers') (hsteps _ (hsolves hanswers)))

theorem solve_permute (h : Renumbers σ τ J J') (hs : s.Alike n s') (hf : f.size = m)
    (hdtd : dtd.size = n) (lambda : ℝ) (hstep : step.size = n) (hstep' : step'.size = n) :
    ∃ a a', s.solve J f dtd lambda step = .done a ∧
      s'.solve J' (permute σ f) (permute τ dtd) lambda step' = .done a' ∧
        a.Charted n (permute τ) (Alike n) a' := by
  obtain ⟨B, hJ, hJ'⟩ := h
  refine solve_moved hs hJ.nrows hJ.ncols hJ'.nrows hJ'.ncols hf (size_permute σ f) hdtd
    (size_permute τ dtd) hstep hstep' (size_permute τ) ?_ fun p hp => ?_
  · rw [hJ.entries_eq, hJ'.entries_eq, vec_permute]
    exact posDef_normal_submatrix_iff σ τ
  · rw [hJ.entries_eq] at hp
    rw [hJ'.entries_eq, vec_permute, vec_permute, vec_permute]
    exact hp.permute σ τ

end LeastSquares.Dense.NormalEquations
