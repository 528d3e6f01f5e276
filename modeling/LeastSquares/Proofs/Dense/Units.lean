import LeastSquares.Proofs.Dense.Renumbering
import LeastSquares.Proofs.Exact.Units

/-!
# Normal equations in other units

In other units the triangle and its factor are others, but it is positive definite as before, and
the one solution is the step in the new units.  So the direct step solver answers that step, or has
none in either units, as where a column without damping is zero.
-/

namespace LeastSquares.Dense.NormalEquations

open Exact

variable {m n : ℕ} {s : Fin n → ℝ} {J J' : Matrix ℝ} {f dtd step step' : Array ℝ}
  {N N' : NormalEquations ℝ}

theorem solve_rescale (hs : ∀ j, s j ≠ 0) (h : Rescales m s J J') (hN : N.Alike n N')
    (hf : f.size = m) (hdtd : dtd.size = n) (lambda : ℝ) (hstep : step.size = n)
    (hstep' : step'.size = n) :
    ∃ a a', N.solve J f dtd lambda step = .done a ∧
      N'.solve J' f (rescale (s⁻¹ ^ 2) dtd) lambda step' = .done a' ∧
        a.Charted n (rescale s) (Alike n) a' := by
  have hsquares (j : Fin n) : vec n (rescale (s⁻¹ ^ 2) dtd) j = (s j)⁻¹ ^ 2 * vec n dtd j :=
    vec_rescale (s⁻¹ ^ 2) dtd j
  refine solve_moved hN h.nrows h.ncols h.nrows' h.ncols' hf hf hdtd (size_rescale _ dtd) hstep
    hstep' (size_rescale s) ?_ fun p hp => ?_
  · rw [h.entries_eq]
    exact posDef_normal_rescale_iff hs hsquares
  · rw [h.entries_eq]
    exact hp.rescale hs hsquares (vec_rescale s p)

end LeastSquares.Dense.NormalEquations
