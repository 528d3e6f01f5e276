import Mathlib
import LeastSquares.Proofs.Exact.Renumbering

/-!
# Parameters in other units

To measure a parameter in another unit is to multiply it by a factor and to divide its column of the
Jacobian by the same.  The image of a vector stays, and the squares of a column, which damp the
parameter, lose the square of the factor.  So the damped normal matrix gets a diagonal factor on
both sides, is positive definite in all units or in none, and has the steps of the other units.
-/

namespace LeastSquares.Exact

open Matrix

noncomputable def rescale {k : ℕ} (s : Fin k → ℝ) (xs : Array ℝ) : Array ℝ :=
  Array.ofFn fun i => s i * xs.getD i 0

section Vectors

variable {k : ℕ} {s : Fin k → ℝ} {xs ys : Array ℝ}

@[simp] theorem size_rescale (s : Fin k → ℝ) (xs : Array ℝ) : (rescale s xs).size = k :=
  Array.size_ofFn

theorem vec_rescale (s : Fin k → ℝ) (xs : Array ℝ) (i : Fin k) :
    vec k (rescale s xs) i = s i * vec k xs i := by
  simp [rescale]

theorem rescale_eq_iff (hy : ys.size = k) :
    ys = rescale s xs ↔ ∀ i, vec k ys i = s i * vec k xs i := by
  constructor
  · rintro rfl i
    exact vec_rescale s xs i
  · intro h
    refine vec_injective hy (size_rescale s xs) (PiLp.ext fun i => ?_)
    rw [h, vec_rescale]

theorem rescale_inv_rescale (hs : ∀ i, s i ≠ 0) (h : xs.size = k) :
    rescale s⁻¹ (rescale s xs) = xs := by
  refine ((rescale_eq_iff h).2 fun i => ?_).symm
  rw [vec_rescale, Pi.inv_apply, inv_mul_cancel_left₀ (hs i)]

theorem rescale_add (hx : xs.size = k) (hy : ys.size = k) :
    ((rescale s xs).zip (rescale s ys)).map (fun xy => xy.1 + xy.2) =
      rescale s ((xs.zip ys).map fun xy => xy.1 + xy.2) := by
  rw [rescale_eq_iff (by simp)]
  intro i
  simp [rescale, hx, hy, mul_add]

theorem all_rescale (hs : ∀ i, s i ≠ 0) (h : xs.size = k) :
    (rescale s xs).all (· == 0) = xs.all (· == 0) := by
  rw [Bool.eq_iff_iff, ← vec_eq_zero_iff (size_rescale s xs), ← vec_eq_zero_iff h]
  constructor
  · intro hzero
    ext i
    have hi := congrArg (fun w : EuclideanSpace ℝ (Fin k) => w i) hzero
    simpa only [vec_rescale, PiLp.zero_apply, mul_eq_zero, hs i, false_or] using hi
  · intro hzero
    ext i
    rw [vec_rescale, hzero, PiLp.zero_apply, mul_zero]

theorem maxAbs_nonneg (xs : Array ℝ) : 0 ≤ Vec.maxAbs xs := by
  have hle (ys : List ℝ) (start : ℝ) :
      start ≤ ys.foldl (fun largest y => max largest |y|) start := by
    induction ys generalizing start with
    | nil => exact le_rfl
    | cons y _ ih => exact (le_max_left start |y|).trans (ih _)
  rw [maxAbs_eq_foldl]
  exact hle _ 0

end Vectors

/-! ## Matrices -/

variable {m n : ℕ} {s : Fin n → ℝ} {B : Matrix (Fin m) (Fin n) ℝ}

theorem toEuclideanLin_mul_diagonal_inv (hs : ∀ j, s j ≠ 0) {x y : EuclideanSpace ℝ (Fin n)}
    (h : ∀ j, y j = s j * x j) :
    toEuclideanLin (B * diagonal s⁻¹) y = toEuclideanLin B x := by
  ext i
  rw [toEuclideanLin_apply_eq_sum, toEuclideanLin_apply_eq_sum]
  refine Finset.sum_congr rfl fun j _ => ?_
  rw [mul_diagonal, h, Pi.inv_apply, mul_assoc, inv_mul_cancel_left₀ (hs j)]

theorem sum_mul_diagonal_sq (d : Fin n → ℝ) (j : Fin n) :
    ∑ i, (B * diagonal d) i j ^ 2 = d j ^ 2 * ∑ i, B i j ^ 2 := by
  simp only [mul_diagonal, mul_pow, ← Finset.sum_mul, mul_comm]

/-- Two dense matrices of one shape, of which the second is the first with its columns divided by
the factors. -/
structure Rescales (m : ℕ) (s : Fin n → ℝ) (J J' : Dense.Matrix ℝ) : Prop where
  nrows : J.nrows = m
  ncols : J.ncols = n
  nrows' : J'.nrows = m
  ncols' : J'.ncols = n
  entries_eq : entries m n J' = entries m n J * diagonal s⁻¹

noncomputable def rescaleColumns (m : ℕ) (s : Fin n → ℝ) (J : Dense.Matrix ℝ) : Dense.Matrix ℝ :=
  .ofFn m n fun i j =>
    if h : i < m ∧ j < n then entries m n J ⟨i, h.1⟩ ⟨j, h.2⟩ / s ⟨j, h.2⟩ else 0

section RescaleColumns

variable {J : Dense.Matrix ℝ}

theorem shape_rescaleColumns (J : Dense.Matrix ℝ) :
    LinearOperator.shape (rescaleColumns m s J) = (m, n) :=
  Prod.ext rfl (by simp [LinearOperator.shape, rescaleColumns, Dense.Matrix.ofFn,
    LinearOperator.ncols, Dense.Matrix.ncols])

theorem entries_rescaleColumns (J : Dense.Matrix ℝ) :
    entries m n (rescaleColumns m s J) = entries m n J * diagonal s⁻¹ := by
  ext i j
  simp [rescaleColumns, entries_ofFn, mul_diagonal, div_eq_mul_inv]

theorem rescales_rescaleColumns (h : LinearOperator.shape J = (m, n)) :
    Rescales m s J (rescaleColumns m s J) := by
  obtain ⟨hm, hn⟩ := Prod.mk.inj h
  obtain ⟨hm', hn'⟩ := Prod.mk.inj (shape_rescaleColumns (m := m) (s := s) J)
  exact ⟨hm, hn, hm', hn', entries_rescaleColumns J⟩

theorem rescaleColumns_inv_rescaleColumns (hs : ∀ j, s j ≠ 0)
    (h : LinearOperator.shape J = (m, n)) :
    rescaleColumns m s⁻¹ (rescaleColumns m s J) = J := by
  refine eq_of_entries (shape_rescaleColumns _) h ?_
  rw [entries_rescaleColumns, entries_rescaleColumns, Matrix.mul_assoc, diagonal_mul_diagonal]
  ext i j
  rw [mul_diagonal, inv_inv, Pi.inv_apply, inv_mul_cancel₀ (hs j), mul_one]

end RescaleColumns

/-! ## Steps -/

variable {f : EuclideanSpace ℝ (Fin m)} {dtd dtd' p p' : EuclideanSpace ℝ (Fin n)} {lambda : ℝ}

theorem normal_mul_diagonal_inv (hdtd : ∀ j, dtd' j = (s j)⁻¹ ^ 2 * dtd j) :
    (B * diagonal s⁻¹)ᵀ * (B * diagonal s⁻¹) + lambda ^ 2 • diagonal dtd'.ofLp =
      diagonal s⁻¹ * (Bᵀ * B + lambda ^ 2 • diagonal dtd.ofLp) * diagonal s⁻¹ := by
  have hdamping : lambda ^ 2 • diagonal dtd'.ofLp =
      diagonal s⁻¹ * (lambda ^ 2 • diagonal dtd.ofLp) * diagonal s⁻¹ := by
    rw [Matrix.mul_smul, Matrix.smul_mul, diagonal_mul_diagonal, diagonal_mul_diagonal]
    congr 2
    ext j
    rw [hdtd, Pi.inv_apply]
    ring
  rw [hdamping, Matrix.mul_add, Matrix.add_mul, transpose_mul, diagonal_transpose]
  simp only [Matrix.mul_assoc]

theorem posDef_normal_rescale_iff (hs : ∀ j, s j ≠ 0)
    (hdtd : ∀ j, dtd' j = (s j)⁻¹ ^ 2 * dtd j) :
    ((B * diagonal s⁻¹)ᵀ * (B * diagonal s⁻¹) + lambda ^ 2 • diagonal dtd'.ofLp).PosDef ↔
      (Bᵀ * B + lambda ^ 2 • diagonal dtd.ofLp).PosDef := by
  have hunit : IsUnit (diagonal s⁻¹) := by
    rw [isUnit_diagonal, Pi.isUnit_iff]
    exact fun j => (inv_ne_zero (hs j)).isUnit
  have hstar : star (diagonal s⁻¹) = diagonal s⁻¹ := by
    rw [star_eq_conjTranspose, conjTranspose_eq_transpose_of_trivial, diagonal_transpose]
  have h := hunit.posDef_star_left_conjugate_iff
    (x := Bᵀ * B + lambda ^ 2 • diagonal dtd.ofLp)
  rwa [hstar, ← normal_mul_diagonal_inv hdtd] at h

theorem IsStep.rescale (hs : ∀ j, s j ≠ 0) (hdtd : ∀ j, dtd' j = (s j)⁻¹ ^ 2 * dtd j)
    (hp : ∀ j, p' j = s j * p j) (h : IsStep B f dtd lambda p) :
    IsStep (B * diagonal s⁻¹) f dtd' lambda p' := by
  have hback : diagonal s⁻¹ *ᵥ p'.ofLp = p.ofLp := by
    ext j
    rw [mulVec_diagonal, hp, Pi.inv_apply, inv_mul_cancel_left₀ (hs j)]
  unfold IsStep at h ⊢
  rw [normal_mul_diagonal_inv hdtd, Matrix.mul_assoc, ← mulVec_mulVec, ← mulVec_mulVec, hback, h,
    mulVec_neg, transpose_mul, diagonal_transpose, mulVec_mulVec]

end LeastSquares.Exact
