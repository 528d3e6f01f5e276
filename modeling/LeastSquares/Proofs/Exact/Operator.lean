import Mathlib
import LeastSquares.Dense.Matrix
import LeastSquares.Proofs.Exact.Vector

/-!
# Exact operators

An operator realizes a linear map between Euclidean spaces where its products, on vectors of its
dimensions, are the ones of the map and of its adjoint.  Dense matrices realize their maps.
-/

namespace LeastSquares.Exact

open LinearMap (adjoint)

/-- The products of the operator are the ones of the linear map and of its adjoint. -/
structure Realizes {A : Type} [LinearOperator A ℝ] {m n : ℕ} (a : A)
    (M : EuclideanSpace ℝ (Fin n) →ₗ[ℝ] EuclideanSpace ℝ (Fin m)) : Prop where
  nrows : LinearOperator.nrows a = m
  ncols : LinearOperator.ncols a = n
  apply : ∀ (alpha : ℝ) (v : Array ℝ) (beta : ℝ) (out : Array ℝ), v.size = n → out.size = m →
    ∃ r, LinearOperator.apply a alpha v beta out = .done r ∧ r.size = m ∧
      vec m r = alpha • M (vec n v) + beta • vec m out
  applyTranspose : ∀ (alpha : ℝ) (v : Array ℝ) (beta : ℝ) (out : Array ℝ), v.size = m →
    out.size = n → ∃ r, LinearOperator.applyTranspose a alpha v beta out = .done r ∧
      r.size = n ∧ vec n r = alpha • adjoint M (vec m v) + beta • vec n out

noncomputable def entries (m n : ℕ) (J : Dense.Matrix ℝ) : Matrix (Fin m) (Fin n) ℝ :=
  Matrix.of fun i j => vec n (J.row i) j

noncomputable def linear (m n : ℕ) (J : Dense.Matrix ℝ) :
    EuclideanSpace ℝ (Fin n) →ₗ[ℝ] EuclideanSpace ℝ (Fin m) :=
  Matrix.toEuclideanLin (entries m n J)

variable {m n : ℕ} {J : Dense.Matrix ℝ}

theorem linear_apply (x : EuclideanSpace ℝ (Fin n)) (i : Fin m) :
    linear m n J x i = ∑ j, entries m n J i j * x j := by
  simp [linear, Matrix.mulVec, dotProduct]

theorem adjoint_linear_apply (y : EuclideanSpace ℝ (Fin m)) (j : Fin n) :
    adjoint (linear m n J) y j = ∑ i, entries m n J i j * y i := by
  rw [linear, ← Matrix.toEuclideanLin_conjTranspose_eq_adjoint]
  simp [Matrix.mulVec, dotProduct]

theorem size_row (hn : J.ncols = n) (i : ℕ) : (J.row i).size = n := by
  simpa [Dense.Matrix.row, Dense.Matrix.ncols] using hn

theorem entries_eq (hn : J.ncols = n) (i : Fin m) (j : Fin n) :
    entries m n J i j = (J.columns.getD j #[]).getD i 0 := by
  have hj : (j : ℕ) < J.columns.size := hn.symm ▸ j.isLt
  simp [entries, Dense.Matrix.row, hj]

theorem inner_column (hn : J.ncols = n) (y : EuclideanSpace ℝ (Fin m)) (j : Fin n) :
    inner ℝ (vec m (J.columns.getD j #[])) y = adjoint (linear m n J) y j := by
  rw [adjoint_linear_apply, PiLp.inner_apply]
  refine Finset.sum_congr rfl fun i _ => ?_
  rw [entries_eq hn]
  exact mul_comm _ _

theorem vec_product (hn : J.ncols = n) (alpha : ℝ) {v : Array ℝ} (beta : ℝ)
    {out : Array ℝ} (hv : v.size = n) (hout : out.size = m) :
    vec m (J.product alpha v beta out) = alpha • linear m n J (vec n v) + beta • vec m out := by
  unfold Dense.Matrix.product
  split
  case isTrue hzero =>
    obtain rfl : n = 0 := hn.symm.trans hzero
    rw [vec_scaleAccumulator beta hout, Subsingleton.elim (vec 0 v) 0, map_zero, smul_zero,
      zero_add]
  case isFalse =>
    ext i
    have hdot : Vec.dot (J.row i) v = linear m n J (vec n v) i := by
      rw [dot_eq_inner (size_row hn i) hv, linear_apply, PiLp.inner_apply]
      exact Finset.sum_congr rfl fun j _ => mul_comm _ _
    simp [hout, hdot]

theorem vec_transposedProduct (hm : J.nrows = m) (hn : J.ncols = n) (alpha : ℝ) {v : Array ℝ}
    (beta : ℝ) {out : Array ℝ} (hv : v.size = m) (hout : out.size = n) :
    vec n (J.transposedProduct alpha v beta out) =
      alpha • adjoint (linear m n J) (vec m v) + beta • vec n out := by
  unfold Dense.Matrix.transposedProduct
  split
  case isTrue hzero =>
    obtain rfl : m = 0 := hm.symm.trans hzero
    rw [vec_scaleAccumulator beta hout, Subsingleton.elim (vec 0 v) 0, map_zero, smul_zero,
      zero_add]
  case isFalse =>
    ext j
    have hj : (j : ℕ) < J.columns.size := hn.symm ▸ j.isLt
    have hcolumn : J.columns[(j : ℕ)].size = m :=
      (J.size_column _ (Array.getElem_mem hj)).trans hm
    have hdot : Vec.dot J.columns[(j : ℕ)] v = adjoint (linear m n J) (vec m v) j := by
      rw [dot_eq_inner hcolumn hv, ← inner_column hn]
      simp [hj]
    simp [hout, hj, hdot]

theorem realizes_linear (hm : J.nrows = m) (hn : J.ncols = n) : Realizes J (linear m n J) where
  nrows := hm
  ncols := hn
  apply alpha v beta out hv hout := by
    refine ⟨J.product alpha v beta out, if_pos ⟨hv.trans hn.symm, hout.trans hm.symm⟩, ?_,
      vec_product hn alpha beta hv hout⟩
    unfold Dense.Matrix.product
    split <;> simp [hout]
  applyTranspose alpha v beta out hv hout := by
    refine ⟨J.transposedProduct alpha v beta out,
      if_pos ⟨hv.trans hm.symm, hout.trans hn.symm⟩, ?_,
      vec_transposedProduct hm hn alpha beta hv hout⟩
    have hcolumns : J.columns.size = n := hn
    unfold Dense.Matrix.transposedProduct
    split <;> simp [hout, hcolumns]

theorem Realizes.unique {A : Type} [LinearOperator A ℝ] {a : A}
    {M N : EuclideanSpace ℝ (Fin n) →ₗ[ℝ] EuclideanSpace ℝ (Fin m)} (hM : Realizes a M)
    (hN : Realizes a N) : M = N := by
  ext1 y
  have hy : vec n (Array.ofFn y.ofLp) = y := by
    ext i
    simp
  obtain ⟨r, hr, -, hvec⟩ := hM.apply 1 (Array.ofFn y.ofLp) 0 (Vec.zeros m) (by simp)
    (by simp [Vec.zeros])
  obtain ⟨r', hr', -, hvec'⟩ := hN.apply 1 (Array.ofFn y.ofLp) 0 (Vec.zeros m) (by simp)
    (by simp [Vec.zeros])
  cases hr.symm.trans hr'
  rw [hy] at hvec hvec'
  simpa using hvec.symm.trans hvec'

theorem Realizes.entries_eq {B : Matrix (Fin m) (Fin n) ℝ}
    (h : Realizes J (Matrix.toEuclideanLin B)) : entries m n J = B :=
  Matrix.toEuclideanLin.injective ((realizes_linear h.nrows h.ncols).unique h)

theorem realizes_ofFn (m n : ℕ) (entry : ℕ → ℕ → ℝ) :
    Realizes (Dense.Matrix.ofFn m n entry) (linear m n (.ofFn m n entry)) :=
  realizes_linear rfl (by simp [Dense.Matrix.ofFn, Dense.Matrix.ncols])

theorem entries_ofFn (entry : ℕ → ℕ → ℝ) (i : Fin m) (j : Fin n) :
    entries m n (.ofFn m n entry) i j = entry i j := by
  simp [entries, Dense.Matrix.row, Dense.Matrix.ofFn]

theorem realizes_ofFn_smul (m n : ℕ) (c : ℝ) (entry : ℕ → ℕ → ℝ) :
    Realizes (Dense.Matrix.ofFn m n fun row col => c * entry row col)
      (c • linear m n (.ofFn m n entry)) := by
  have hlinear : linear m n (.ofFn m n fun row col => c * entry row col) =
      c • linear m n (.ofFn m n entry) := by
    ext x i
    simp only [linear_apply, entries_ofFn, LinearMap.smul_apply, PiLp.smul_apply, smul_eq_mul,
      Finset.mul_sum, mul_assoc]
  exact hlinear ▸ realizes_ofFn m n _

end LeastSquares.Exact
