import LeastSquares.Proofs.Exact.Sparse

/-!
# Products as sums

An operator that computes a matrix has sums over its entries as products, and the transposed
product is the adjoint of the forward one whatever the buffers held.  For a sparse matrix the
entries are the ones that it gives out, so rows and columns without a stored entry count as zeros.
-/

namespace LeastSquares.Exact

open Matrix
open LinearMap (adjoint)

variable {m n : ℕ} {A : Type} [LinearOperator A ℝ] {a : A}

theorem Realizes.dot_apply {M : EuclideanSpace ℝ (Fin n) →ₗ[ℝ] EuclideanSpace ℝ (Fin m)}
    (ha : Realizes a M) {x y out out' : Array ℝ} (hx : x.size = n) (hy : y.size = m)
    (hout : out.size = m) (hout' : out'.size = n) :
    ∃ ax aty, LinearOperator.apply a 1 x 0 out = .done ax ∧
      LinearOperator.applyTranspose a 1 y 0 out' = .done aty ∧ Vec.dot ax y = Vec.dot x aty := by
  obtain ⟨ax, hax, hsize, hvec⟩ := ha.apply 1 x 0 out hx hout
  obtain ⟨aty, haty, hsize', hvec'⟩ := ha.applyTranspose 1 y 0 out' hy hout'
  rw [one_smul, zero_smul, add_zero] at hvec hvec'
  refine ⟨ax, aty, hax, haty, ?_⟩
  calc Vec.dot ax y = inner ℝ (M (vec n x)) (vec m y) := by rw [dot_eq_inner hsize hy, hvec]
    _ = inner ℝ (vec n x) (adjoint M (vec m y)) := (LinearMap.adjoint_inner_right M _ _).symm
    _ = Vec.dot x aty := by rw [dot_eq_inner hx hsize', hvec']

section Sums

variable {B : Matrix (Fin m) (Fin n) ℝ} {v out : Array ℝ}

theorem Computes.apply_ends (ha : Computes a B) (alpha : ℝ) (hv : v.size = n) (beta : ℝ)
    (hout : out.size = m) :
    (LinearOperator.apply a alpha v beta out).Ends fun r => r.size = m ∧ ∀ i : Fin m,
      r.getD i 0 = alpha * ∑ j : Fin n, B i j * v.getD j 0 + beta * out.getD i 0 := by
  obtain ⟨r, hr, hsize, hvec⟩ := ha.apply alpha v beta out hv hout
  refine ⟨r, hr, hsize, fun i => ?_⟩
  rw [← vec_apply, hvec, PiLp.add_apply, PiLp.smul_apply, PiLp.smul_apply,
    toEuclideanLin_apply_eq_sum]
  rfl

theorem Computes.applyTranspose_ends (ha : Computes a B) (alpha : ℝ) (hv : v.size = m) (beta : ℝ)
    (hout : out.size = n) :
    (LinearOperator.applyTranspose a alpha v beta out).Ends fun r => r.size = n ∧ ∀ j : Fin n,
      r.getD j 0 = alpha * ∑ i : Fin m, B i j * v.getD i 0 + beta * out.getD j 0 := by
  obtain ⟨r, hr, hsize, hvec⟩ := ha.applyTranspose alpha v beta out hv hout
  refine ⟨r, hr, hsize, fun j => ?_⟩
  rw [← vec_apply, hvec, PiLp.add_apply, PiLp.smul_apply, PiLp.smul_apply, adjoint_apply_eq_sum]
  rfl

end Sums

/-- The products and the column norms of a sparse matrix are sums over the entries that it gives
out, and its computed products are adjoint. -/
theorem sparse_products_eq_sums (S : Sparse.Matrix ℝ) (hm : S.pattern.nrows = m)
    (hn : S.pattern.ncols = n) :
    (∀ (alpha : ℝ) (v : Array ℝ) (beta : ℝ) (out : Array ℝ), v.size = n → out.size = m →
      (LinearOperator.apply S alpha v beta out).Ends fun r => r.size = m ∧ ∀ row : Fin m,
        r.getD row 0 = alpha * ∑ col : Fin n, S.get row col * v.getD col 0 +
          beta * out.getD row 0) ∧
    (∀ (alpha : ℝ) (v : Array ℝ) (beta : ℝ) (out : Array ℝ), v.size = m → out.size = n →
      (LinearOperator.applyTranspose S alpha v beta out).Ends fun r => r.size = n ∧ ∀ col : Fin n,
        r.getD col 0 = alpha * ∑ row : Fin m, S.get row col * v.getD row 0 +
          beta * out.getD col 0) ∧
    (∀ out : Array ℝ, out.size = n →
      (LinearOperator.columnSquares S out).Ends fun r => r.size = n ∧ ∀ col : Fin n,
        r.getD col 0 = ∑ row : Fin m, S.get row col ^ 2) ∧
    ∀ x y out out' : Array ℝ, x.size = n → y.size = m → out.size = m → out'.size = n →
      ∃ ax aty, LinearOperator.apply S 1 x 0 out = .done ax ∧
        LinearOperator.applyTranspose S 1 y 0 out' = .done aty ∧ Vec.dot ax y = Vec.dot x aty := by
  have computes : Computes S (sparseEntries m n S) := computes_sparseEntries hm hn
  exact ⟨fun alpha v beta out hv hout => computes.apply_ends alpha hv beta hout,
    fun alpha v beta out hv hout => computes.applyTranspose_ends alpha hv beta hout,
    computes.columnSquares, fun x y out out' => computes.toRealizes.dot_apply⟩

/-- Two rows and three columns, of which the first row and the second column store nothing. -/
theorem sparse_products_eq_sums_gaps :
    let p : Sparse.Pattern := ⟨2, 3, #[0, 1, 1, 2], #[1, 1],
      (Sparse.violation?_eq_none_iff ..).1 rfl⟩
    let S : Sparse.Matrix ℝ := ⟨p, #[3, -2], rfl⟩
    (p.nrows = 2 ∧ p.ncols = 3) ∧
      (LinearOperator.apply S 2 #[1, 5, 0] (-1) #[4, 7]).Ends fun r =>
        r.getD 0 0 = -4 ∧ r.getD 1 0 = -1 := by
  intro p S
  have hm : S.pattern.nrows = 2 := rfl
  have hn : S.pattern.ncols = 3 := rfl
  have h := (sparse_products_eq_sums S hm hn).1 2 #[1, 5, 0] (-1) #[4, 7] rfl rfl
  obtain ⟨r, hr, -, hrow⟩ := h
  have h00 : S.get 0 0 = 0 := rfl
  have h01 : S.get 0 1 = 0 := rfl
  have h02 : S.get 0 2 = 0 := rfl
  have h10 : S.get 1 0 = 3 := rfl
  have h11 : S.get 1 1 = 0 := rfl
  have h12 : S.get 1 2 = -2 := rfl
  refine ⟨⟨hm, hn⟩, r, hr, ?_, ?_⟩
  · simpa [Fin.sum_univ_three, h00, h01, h02] using hrow 0
  · have hone := hrow 1
    norm_num [Fin.sum_univ_three, h10, h11, h12] at hone
    simpa using hone

end LeastSquares.Exact
