import Mathlib
import LeastSquares.Proofs.Exact.Computing
import LeastSquares.Proofs.Exact.Isometry

/-!
# Renumbered vectors and matrices

To number the residuals and the parameters of a problem differently is to permute vectors and the
rows and columns of matrices.  Sums, largest values and norms do not depend on the numbers, and the
normal matrix of a renumbered Jacobian is the renumbered normal matrix.
-/

namespace LeastSquares.Exact

open Matrix

/-- The array whose entry `i` is the entry `σ i` of another. -/
def permute {α : Type} [Zero α] {k : ℕ} (σ : Equiv.Perm (Fin k)) (xs : Array α) : Array α :=
  Array.ofFn fun i => xs.getD (σ i) 0

noncomputable def permutation {k : ℕ} (σ : Equiv.Perm (Fin k)) :
    EuclideanSpace ℝ (Fin k) ≃ₗᵢ[ℝ] EuclideanSpace ℝ (Fin k) :=
  LinearIsometryEquiv.piLpCongrLeft _ ℝ ℝ σ.symm

section Vectors

variable {k : ℕ} (σ : Equiv.Perm (Fin k)) {xs ys : Array ℝ}

@[simp] theorem permutation_apply (x : EuclideanSpace ℝ (Fin k)) (i : Fin k) :
    permutation σ x i = x (σ i) := rfl

theorem ofLp_permutation (x : EuclideanSpace ℝ (Fin k)) :
    (permutation σ x).ofLp = x.ofLp ∘ σ := rfl

@[simp] theorem size_permute (xs : Array ℝ) : (permute σ xs).size = k := Array.size_ofFn

@[simp] theorem vec_permute (xs : Array ℝ) : vec k (permute σ xs) = permutation σ (vec k xs) := by
  ext i
  simp [permute]

theorem carries_permute (h : xs.size = k) : Carries (permutation σ) xs (permute σ xs) :=
  ⟨h, size_permute σ xs, vec_permute σ xs⟩

theorem permute_eq_iff (hy : ys.size = k) :
    ys = permute σ xs ↔ ∀ i, vec k ys i = vec k xs (σ i) := by
  constructor
  · rintro rfl i
    rw [vec_permute, permutation_apply]
  · intro h
    refine vec_injective hy (size_permute σ xs) ?_
    rw [vec_permute]
    exact PiLp.ext h

theorem permute_symm_permute (h : xs.size = k) : permute σ.symm (permute σ xs) = xs := by
  refine vec_injective (size_permute _ _) h ?_
  ext i
  simp

theorem permute_perm (h : xs.size = k) : (permute σ xs).toList.Perm xs.toList := by
  rw [toList_eq_ofFn h, toList_eq_ofFn (size_permute σ xs), vec_permute]
  exact Equiv.Perm.ofFn_comp_perm σ (vec k xs).ofLp

theorem all_permute (h : xs.size = k) (p : ℝ → Bool) : (permute σ xs).all p = xs.all p := by
  rw [← Array.all_toList, ← Array.all_toList, (permute_perm σ h).all_eq]

theorem maxAbs_eq_foldl (xs : Array ℝ) :
    Vec.maxAbs xs = xs.toList.foldl (fun largest x => max largest |x|) 0 := by
  rw [Vec.maxAbs, ← Array.foldl_toList]
  congr 1
  funext largest x
  simp only [isNaN_eq_false, Bool.or_false, decide_eq_true_eq, abs_eq]
  split
  · exact (max_eq_right (le_of_lt ‹_›)).symm
  · exact (max_eq_left (not_lt.1 ‹_›)).symm

theorem maxAbs_permute (h : xs.size = k) : Vec.maxAbs (permute σ xs) = Vec.maxAbs xs := by
  rw [maxAbs_eq_foldl, maxAbs_eq_foldl]
  have : RightCommutative fun (largest x : ℝ) => max largest |x| :=
    ⟨fun largest x y => max_right_comm _ _ _⟩
  exact (permute_perm σ h).foldl_eq _

theorem permute_map (f : ℝ → ℝ) (h : xs.size = k) :
    (permute σ xs).map f = permute σ (xs.map f) := by
  rw [permute_eq_iff σ (by simp)]
  intro i
  simp [permute, h]

theorem permute_add (hx : xs.size = k) (hy : ys.size = k) :
    ((permute σ xs).zip (permute σ ys)).map (fun xy => xy.1 + xy.2) =
      permute σ ((xs.zip ys).map fun xy => xy.1 + xy.2) := by
  rw [permute_eq_iff σ (by simp)]
  intro i
  simp [permute, hx, hy]

end Vectors

/-! ## Matrices -/

variable {m n : ℕ} (σ : Equiv.Perm (Fin m)) (τ : Equiv.Perm (Fin n))
  {B : Matrix (Fin m) (Fin n) ℝ}

theorem toEuclideanLin_submatrix (x : EuclideanSpace ℝ (Fin n)) :
    toEuclideanLin (B.submatrix σ τ) (permutation τ x) = permutation σ (toEuclideanLin B x) := by
  ext i
  rw [permutation_apply, toEuclideanLin_apply_eq_sum, toEuclideanLin_apply_eq_sum]
  exact Equiv.sum_comp τ fun j => B (σ i) j * x j

theorem sum_submatrix_sq (j : Fin n) :
    ∑ i, B.submatrix σ τ i j ^ 2 = ∑ i, B i (τ j) ^ 2 :=
  Equiv.sum_comp σ fun i => B i (τ j) ^ 2

inductive Renumbers {A A' : Type} [LinearOperator A ℝ] [LinearOperator A' ℝ]
    (σ : Equiv.Perm (Fin m)) (τ : Equiv.Perm (Fin n)) (a : A) (a' : A') : Prop
  | intro (B : Matrix (Fin m) (Fin n) ℝ) (computes : Computes a B)
      (computes' : Computes a' (B.submatrix σ τ))

noncomputable def renumber (σ : Equiv.Perm (Fin m)) (τ : Equiv.Perm (Fin n)) (J : Dense.Matrix ℝ) :
    Dense.Matrix ℝ :=
  .ofFn m n fun i j => if h : i < m ∧ j < n then entries m n J (σ ⟨i, h.1⟩) (τ ⟨j, h.2⟩) else 0

section Renumber

variable {J J' : Dense.Matrix ℝ}

theorem shape_renumber (J : Dense.Matrix ℝ) : LinearOperator.shape (renumber σ τ J) = (m, n) :=
  Prod.ext rfl (by simp [LinearOperator.shape, renumber, Dense.Matrix.ofFn, LinearOperator.ncols,
    Dense.Matrix.ncols])

theorem entries_renumber (J : Dense.Matrix ℝ) :
    entries m n (renumber σ τ J) = (entries m n J).submatrix σ τ := by
  ext i j
  simp [renumber, entries_ofFn]

theorem renumbers_renumber (h : LinearOperator.shape J = (m, n)) :
    Renumbers σ τ J (renumber σ τ J) := by
  obtain ⟨hm, hn⟩ := Prod.mk.inj h
  obtain ⟨hm', hn'⟩ := Prod.mk.inj (shape_renumber σ τ J)
  exact ⟨entries m n J, computes_entries hm hn, entries_renumber σ τ J ▸ computes_entries hm' hn'⟩

theorem eq_of_entries (h : LinearOperator.shape J = (m, n))
    (h' : LinearOperator.shape J' = (m, n)) (hentries : entries m n J = entries m n J') :
    J = J' := by
  obtain ⟨hm, hn⟩ : J.nrows = m ∧ J.columns.size = n := Prod.mk.inj h
  obtain ⟨hm', hn'⟩ : J'.nrows = m ∧ J'.columns.size = n := Prod.mk.inj h'
  have hcolumns : J.columns = J'.columns := by
    refine Array.ext (hn.trans hn'.symm) fun j hj hj' => ?_
    have hsize := (J.size_column _ (Array.getElem_mem hj)).trans hm
    have hsize' := (J'.size_column _ (Array.getElem_mem hj')).trans hm'
    refine Array.ext (hsize.trans hsize'.symm) fun i hi hi' => ?_
    have hentry := congrFun (congrFun hentries ⟨i, hsize ▸ hi⟩) ⟨j, hn ▸ hj⟩
    rw [entries_eq hn, entries_eq hn'] at hentry
    simpa [hi, hi', hj, hj'] using hentry
  obtain ⟨nrows, columns, _⟩ := J
  obtain ⟨nrows', columns', _⟩ := J'
  obtain rfl : nrows = nrows' := hm.trans hm'.symm
  obtain rfl : columns = columns' := hcolumns
  rfl

theorem renumber_symm_renumber (h : LinearOperator.shape J = (m, n)) :
    renumber σ.symm τ.symm (renumber σ τ J) = J := by
  refine eq_of_entries (shape_renumber _ _ _) h ?_
  rw [entries_renumber, entries_renumber, submatrix_submatrix]
  simp

end Renumber

/-- The residuals of a damped operator are those of its base and one for each parameter. -/
def blockPerm : Equiv.Perm (Fin (m + n)) :=
  finSumFinEquiv.permCongr (Equiv.Perm.sumCongr σ τ)

@[simp] theorem blockPerm_castAdd (i : Fin m) :
    blockPerm σ τ (Fin.castAdd n i) = Fin.castAdd n (σ i) := by
  simp [blockPerm, Equiv.permCongr_apply]

@[simp] theorem blockPerm_natAdd (j : Fin n) :
    blockPerm σ τ (Fin.natAdd m j) = Fin.natAdd m (τ j) := by
  simp [blockPerm, Equiv.permCongr_apply]

theorem stacked_submatrix (d norm : EuclideanSpace ℝ (Fin n)) :
    stacked (B.submatrix σ τ) (permutation τ d) (permutation τ norm) =
      (stacked B d norm).submatrix (blockPerm σ τ) τ := by
  ext i j
  refine Fin.addCases (fun i => ?_) (fun k => ?_) i
  · simp
  · simp [diagonal_apply, τ.injective.eq_iff]

/-! ## Steps -/

variable {f : EuclideanSpace ℝ (Fin m)} {dtd p q : EuclideanSpace ℝ (Fin n)} {lambda : ℝ}

theorem normal_submatrix :
    (B.submatrix σ τ)ᵀ * B.submatrix σ τ + lambda ^ 2 • diagonal (permutation τ dtd).ofLp =
      (Bᵀ * B + lambda ^ 2 • diagonal dtd.ofLp).submatrix τ τ := by
  rw [transpose_submatrix, submatrix_mul_equiv, ofLp_permutation, ← submatrix_diagonal_equiv]
  rfl

theorem posDef_normal_submatrix_iff :
    ((B.submatrix σ τ)ᵀ * B.submatrix σ τ +
        lambda ^ 2 • diagonal (permutation τ dtd).ofLp).PosDef ↔
      (Bᵀ * B + lambda ^ 2 • diagonal dtd.ofLp).PosDef := by
  rw [normal_submatrix]
  constructor
  · intro h
    simpa using h.submatrix τ.symm.injective
  · exact fun h => h.submatrix τ.injective

theorem IsStep.permute (h : IsStep B f dtd lambda p) :
    IsStep (B.submatrix σ τ) (permutation σ f) (permutation τ dtd) lambda (permutation τ p) := by
  unfold IsStep at h ⊢
  rw [normal_submatrix, transpose_submatrix, ofLp_permutation, ofLp_permutation,
    submatrix_mulVec_equiv, submatrix_mulVec_equiv]
  simp only [Function.comp_assoc, Equiv.self_comp_symm, Function.comp_id, h]
  rfl

theorem IsStep.unique_of_posDef (h : (Bᵀ * B + lambda ^ 2 • diagonal dtd.ofLp).PosDef)
    (hp : IsStep B f dtd lambda p) (hq : IsStep B f dtd lambda q) : p = q := by
  have hinjective := Matrix.mulVec_injective_of_isUnit h.isUnit
  exact WithLp.ofLp_injective 2 (hinjective (hp.trans hq.symm))

end LeastSquares.Exact
