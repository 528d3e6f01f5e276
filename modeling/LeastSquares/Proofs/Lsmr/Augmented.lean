import LeastSquares.Proofs.Exact.Products
import LeastSquares.Proofs.Lsmr.DampedStep

/-!
# The augmented matrix

After an update a damped operator computes the matrix `[B; diag w] · diag (1 / √(1 + w²))` of its
base `B`, and goes on computing it from one product to the next.  Its least squares problem with
the right-hand side `[b; 0]` is the damped problem: the minimizers, divided by the normalization,
are the solutions of the normal equations.
-/

namespace LeastSquares

structure Damping.Normalized (n : ℕ) (d : Damping ℝ) : Prop extends d.Sized n where
  normalization_eq : ∀ j, Exact.vec n d.normalization j = √(1 + Exact.vec n d.diagonal j ^ 2)

namespace Lsmr

open Exact
open LinearOperator (Agree)
open Matrix hiding vec
open LinearMap (adjoint)

/-! ## Minimizers -/

variable {m n : ℕ} {A : Type} [LinearOperator A ℝ] {a : A}

/-- No parameters give `a z - rhs` a smaller sum of squares. -/
def Minimizes (a : A) (n : ℕ) (rhs z : Array ℝ) : Prop :=
  ∀ z' : Array ℝ, z'.size = n → ∃ r r', LinearOperator.apply a 1 z (-1) rhs = .done r ∧
    LinearOperator.apply a 1 z' (-1) rhs = .done r' ∧ Vec.sumSquares r ≤ Vec.sumSquares r'

theorem minimizes_iff {M : EuclideanSpace ℝ (Fin n) →ₗ[ℝ] EuclideanSpace ℝ (Fin m)}
    (ha : Realizes a M) {rhs z : Array ℝ} (hrhs : rhs.size = m) (hz : z.size = n) :
    Minimizes a n rhs z ↔ adjoint M (M (vec n z) - vec m rhs) = 0 := by
  have residual {z : Array ℝ} (hz : z.size = n) : ∃ r,
      LinearOperator.apply a 1 z (-1) rhs = .done r ∧
        Vec.sumSquares r = objective M 0 (vec m rhs) 0 (vec n z) := by
    obtain ⟨r, hr, hsize, hvec⟩ := ha.apply 1 z (-1) rhs hz hrhs
    refine ⟨r, hr, ?_⟩
    rw [sumSquares_eq hsize, hvec, one_smul, neg_one_smul, ← sub_eq_add_neg, objective, sq 0,
      zero_mul, zero_mul, add_zero]
  have hgradient : adjoint M (M (vec n z) - vec m rhs) =
      -normalResidual M 0 (vec m rhs) 0 (vec n z) := by
    rw [normalResidual, sq, zero_mul, zero_smul, sub_zero, ← map_neg, neg_sub]
  rw [hgradient, neg_eq_zero, normalResidual_eq_zero_iff]
  obtain ⟨r, hr, hsum⟩ := residual hz
  constructor
  · intro hmin y
    obtain ⟨z', hz', rfl⟩ : ∃ z' : Array ℝ, z'.size = n ∧ vec n z' = y :=
      ⟨Array.ofFn fun i => y i, by simp, by ext i; simp⟩
    obtain ⟨r₁, r', hr₁, hr', hle⟩ := hmin z' hz'
    obtain ⟨r'', hr'', hsum'⟩ := residual hz'
    cases hr.symm.trans hr₁
    cases hr'.symm.trans hr''
    rwa [← hsum, ← hsum']
  · intro hmin z' hz'
    obtain ⟨r', hr', hsum'⟩ := residual hz'
    refine ⟨r, r', hr, hr', ?_⟩
    rw [hsum, hsum']
    exact hmin _

/-! ## Normalized dampings -/

variable {B : Matrix (Fin m) (Fin n) ℝ} {d : Damping ℝ} {lambda : ℝ} {dtd : Array ℝ}

theorem sized_none (n : ℕ) : (Damping.none n : Damping ℝ).Sized n := by
  constructor <;> simp [Damping.none, Vec.zeros]

theorem normalized_update (hd : d.Sized n) (hdtd : dtd.size = n) :
    (d.update lambda dtd).Normalized n where
  toSized := sized_update hd
  normalization_eq j := by
    rw [Damping.update, vec_zipUpdate _ hd.normalization hdtd, vec_zipUpdate _ hd.diagonal hdtd,
      sqrt_eq, sq]

theorem vec_diagonal_update (hd : d.Sized n) (hdtd : dtd.size = n) (j : Fin n) :
    vec n (d.update lambda dtd).diagonal j = lambda * √(dtd.getD j 0) := by
  rw [Damping.update, vec_zipUpdate _ hd.diagonal hdtd, Damping.weight, sqrt_eq, ← vec_apply,
    vec_eq_getElem hdtd]

theorem normalized_of_match {e : Damping ℝ} (hd : d.Normalized n) (he : d.Match n e) :
    e.Normalized n where
  diagonal := he.diagonal ▸ hd.diagonal
  normalization := he.normalization ▸ hd.normalization
  scratch := he.scratch'
  normalization_eq := he.diagonal ▸ he.normalization ▸ hd.normalization_eq

/-! ## The matrix -/

/-- The matrix `[B; diag w] · diag (1 / √(1 + w²))`. -/
noncomputable def augmented (B : Matrix (Fin m) (Fin n) ℝ) (w : Fin n → ℝ) :
    Matrix (Fin (m + n)) (Fin n) ℝ :=
  (fromRows B (diagonal w) * diagonal fun j => 1 / √(1 + w j ^ 2)).submatrix
    finSumFinEquiv.symm id

theorem stacked_eq_augmented (hd : d.Normalized n) :
    stacked B (vec n d.diagonal) (vec n d.normalization) = augmented B (vec n d.diagonal).ofLp := by
  ext i j
  rw [augmented, submatrix_apply, mul_diagonal, ← hd.normalization_eq, id, mul_one_div]
  refine Fin.addCases (fun i => ?_) (fun k => ?_) i
  · rw [finSumFinEquiv_symm_apply_castAdd, fromRows_apply_inl, stacked_apply_castAdd]
  · rw [finSumFinEquiv_symm_apply_natAdd, fromRows_apply_inr, stacked_apply_natAdd]

theorem columnSquares_damped (ha : Computes a B) (hd : d.Sized n) {out : Array ℝ}
    (hout : out.size = n) :
    (LinearOperator.columnSquares (⟨a, d⟩ : DampedOperator A ℝ) out).Ends fun r =>
      r.size = n ∧ ∀ j, vec n r j =
        ∑ i, stacked B (vec n d.diagonal) (vec n d.normalization) i j ^ 2 := by
  obtain ⟨squares, hsquares, hsize, hvec⟩ := ha.columnSquares out hout
  have hpairs : (d.diagonal.zip d.normalization).size = n := by
    simp [hd.diagonal, hd.normalization]
  have hdone : LinearOperator.columnSquares (⟨a, d⟩ : DampedOperator A ℝ) out =
      .done (Vec.zipUpdate (fun square dn => (square + dn.1 * dn.1) / (dn.2 * dn.2)) squares
        (d.diagonal.zip d.normalization)) := by
    change DampedOperator.columnSquares ⟨a, d⟩ out = _
    rw [DampedOperator.columnSquares, hsquares]
  refine ⟨_, hdone, (Vec.size_zipUpdate _ _ _).trans hsize, fun j => ?_⟩
  rw [vec_zipUpdate _ hsize hpairs, ← vec_eq_getElem hsize, hvec, Array.getElem_zip,
    ← vec_eq_getElem hd.diagonal, ← vec_eq_getElem hd.normalization, Fin.sum_univ_add]
  simp only [stacked_apply_castAdd, stacked_apply_natAdd, div_pow, ← Finset.sum_div, ← add_div]
  rw [Finset.sum_eq_single j (fun k _ hk => by simp [diagonal_apply_ne _ hk]) (by simp),
    diagonal_apply_eq, sq, sq]

theorem computes_augmented (ha : Computes a B) (hd : d.Normalized n) :
    Computes (⟨a, d⟩ : DampedOperator A ℝ) (augmented B (vec n d.diagonal).ofLp) where
  toRealizes := stacked_eq_augmented (B := B) hd ▸ realizes_damped ha.toRealizes hd.toSized
  columnSquares _ hout := stacked_eq_augmented (B := B) hd ▸ columnSquares_damped ha hd.toSized hout

/-! ## The damped problem -/

variable {b z : Array ℝ}

theorem adjoint_stacked_residual (hd : d.Sized n) (hb : b.size = m) (hz : z.size = n) (j : Fin n) :
    let C := stacked B (vec n d.diagonal) (vec n d.normalization)
    let x := vec n (d.unscale z)
    adjoint (toEuclideanLin C)
        (toEuclideanLin C (vec n z) - vec (m + n) (b ++ Vec.zeros n)) j =
      (adjoint (toEuclideanLin B) (toEuclideanLin B x - vec m b) j +
        vec n d.diagonal j * x j * vec n d.diagonal j) / vec n d.normalization j := by
  intro C x
  have hx : ∀ j, x j = vec n z j / vec n d.normalization j := vec_unscale hd hz
  refine adjoint_stacked (w := WithLp.toLp 2 fun k => vec n d.diagonal k * x k) (fun i => ?_)
    (fun k => ?_) j
  · rw [PiLp.sub_apply, PiLp.sub_apply, stacked_castAdd hx, vec_append_castAdd hb]
  · rw [PiLp.sub_apply, stacked_natAdd hx, vec_append_natAdd hb, vec_zeros, PiLp.zero_apply,
      sub_zero]

theorem normalEquations_iff {w : Fin n → ℝ} {x : EuclideanSpace ℝ (Fin n)}
    {y : EuclideanSpace ℝ (Fin m)} :
    (Bᵀ * B + diagonal w ^ 2) *ᵥ x.ofLp = Bᵀ *ᵥ y.ofLp ↔
      ∀ j, adjoint (toEuclideanLin B) (toEuclideanLin B x - y) j + w j * x j * w j = 0 := by
  rw [funext_iff]
  refine forall_congr' fun j => ?_
  rw [map_sub, PiLp.sub_apply, ofLp_adjoint_toEuclideanLin, ofLp_adjoint_toEuclideanLin,
    ofLp_toEuclideanLin, add_mulVec, ← mulVec_mulVec, diagonal_pow, Pi.add_apply,
    mulVec_diagonal, Pi.pow_apply]
  constructor
  · intro h
    linear_combination h
  · intro h
    linear_combination h

theorem minimizes_damped_iff (ha : Realizes a (toEuclideanLin B)) (hd : d.Normalized n)
    (hb : b.size = m) (hz : z.size = n) :
    Minimizes (⟨a, d⟩ : DampedOperator A ℝ) n (b ++ Vec.zeros n) z ↔
      (Bᵀ * B + diagonal (vec n d.diagonal).ofLp ^ 2) *ᵥ (vec n (d.unscale z)).ofLp =
        Bᵀ *ᵥ (vec m b).ofLp := by
  have hrhs : (b ++ Vec.zeros n : Array ℝ).size = m + n := by simp [hb, Vec.zeros]
  have hnorm (j : Fin n) : vec n d.normalization j ≠ 0 := by
    rw [hd.normalization_eq]
    positivity
  rw [minimizes_iff (realizes_damped ha hd.toSized) hrhs hz, normalEquations_iff, PiLp.ext_iff]
  refine forall_congr' fun j => ?_
  rw [adjoint_stacked_residual hd.toSized hb hz, PiLp.zero_apply, div_eq_zero_iff,
    or_iff_left (hnorm j)]

/-- After an update, and after any products since, a damped operator computes its augmented matrix,
its products are adjoint, and its minimizers solve the normal equations of the damped problem.  A
product leaves the damping as it was but for the scratch vector. -/
theorem damped_computes_augmented (ha : Computes a B) (hd : d.Sized n) (lambda : ℝ)
    (hdtd : dtd.size = n) {e : Damping ℝ} (he : (d.update lambda dtd).Match n e) :
    let w (j : Fin n) : ℝ := lambda * √(dtd.getD j 0)
    let op : DampedOperator A ℝ := ⟨a, e⟩
    Computes op (augmented B w) ∧
      (∀ x y out out' : Array ℝ, x.size = n → y.size = m + n → out.size = m + n → out'.size = n →
        ∃ ax aty, LinearOperator.apply op 1 x 0 out = .done ax ∧
          LinearOperator.applyTranspose op 1 y 0 out' = .done aty ∧
            Vec.dot ax y = Vec.dot x aty) ∧
      (∀ b z : Array ℝ, b.size = m → z.size = n →
        (Minimizes op n (b ++ Vec.zeros n) z ↔
          (Bᵀ * B + diagonal w ^ 2) *ᵥ (vec n (e.unscale z)).ofLp = Bᵀ *ᵥ (vec m b).ofLp)) ∧
      (∀ (alpha : ℝ) (x : Array ℝ) (beta : ℝ) (out : Array ℝ),
        (d.update lambda dtd).Match n (op.applyKeeping alpha x beta out).2) ∧
      ∀ (alpha : ℝ) (y : Array ℝ) (beta : ℝ) (out : Array ℝ), y.size = m + n → out.size = n →
        (d.update lambda dtd).Match n (op.applyTransposeKeeping alpha y beta out).2 := by
  intro w op
  have hw : (vec n e.diagonal).ofLp = w := by
    rw [← he.diagonal]
    exact funext (vec_diagonal_update hd hdtd)
  have hnormalized : e.Normalized n := normalized_of_match (normalized_update hd hdtd) he
  rw [← hw]
  have hcomputes := computes_augmented ha hnormalized
  refine ⟨hcomputes, fun x y out out' => hcomputes.toRealizes.dot_apply,
    fun b z => minimizes_damped_iff ha.toRealizes hnormalized,
    fun alpha x beta out => DampedOperator.match_applyKeeping he alpha x beta out,
    fun alpha y beta out hy hout => ?_⟩
  have hagree : Agree (LinearOperator.nrows a) n a a := by
    rw [ha.nrows]
    exact ha.agree ha
  obtain ⟨r, hr, -⟩ := hcomputes.applyTranspose alpha y beta out hy hout
  exact DampedOperator.match_applyTransposeKeeping (beq_self_eq_true 0) hagree he hr

/-- Two parameters with a damping of one: `(x + y - 3)² + (y - 1)² + x² + y²` is minimal at
`(1, 1)`. -/
theorem damped_computes_augmented_pair :
    let J : Dense.Matrix ℝ := .ofFn 2 2 fun row col => if row ≤ col then 1 else 0
    let d : Damping ℝ := (Damping.none 2).update (1 / 2) #[4, 4]
    (Computes J (entries 2 2 J) ∧ (Damping.none 2 : Damping ℝ).Sized 2 ∧ d.Match 2 d) ∧
      Minimizes (⟨J, d⟩ : DampedOperator (Dense.Matrix ℝ) ℝ) 2 (#[3, 1] ++ Vec.zeros 2)
        #[√2, √2] := by
  intro J d
  have hJ : Computes J (entries 2 2 J) :=
    computes_entries rfl (by simp [J, Dense.Matrix.ofFn, Dense.Matrix.ncols])
  have hnone : (Damping.none 2 : Damping ℝ).Sized 2 := sized_none 2
  have hd : d.Sized 2 := sized_update hnone
  have hmatch : d.Match 2 d := ⟨rfl, rfl, hd.diagonal, hd.normalization, hd.scratch, hd.scratch⟩
  refine ⟨⟨hJ, hnone, hmatch⟩, ?_⟩
  have hdtd : (#[4, 4] : Array ℝ).size = 2 := rfl
  obtain ⟨-, -, hmin, -⟩ := damped_computes_augmented hJ hnone (1 / 2) hdtd hmatch
  have hroot : √(4 : ℝ) = 2 := by
    rw [show (4 : ℝ) = 2 ^ 2 by norm_num, Real.sqrt_sq zero_le_two]
  have hw : (fun j : Fin 2 => 1 / 2 * √((#[4, 4] : Array ℝ).getD j 0)) = fun _ => 1 := by
    ext j
    fin_cases j <;> simp [hroot]
  have hdiagonal (j : Fin 2) : vec 2 d.diagonal j = 1 := by
    rw [vec_diagonal_update hnone rfl]
    exact congrFun hw j
  have hx (j : Fin 2) : vec 2 (d.unscale #[√2, √2]) j = 1 := by
    rw [vec_unscale hd rfl, (normalized_update hnone rfl).normalization_eq, hdiagonal]
    fin_cases j <;> norm_num
  rw [hmin #[3, 1] #[√2, √2] rfl rfl, hw, diagonal_one, one_pow]
  ext j
  simp only [mulVec, dotProduct, hx, Matrix.add_apply, mul_apply, one_apply, transpose_apply, J,
    entries_ofFn, Fin.sum_univ_two]
  fin_cases j <;> norm_num

end Lsmr

end LeastSquares
