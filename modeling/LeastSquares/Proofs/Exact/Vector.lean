import Mathlib
import LeastSquares.Operator
import LeastSquares.Proofs.Exact.Scalar

/-!
# Exact vectors

An array of `n` reals is a point of the Euclidean space, and the operations on arrays are the ones
of that space.
-/

namespace LeastSquares.Exact

/-- The first `n` entries of an array as a point, with zeros where there are none. -/
def vec (n : ℕ) (xs : Array ℝ) : EuclideanSpace ℝ (Fin n) := WithLp.toLp _ fun i => xs.getD i 0

variable {n : ℕ} {xs ys : Array ℝ}

@[simp] theorem vec_apply (i : Fin n) : vec n xs i = xs.getD i 0 := rfl

theorem vec_eq_getElem (h : xs.size = n) (i : Fin n) : vec n xs i = xs[(i : ℕ)] := by
  simp [h]

theorem vec_injective (hx : xs.size = n) (hy : ys.size = n) (h : vec n xs = vec n ys) :
    xs = ys := by
  apply Array.ext (hx.trans hy.symm)
  intro i hi _
  have hcoord := congrArg (fun w : EuclideanSpace ℝ (Fin n) => w ⟨i, hx ▸ hi⟩) h
  simpa [hi, hy, ← hx] using hcoord

theorem vec_eq_zero_iff (h : xs.size = n) : vec n xs = 0 ↔ xs.all (· == 0) = true := by
  rw [Array.all_eq_true]
  constructor
  · intro hzero i hi
    have hentry := congrArg (fun y : EuclideanSpace ℝ (Fin n) => y ⟨i, h ▸ hi⟩) hzero
    simp only [vec_eq_getElem h] at hentry
    exact decide_eq_true hentry
  · intro hzero
    ext i
    rw [vec_eq_getElem h]
    exact of_decide_eq_true (hzero i (h ▸ i.isLt))

theorem toList_eq_ofFn (h : xs.size = n) : xs.toList = List.ofFn fun i => vec n xs i := by
  subst h
  apply List.ext_getElem <;> simp

theorem foldl_add_eq_sum (h : xs.size = n) (init : ℝ) :
    xs.foldl (· + ·) init = init + ∑ i, vec n xs i := by
  calc xs.foldl (· + ·) init = xs.foldl (· + ·) (init + 0) := by rw [add_zero]
    _ = init + xs.foldl (· + ·) 0 := Array.foldl_assoc
    _ = init + ∑ i, vec n xs i := by
      rw [← Array.foldl_toList, ← List.sum_eq_foldl, toList_eq_ofFn h, List.sum_ofFn]

theorem dot_eq_inner (hx : xs.size = n) (hy : ys.size = n) :
    Vec.dot xs ys = inner ℝ (vec n xs) (vec n ys) := by
  have hsize : (Array.zipWith (· * ·) xs ys).size = n := by simp [hx, hy]
  rw [Vec.dot, foldl_add_eq_sum hsize, zero_add, EuclideanSpace.inner_eq_star_dotProduct]
  simp [dotProduct, hx, hy, mul_comm]

theorem dot_self_eq_sum (h : xs.size = n) : Vec.dot xs xs = ∑ i, vec n xs i ^ 2 := by
  rw [dot_eq_inner h h, real_inner_self_eq_norm_sq, EuclideanSpace.norm_sq_eq]
  simp only [Real.norm_eq_abs, sq_abs]

theorem sumSquares_eq (h : xs.size = n) : Vec.sumSquares xs = ‖vec n xs‖ ^ 2 := by
  have hsize : (xs.map fun x => x * x).size = n := by simp [h]
  rw [Vec.sumSquares, foldl_add_eq_sum hsize, EuclideanSpace.norm_sq_eq]
  simp [h, sq]

theorem norm_eq (h : xs.size = n) : Vec.norm xs = ‖vec n xs‖ := by
  rw [Vec.norm, sqrt_eq, sumSquares_eq h, Real.sqrt_sq (norm_nonneg _)]

theorem vec_zipUpdate {β : Type} (f : ℝ → β → ℝ) {zs : Array β} (hx : xs.size = n)
    (hz : zs.size = n) (i : Fin n) :
    vec n (Vec.zipUpdate f xs zs) i = f xs[(i : ℕ)] zs[(i : ℕ)] := by
  simp [Vec.zipUpdate_eq_zipWith f (hx.trans hz.symm), hx, hz]

theorem vec_zipUpdate_combination {f : ℝ → ℝ → ℝ} {a b : ℝ} (hf : ∀ x y, f x y = a * x + b * y)
    (hx : xs.size = n) (hy : ys.size = n) :
    vec n (Vec.zipUpdate f xs ys) = a • vec n xs + b • vec n ys := by
  ext i
  rw [vec_zipUpdate f hx hy, hf]
  simp [hx, hy]

theorem vec_map_zero (h : xs.size = n) : vec n (xs.map fun _ => 0) = 0 := by
  ext i
  simp [h]

theorem vec_zeros : vec n (Vec.zeros n) = 0 := by
  ext i
  simp [Vec.zeros]

theorem vec_map_neg (h : xs.size = n) : vec n (xs.map (- ·)) = -vec n xs := by
  ext i
  simp [h]

theorem vec_scale (c : ℝ) (h : xs.size = n) : vec n (Vec.scale c xs) = c • vec n xs := by
  ext i
  simp [Vec.scale, h, mul_comm]

theorem norm_smul_normalize (h : xs.size = n) :
    Vec.norm xs • vec n (Vec.normalize (Vec.norm xs) xs) = vec n xs := by
  unfold Vec.normalize
  split
  case isTrue hpos => rw [vec_scale _ h, smul_smul, mul_one_div_cancel hpos.ne', one_smul]
  case isFalse hpos =>
    rw [norm_eq h, norm_pos_iff, not_not] at hpos
    rw [hpos, smul_zero]

theorem norm_normalize (h : xs.size = n) (hpos : 0 < Vec.norm xs) :
    ‖vec n (Vec.normalize (Vec.norm xs) xs)‖ = 1 := by
  rw [Vec.normalize, if_pos hpos, vec_scale _ h, norm_smul, ← norm_eq h, Real.norm_eq_abs,
    abs_of_pos (one_div_pos.2 hpos), one_div_mul_cancel hpos.ne']

theorem normalize_eq_zero (h : xs.size = n) (hzero : Vec.norm xs = 0) :
    vec n (Vec.normalize (Vec.norm xs) xs) = 0 := by
  rw [Vec.normalize, hzero, if_neg (lt_irrefl _), ← norm_eq_zero, ← norm_eq h, hzero]

theorem vec_scaleAccumulator (beta : ℝ) (h : xs.size = n) :
    vec n (LinearOperator.scaleAccumulator beta xs) = beta • vec n xs := by
  unfold LinearOperator.scaleAccumulator
  split
  case isTrue hzero =>
    rw [vec_map_zero h, of_decide_eq_true hzero, zero_smul]
  case isFalse hzero =>
    split
    case isTrue hone => rw [of_decide_eq_true hone, one_smul]
    case isFalse => exact vec_scale beta h

@[simp] theorem accumulate_eq (alpha x beta old : ℝ) :
    LinearOperator.accumulate alpha x beta old = alpha * x + beta * old := by
  unfold LinearOperator.accumulate
  split
  case isTrue h => rw [of_decide_eq_true h, zero_mul, add_zero]
  case isFalse => rfl

end LeastSquares.Exact
