import Mathlib
import LeastSquares.Proofs.Exact.Scalar

/-!
# Quotients by zero

Over the real numbers a quotient by zero is zero, which hides a division that ought not to happen.
Here a quotient by zero is whatever one likes: what an algorithm computes alike for every such
choice, it computes without dividing by zero.
-/

namespace LeastSquares.Exact

/-- The exact scalars with the given value for every quotient by zero. -/
@[irreducible]
noncomputable def dividing (atZero : ℝ → ℝ) : Scalar ℝ :=
  { (inferInstance : Scalar ℝ) with div := fun x y => if y = 0 then atZero x else x / y }

variable {atZero : ℝ → ℝ} (x y : ℝ)

theorem dividing_div {y : ℝ} (hy : y ≠ 0) :
    @HDiv.hDiv ℝ ℝ ℝ (@instHDiv ℝ (dividing atZero).toDiv) x y = x / y := by
  unfold dividing
  exact if_neg hy

/-! ## Everything but the quotients -/

theorem dividing_zero : @OfNat.ofNat ℝ 0 (@Zero.toOfNat0 ℝ (dividing atZero).toZero) = 0 := by
  unfold dividing
  rfl

theorem dividing_one : @OfNat.ofNat ℝ 1 (@One.toOfNat1 ℝ (dividing atZero).toOne) = 1 := by
  unfold dividing
  rfl

theorem dividing_add : @HAdd.hAdd ℝ ℝ ℝ (@instHAdd ℝ (dividing atZero).toAdd) x y = x + y := by
  unfold dividing
  rfl

theorem dividing_mul : @HMul.hMul ℝ ℝ ℝ (@instHMul ℝ (dividing atZero).toMul) x y = x * y := by
  unfold dividing
  rfl

theorem dividing_lt : @LT.lt ℝ (dividing atZero).toLT x y = (x < y) := by
  unfold dividing
  rfl

theorem dividing_le : @LE.le ℝ (dividing atZero).toLE x y = (x ≤ y) := by
  unfold dividing
  rfl

theorem dividing_hypot : @Scalar.hypot ℝ (dividing atZero) x y = Scalar.hypot x y := by
  unfold dividing
  rfl

theorem dividing_min : @Scalar.min ℝ (dividing atZero) x y = Scalar.min x y := by
  unfold dividing
  rfl

end LeastSquares.Exact
