import Mathlib
import LeastSquares.Vec

/-!
# Exact scalars

The real numbers are scalars with the exact operations.  Every real is finite and none is NaN, and
the derived comparisons are the ones of the order.
-/

namespace LeastSquares

noncomputable instance : Scalar ℝ where
  sqrt := Real.sqrt
  abs x := |x|
  hypot x y := Real.sqrt (x ^ 2 + y ^ 2)
  beq x y := decide (x = y)
  decidableLT := inferInstance
  decidableLE := inferInstance

namespace Exact

@[simp] theorem isNaN_eq_false (x : ℝ) : Scalar.isNaN x = false := by
  simp [Scalar.isNaN]

@[simp] theorem isFinite_eq_true (x : ℝ) : Scalar.isFinite x = true := by
  simp [Scalar.isFinite]

theorem zero_beq_zero : ((0 : ℝ) == 0) = true := decide_eq_true rfl

@[simp] theorem sqrt_eq (x : ℝ) : Scalar.sqrt x = Real.sqrt x := rfl

@[simp] theorem abs_eq (x : ℝ) : Scalar.abs x = |x| := rfl

@[simp] theorem hypot_eq (x y : ℝ) : Scalar.hypot x y = Real.sqrt (x ^ 2 + y ^ 2) := rfl

@[simp] theorem max_eq (x y : ℝ) : Scalar.max x y = max x y := by
  simp only [Scalar.max, isNaN_eq_false, Bool.false_eq_true, if_false]
  split
  · exact (max_eq_right (le_of_lt ‹_›)).symm
  · exact (max_eq_left (not_lt.1 ‹_›)).symm

@[simp] theorem min_eq (x y : ℝ) : Scalar.min x y = min x y := by
  simp only [Scalar.min, isNaN_eq_false, Bool.false_eq_true, if_false]
  split
  · exact (min_eq_right (le_of_lt ‹_›)).symm
  · exact (min_eq_left (not_lt.1 ‹_›)).symm

theorem hypot_sq (x y : ℝ) : Scalar.hypot x y ^ 2 = x ^ 2 + y ^ 2 :=
  Real.sq_sqrt (by positivity)

theorem hypot_pos_left {x : ℝ} (h : x ≠ 0) (y : ℝ) : 0 < Scalar.hypot x y :=
  Real.sqrt_pos.2 (by positivity)

end Exact

end LeastSquares
