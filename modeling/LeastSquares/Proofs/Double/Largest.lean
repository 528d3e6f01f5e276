import Mathlib
import LeastSquares.Vec
import LeastSquares.Proofs.Double.Order

/-!
# Machine numbers: the largest absolute value

The largest absolute value of a vector is not below the one of any entry, and it is NaN as soon as
one entry is.  So a vector whose largest absolute value is below a bound has no NaN, and all of its
entries are below the bound.
-/

namespace LeastSquares.Double

open Float.Model Float.Model.UnpackedFloat

theorem isNaN_abs {x : Float} (h : x.isNaN = true) : x.abs.isNaN = true := by
  change x.toModel.unpack.isNaN = true at h
  change (unpack .binary64 (pack .binary64 x.toModel.unpack.abs)).isNaN = true
  generalize x.toModel.unpack = u at h ⊢
  cases u with
  | notANumber => rfl
  | _ => cases h

theorem scalar_isNaN (x : Float) : Scalar.isNaN x = x.isNaN := by
  change (!(x.toModel.unpack.compare x.toModel.unpack == some .eq)) = _
  rcases compare_eq_none_or x x with ⟨hnan, hcmp⟩ | ⟨hnum, o, hcmp, ho⟩
  · rw [hcmp, or_self_iff.1 hnan]
    rfl
  · rw [hcmp, hnum.1]
    cases o with
    | eq => rfl
    | lt => exact absurd ho (lt_irrefl _)
    | gt => exact absurd ho (lt_irrefl _)

theorem le_refl_of_isNaN_eq_false {x : Float} (h : x.isNaN = false) : x ≤ x :=
  le_iff_value.2 ⟨h, h, le_rfl⟩

theorem le_of_not_lt {x y : Float} (hx : x.isNaN = false) (hy : y.isNaN = false) (h : ¬ x < y) :
    y ≤ x :=
  le_iff_value.2 ⟨hy, hx, le_of_not_gt fun hlt => h (lt_iff_value.2 ⟨hx, hy, hlt⟩)⟩

def larger (largest x : Float) : Float :=
  if decide (largest < x.abs) || Scalar.isNaN x.abs then x.abs else largest

theorem maxAbs_eq_foldl (xs : Array Float) : Vec.maxAbs xs = xs.toList.foldl larger 0 := by
  rw [Array.foldl_toList]
  rfl

theorem le_larger {largest x : Float} (h : (larger largest x).isNaN = false) :
    largest ≤ larger largest x ∧ x.abs ≤ larger largest x := by
  unfold larger at h ⊢
  rw [scalar_isNaN] at h ⊢
  by_cases hlt : largest < x.abs
  · simp only [hlt, decide_true, Bool.true_or, if_true] at h ⊢
    exact ⟨le_of_lt hlt, le_refl_of_isNaN_eq_false h⟩
  · cases hx : x.abs.isNaN with
    | true =>
      simp only [hx, Bool.or_true, if_true] at h
      cases h
    | false =>
      simp only [hlt, hx, decide_false, Bool.or_false, Bool.false_eq_true, if_false] at h ⊢
      exact ⟨le_refl_of_isNaN_eq_false h, le_of_not_lt h hx hlt⟩

theorem le_foldl_larger {xs : List Float} {largest : Float}
    (h : (xs.foldl larger largest).isNaN = false) :
    largest ≤ xs.foldl larger largest ∧ ∀ x ∈ xs, x.abs ≤ xs.foldl larger largest := by
  induction xs generalizing largest with
  | nil => exact ⟨le_refl_of_isNaN_eq_false h, nofun⟩
  | cons x xs ih =>
    -- NaN sticks: as the whole fold is none, neither is what it holds after the first entry.
    obtain ⟨hfirst, hrest⟩ := ih h
    obtain ⟨hlargest, hx⟩ := le_larger (le_iff_value.1 hfirst).1
    refine ⟨le_trans hlargest hfirst, fun y hy => ?_⟩
    rcases List.mem_cons.1 hy with rfl | hy
    · exact le_trans hx hfirst
    · exact hrest y hy

theorem lt_of_maxAbs_lt {xs : Array Float} {bound : Float} (h : Vec.maxAbs xs < bound) :
    ∀ x ∈ xs, x.isNaN = false ∧ x.abs < bound := by
  intro x hx
  rw [maxAbs_eq_foldl] at h
  have hle := (le_foldl_larger (lt_iff_value.1 h).1).2 x hx.val
  have hlt := lt_of_le_of_lt hle h
  refine ⟨?_, hlt⟩
  rw [← Bool.not_eq_true]
  intro hnan
  have habs := isNaN_abs hnan
  rw [(lt_iff_value.1 hlt).1] at habs
  cases habs

end LeastSquares.Double
