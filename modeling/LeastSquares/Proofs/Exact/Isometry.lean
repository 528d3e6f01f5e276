import Mathlib
import LeastSquares.Proofs.Exact.Operator

/-!
# Exact isometries

An isometry keeps norms and inner products and commutes with linear combinations, so the operations
on arrays cannot tell a vector from its image.  A map that takes images to images has an adjoint
that does.
-/

namespace LeastSquares.Exact

open LinearMap (adjoint)

variable {k : ℕ} {E : EuclideanSpace ℝ (Fin k) ≃ₗᵢ[ℝ] EuclideanSpace ℝ (Fin k)}
  {xs xs' ys ys' : Array ℝ}

structure Carries (E : EuclideanSpace ℝ (Fin k) ≃ₗᵢ[ℝ] EuclideanSpace ℝ (Fin k))
    (xs xs' : Array ℝ) : Prop where
  size : xs.size = k
  size' : xs'.size = k
  vec_eq : vec k xs' = E (vec k xs)

namespace Carries

theorem dot (hx : Carries E xs xs') (hy : Carries E ys ys') : Vec.dot xs' ys' = Vec.dot xs ys := by
  rw [dot_eq_inner hx.size hy.size, dot_eq_inner hx.size' hy.size', hx.vec_eq, hy.vec_eq,
    E.inner_map_map]

theorem norm (h : Carries E xs xs') : Vec.norm xs' = Vec.norm xs := by
  rw [norm_eq h.size, norm_eq h.size', h.vec_eq, E.norm_map]

theorem normalize (h : Carries E xs xs') (length : ℝ) :
    Carries E (Vec.normalize length xs) (Vec.normalize length xs') := by
  refine ⟨(Vec.size_normalize _ _).trans h.size, (Vec.size_normalize _ _).trans h.size', ?_⟩
  unfold Vec.normalize
  split
  case isTrue => rw [vec_scale _ h.size, vec_scale _ h.size', h.vec_eq, map_smul]
  case isFalse => exact h.vec_eq

theorem map_zero (h : xs.size = k) (h' : xs'.size = k) :
    Carries E (xs.map fun _ => 0) (xs'.map fun _ => 0) := by
  refine ⟨by simpa using h, by simpa using h', ?_⟩
  rw [vec_map_zero h, vec_map_zero h', E.map_zero]

theorem combination {f : ℝ → ℝ → ℝ} {a b : ℝ} (hf : ∀ x y, f x y = a * x + b * y)
    (hx : Carries E xs xs') (hy : Carries E ys ys') :
    Carries E (Vec.zipUpdate f xs ys) (Vec.zipUpdate f xs' ys') := by
  refine ⟨(Vec.size_zipUpdate _ _ _).trans hx.size, (Vec.size_zipUpdate _ _ _).trans hx.size', ?_⟩
  rw [vec_zipUpdate_combination hf hx.size hy.size, vec_zipUpdate_combination hf hx.size' hy.size',
    hx.vec_eq, hy.vec_eq, map_add, map_smul, map_smul]

theorem unique (h : Carries E xs xs') (h' : Carries E xs ys') : xs' = ys' :=
  vec_injective h.size' h'.size' (h.vec_eq.trans h'.vec_eq.symm)

end Carries

/-! ## Operators between two pairs of spaces -/

variable {m n : ℕ} {E : EuclideanSpace ℝ (Fin n) ≃ₗᵢ[ℝ] EuclideanSpace ℝ (Fin n)}
  {F : EuclideanSpace ℝ (Fin m) ≃ₗᵢ[ℝ] EuclideanSpace ℝ (Fin m)}
  {M M' : EuclideanSpace ℝ (Fin n) →ₗ[ℝ] EuclideanSpace ℝ (Fin m)}

theorem adjoint_intertwines (h : ∀ v, M' (E v) = F (M v)) (y : EuclideanSpace ℝ (Fin m)) :
    adjoint M' (F y) = E (adjoint M y) := by
  refine ext_inner_right ℝ fun w => ?_
  obtain ⟨v, rfl⟩ := E.surjective w
  calc inner ℝ (adjoint M' (F y)) (E v) = inner ℝ (F y) (F (M v)) := by
        rw [LinearMap.adjoint_inner_left, h]
    _ = inner ℝ (adjoint M y) v := by rw [F.inner_map_map, LinearMap.adjoint_inner_left]
    _ = inner ℝ (E (adjoint M y)) (E v) := (E.inner_map_map _ _).symm

section Products

variable {A A' : Type} [LinearOperator A ℝ] [LinearOperator A' ℝ] {a : A} {a' : A'}
  (ha : Realizes a M) (ha' : Realizes a' M') (h : ∀ v, M' (E v) = F (M v)) (alpha beta : ℝ)
  {v v' out out' : Array ℝ}

include ha ha' h

theorem Realizes.carries_apply (hv : Carries E v v') (hout : Carries F out out') :
    ∃ r r', LinearOperator.apply a alpha v beta out = .done r ∧
      LinearOperator.apply a' alpha v' beta out' = .done r' ∧ Carries F r r' := by
  obtain ⟨r, hr, hsize, hvec⟩ := ha.apply alpha v beta out hv.size hout.size
  obtain ⟨r', hr', hsize', hvec'⟩ := ha'.apply alpha v' beta out' hv.size' hout.size'
  refine ⟨r, r', hr, hr', hsize, hsize', ?_⟩
  rw [hvec, hvec', hv.vec_eq, hout.vec_eq, h, map_add, map_smul, map_smul]

theorem Realizes.carries_applyTranspose (hv : Carries F v v') (hout : out.size = n)
    (hout' : out'.size = n) (hold : beta = 0 ∨ Carries E out out') :
    ∃ r r', LinearOperator.applyTranspose a alpha v beta out = .done r ∧
      LinearOperator.applyTranspose a' alpha v' beta out' = .done r' ∧ Carries E r r' := by
  obtain ⟨r, hr, hsize, hvec⟩ := ha.applyTranspose alpha v beta out hv.size hout
  obtain ⟨r', hr', hsize', hvec'⟩ := ha'.applyTranspose alpha v' beta out' hv.size' hout'
  have hbuffer : beta • vec n out' = E (beta • vec n out) := by
    obtain rfl | hold := hold
    · rw [zero_smul, zero_smul, map_zero]
    · rw [hold.vec_eq, map_smul]
  refine ⟨r, r', hr, hr', hsize, hsize', ?_⟩
  rw [hvec, hvec', hv.vec_eq, adjoint_intertwines h, hbuffer, map_add, map_smul,
    map_smul]

end Products

end LeastSquares.Exact
