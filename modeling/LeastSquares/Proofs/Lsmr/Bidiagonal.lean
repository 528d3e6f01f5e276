import Mathlib
import LeastSquares.Lsmr.Iteration
import LeastSquares.Proofs.Exact.Operator

/-!
# LSMR: the bidiagonalization

Each iteration adds one vector to an orthonormal family on either side of the operator.  The
families themselves are never stored, so the invariant speaks of the spaces that they span: the
current two vectors are unit vectors orthogonal to the spaces of the earlier ones, and the operator
maps one space into the other up to the current vector.  A further iteration needs a further
dimension on both sides.
-/

namespace LeastSquares.Lsmr

open LinearMap (adjoint)
open Module (finrank)

section Spaces

variable {E F : Type} [NormedAddCommGroup E] [InnerProductSpace ℝ E] [FiniteDimensional ℝ E]
  [NormedAddCommGroup F] [InnerProductSpace ℝ F] [FiniteDimensional ℝ F]

/-- Unit vectors `u` and `v` orthogonal to the spaces `U` and `V` of the earlier ones. -/
structure Bidiagonal (M : E →ₗ[ℝ] F) (U : Submodule ℝ F) (V : Submodule ℝ E) (u : F) (v : E)
    (alpha : ℝ) : Prop where
  norm_u : ‖u‖ = 1
  norm_v : ‖v‖ = 1
  orthogonal_u : u ∈ Uᗮ
  orthogonal_v : v ∈ Vᗮ
  adjoint_mem : ∀ y ∈ U, adjoint M y ∈ V
  map_mem : ∀ y ∈ V, M y ∈ U ⊔ ℝ ∙ u
  adjoint_u : adjoint M u - alpha • v ∈ V

variable {M : E →ₗ[ℝ] F} {U : Submodule ℝ F} {V : Submodule ℝ E} {u u' : F} {v v' : E}
  {alpha alpha' beta : ℝ}

theorem Bidiagonal.first (hu : ‖u‖ = 1) (hv : ‖v‖ = 1) (h : adjoint M u = alpha • v) :
    Bidiagonal M ⊥ ⊥ u v alpha where
  norm_u := hu
  norm_v := hv
  orthogonal_u := by simp
  orthogonal_v := by simp
  adjoint_mem y hy := by simp [(Submodule.mem_bot ℝ).1 hy]
  map_mem y hy := by simp [(Submodule.mem_bot ℝ).1 hy]
  adjoint_u := by simp [h]

omit [FiniteDimensional ℝ E] in
theorem mem_orthogonal_sup_singleton {W : Submodule ℝ E} {w z : E} (hW : z ∈ Wᗮ)
    (hw : inner ℝ z w = 0) : z ∈ (W ⊔ ℝ ∙ w)ᗮ := by
  rw [← Submodule.inf_orthogonal]
  exact ⟨hW, Submodule.mem_orthogonal_singleton_iff_inner_left.2 hw⟩

theorem Bidiagonal.inner_map (h : Bidiagonal M U V u v alpha) : inner ℝ (M v) u = alpha := by
  have hrest : inner ℝ v (adjoint M u - alpha • v) = 0 :=
    Submodule.inner_left_of_mem_orthogonal h.adjoint_u h.orthogonal_v
  rw [← LinearMap.adjoint_inner_right]
  rw [inner_sub_right, inner_smul_right, real_inner_self_eq_norm_sq, h.norm_v] at hrest
  linarith

theorem Bidiagonal.norm_sq_map (h : Bidiagonal M U V u v alpha) (hbeta : 0 ≤ beta)
    (hnorm : 0 < beta → ‖u'‖ = 1) (hu' : M v - alpha • u = beta • u') :
    ‖M v‖ ^ 2 = alpha ^ 2 + beta ^ 2 := by
  have hrest : ‖M v - alpha • u‖ ^ 2 = beta ^ 2 := by
    rcases hbeta.eq_or_lt with hzero | hpos
    · rw [hu', ← hzero, zero_smul, norm_zero]
    · rw [hu', norm_smul, hnorm hpos, mul_one, Real.norm_eq_abs, sq_abs]
  rw [norm_sub_sq_real, inner_smul_right, h.inner_map, norm_smul, h.norm_u, mul_one,
    Real.norm_eq_abs, sq_abs] at hrest
  linarith

theorem Bidiagonal.orthogonal_next_u (h : Bidiagonal M U V u v alpha) (hbeta : beta ≠ 0)
    (hu' : M v - alpha • u = beta • u') : u' ∈ (U ⊔ ℝ ∙ u)ᗮ := by
  suffices beta • u' ∈ (U ⊔ ℝ ∙ u)ᗮ from (Submodule.smul_mem_iff _ hbeta).1 this
  rw [← hu']
  refine mem_orthogonal_sup_singleton ((Submodule.mem_orthogonal' _ _).2 fun y hy => ?_) ?_
  · rw [inner_sub_left, inner_smul_left, ← LinearMap.adjoint_inner_right,
      Submodule.inner_left_of_mem_orthogonal (h.adjoint_mem y hy) h.orthogonal_v,
      Submodule.inner_left_of_mem_orthogonal hy h.orthogonal_u]
    simp
  · rw [inner_sub_left, inner_smul_left, h.inner_map, real_inner_self_eq_norm_sq, h.norm_u]
    simp

theorem Bidiagonal.map_mem_next (h : Bidiagonal M U V u v alpha)
    (hu' : M v - alpha • u = beta • u') {y : E} (hy : y ∈ V ⊔ ℝ ∙ v) :
    M y ∈ (U ⊔ ℝ ∙ u) ⊔ ℝ ∙ u' := by
  obtain ⟨z, hz, w, hw, rfl⟩ := Submodule.mem_sup.1 hy
  obtain ⟨c, rfl⟩ := Submodule.mem_span_singleton.1 hw
  have hv : M v = alpha • u + beta • u' := by rw [← hu']; abel
  have hu : u ∈ U ⊔ ℝ ∙ u := Submodule.mem_sup_right (Submodule.mem_span_singleton_self u)
  rw [map_add, map_smul, hv]
  refine add_mem (Submodule.mem_sup_left (h.map_mem z hz)) (Submodule.smul_mem _ _ (add_mem ?_ ?_))
  · exact Submodule.mem_sup_left (Submodule.smul_mem _ _ hu)
  · exact Submodule.mem_sup_right (Submodule.smul_mem _ _ (Submodule.mem_span_singleton_self u'))

theorem Bidiagonal.orthogonal_next_v (h : Bidiagonal M U V u v alpha) (hbeta : beta ≠ 0)
    (halpha : alpha' ≠ 0) (hnorm : ‖u'‖ = 1) (hu' : M v - alpha • u = beta • u')
    (hv' : adjoint M u' - beta • v = alpha' • v') : v' ∈ (V ⊔ ℝ ∙ v)ᗮ := by
  have hnext := h.orthogonal_next_u hbeta hu'
  have hu : inner ℝ u' u = 0 := Submodule.inner_left_of_mem_orthogonal
    (Submodule.mem_sup_right (Submodule.mem_span_singleton_self u)) hnext
  have hself : inner ℝ (adjoint M u') v = beta := by
    have hv : M v = alpha • u + beta • u' := by rw [← hu']; abel
    rw [LinearMap.adjoint_inner_left, hv, inner_add_right, inner_smul_right, inner_smul_right, hu,
      real_inner_self_eq_norm_sq, hnorm]
    ring
  suffices alpha' • v' ∈ (V ⊔ ℝ ∙ v)ᗮ from (Submodule.smul_mem_iff _ halpha).1 this
  rw [← hv']
  refine mem_orthogonal_sup_singleton ((Submodule.mem_orthogonal' _ _).2 fun y hy => ?_) ?_
  · rw [inner_sub_left, inner_smul_left, LinearMap.adjoint_inner_left,
      Submodule.inner_left_of_mem_orthogonal (h.map_mem y hy) hnext,
      Submodule.inner_left_of_mem_orthogonal hy h.orthogonal_v]
    simp
  · rw [inner_sub_left, inner_smul_left, hself, real_inner_self_eq_norm_sq, h.norm_v]
    simp

theorem Bidiagonal.next (h : Bidiagonal M U V u v alpha) (hbeta : beta ≠ 0) (halpha : alpha' ≠ 0)
    (hu : ‖u'‖ = 1) (hv : ‖v'‖ = 1) (hu' : M v - alpha • u = beta • u')
    (hv' : adjoint M u' - beta • v = alpha' • v') :
    Bidiagonal M (U ⊔ ℝ ∙ u) (V ⊔ ℝ ∙ v) u' v' alpha' where
  norm_u := hu
  norm_v := hv
  orthogonal_u := h.orthogonal_next_u hbeta hu'
  orthogonal_v := h.orthogonal_next_v hbeta halpha hu hu' hv'
  adjoint_mem y hy := by
    obtain ⟨z, hz, w, hw, rfl⟩ := Submodule.mem_sup.1 hy
    obtain ⟨c, rfl⟩ := Submodule.mem_span_singleton.1 hw
    have hsum : adjoint M u = (adjoint M u - alpha • v) + alpha • v := by abel
    rw [map_add, map_smul, hsum]
    refine add_mem (Submodule.mem_sup_left (h.adjoint_mem z hz))
      (Submodule.smul_mem _ _ (add_mem (Submodule.mem_sup_left h.adjoint_u) ?_))
    exact Submodule.mem_sup_right
      (Submodule.smul_mem _ _ (Submodule.mem_span_singleton_self v))
  map_mem y hy := h.map_mem_next hu' hy
  adjoint_u := by
    have hrest : adjoint M u' - alpha' • v' = beta • v := by rw [← hv']; abel
    rw [hrest]
    exact Submodule.mem_sup_right
      (Submodule.smul_mem _ _ (Submodule.mem_span_singleton_self v))

theorem finrank_next {W : Submodule ℝ E} {w : E} (hw : ‖w‖ = 1) (horth : w ∈ Wᗮ) :
    finrank ℝ (W ⊔ ℝ ∙ w : Submodule ℝ E) = finrank ℝ W + 1 := by
  refine Submodule.finrank_sup_span_singleton fun hmem => ?_
  have hzero : inner ℝ w w = 0 := Submodule.inner_left_of_mem_orthogonal hmem horth
  rw [inner_self_eq_zero] at hzero
  simp [hzero] at hw

theorem finrank_lt_of_orthogonal {W : Submodule ℝ E} {w : E} (hw : ‖w‖ = 1) (horth : w ∈ Wᗮ) :
    finrank ℝ W < finrank ℝ E := by
  have hle := Submodule.finrank_le (W ⊔ ℝ ∙ w)
  rw [finrank_next hw horth] at hle
  exact hle

end Spaces

section Extension

open Exact

variable {A : Type} [LinearOperator A ℝ] {m n : ℕ}

structure Basis.Sized (m n : ℕ) (g : Basis ℝ) : Prop where
  u : g.u.size = m
  v : g.v.size = n

/-- What an extension does to a basis.  Where `beta` vanishes there is no next `u`, and where
`alpha` vanishes no next `v`. -/
structure Basis.Extends (M : EuclideanSpace ℝ (Fin n) →ₗ[ℝ] EuclideanSpace ℝ (Fin m))
    (g g' : Basis ℝ) : Prop where
  sized : g'.Sized m n
  beta_nonneg : 0 ≤ g'.beta
  alpha_nonneg : 0 ≤ g.alpha → 0 ≤ g'.alpha
  residual : M (vec n g.v) - g.alpha • vec m g.u = g'.beta • vec m g'.u
  norm_u : 0 < g'.beta → ‖vec m g'.u‖ = 1
  parameter : 0 < g'.beta →
    adjoint M (vec m g'.u) - g'.beta • vec n g.v = g'.alpha • vec n g'.v
  norm_v : 0 < g'.beta → 0 < g'.alpha → ‖vec n g'.v‖ = 1
  zero_v : 0 < g'.beta → g'.alpha = 0 → vec n g'.v = 0
  keeps_v : g'.beta = 0 → g'.v = g.v

theorem Basis.extend_done {a : A}
    {M : EuclideanSpace ℝ (Fin n) →ₗ[ℝ] EuclideanSpace ℝ (Fin m)} (ha : Realizes a M)
    {g : Basis ℝ} (hg : g.Sized m n) : ∃ g', g.extend a = .done g' ∧ Extends M g g' := by
  obtain ⟨w, hw, hsize, hvec⟩ := ha.apply 1 g.v (-g.alpha) g.u hg.v hg.u
  have hresidual : M (vec n g.v) - g.alpha • vec m g.u =
      Vec.norm w • vec m (Vec.normalize (Vec.norm w) w) := by
    rw [norm_smul_normalize hsize, hvec]
    module
  have hu : (Vec.normalize (Vec.norm w) w).size = m := (Vec.size_normalize _ _).trans hsize
  have hnonneg : 0 ≤ Vec.norm w := norm_eq hsize ▸ norm_nonneg _
  by_cases hbeta : 0 < Vec.norm w
  · obtain ⟨z, hz, hsize', hvec'⟩ := ha.applyTranspose 1 (Vec.normalize (Vec.norm w) w)
      (-Vec.norm w) g.v hu hg.v
    refine ⟨⟨Vec.normalize (Vec.norm w) w, Vec.normalize (Vec.norm z) z, Vec.norm z, Vec.norm w⟩,
      by simp [extend, hw, unit, hbeta, hz], ?_⟩
    exact
      { sized := ⟨hu, (Vec.size_normalize _ _).trans hsize'⟩
        beta_nonneg := hnonneg
        alpha_nonneg := fun _ => norm_eq hsize' ▸ norm_nonneg _
        residual := hresidual
        norm_u := norm_normalize hsize
        parameter := fun _ => by
          rw [norm_smul_normalize hsize', hvec']
          module
        norm_v := fun _ => norm_normalize hsize'
        zero_v := fun _ => normalize_eq_zero hsize'
        keeps_v := fun h => absurd h hbeta.ne' }
  · refine ⟨⟨Vec.normalize (Vec.norm w) w, g.v, g.alpha, Vec.norm w⟩,
      by simp [extend, hw, unit, hbeta], ?_⟩
    exact
      { sized := ⟨hu, hg.v⟩
        beta_nonneg := hnonneg
        alpha_nonneg := id
        residual := hresidual
        norm_u := fun h => absurd h hbeta
        parameter := fun h => absurd h hbeta
        norm_v := fun h => absurd h hbeta
        zero_v := fun h => absurd h hbeta
        keeps_v := fun _ => rfl }

end Extension

end LeastSquares.Lsmr
