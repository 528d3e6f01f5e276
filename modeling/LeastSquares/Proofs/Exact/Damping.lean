import Mathlib
import LeastSquares.Damping
import LeastSquares.Proofs.Exact.Step

/-!
# Exact damped operators

A damped operator realizes the matrix of its base over a diagonal block, with every column divided
by the normalization of its parameter.
-/

namespace LeastSquares

structure Damping.Sized (n : ℕ) (d : Damping ℝ) : Prop where
  diagonal : d.diagonal.size = n
  normalization : d.normalization.size = n
  scratch : d.scratch.size = n

namespace Exact

open Matrix
open LinearMap (adjoint)

variable {m n : ℕ}

section Blocks

variable {xs ys out : Array ℝ}

theorem vec_append_castAdd (hx : xs.size = m) (i : Fin m) :
    vec (m + n) (xs ++ ys) (Fin.castAdd n i) = vec m xs i := by
  have hi : (i : ℕ) < xs.size := hx ▸ i.isLt
  simp [Array.getElem?_append_left hi]

theorem vec_append_natAdd (hx : xs.size = m) (j : Fin n) :
    vec (m + n) (xs ++ ys) (Fin.natAdd m j) = vec n ys j := by
  have hj : xs.size ≤ m + j := by omega
  simp [Array.getElem?_append_right hj, hx]

theorem vec_extract_castAdd (hout : out.size = m + n) (i : Fin m) :
    vec m (out.extract 0 m) i = vec (m + n) out (Fin.castAdd n i) := by
  have hi : (i : ℕ) < out.size := by omega
  simp [hi]

theorem vec_extract_natAdd (hout : out.size = m + n) (j : Fin n) :
    vec n (out.extract m out.size) j = vec (m + n) out (Fin.natAdd m j) := by
  simp [hout]

end Blocks

/-- The matrix `B` over the diagonal block of `d`, with every column divided by its entry of
`norm`. -/
noncomputable def stacked (B : Matrix (Fin m) (Fin n) ℝ) (d norm : EuclideanSpace ℝ (Fin n)) :
    Matrix (Fin (m + n)) (Fin n) ℝ :=
  Matrix.of fun i j =>
    Fin.addCases (fun i => B i j / norm j) (fun k => diagonal d.ofLp k j / norm j) i

section Stacked

variable {B : Matrix (Fin m) (Fin n) ℝ} {d norm x y : EuclideanSpace ℝ (Fin n)}
  {z : EuclideanSpace ℝ (Fin (m + n))}

theorem toEuclideanLin_apply_eq_sum {k l : ℕ} (C : Matrix (Fin k) (Fin l) ℝ)
    (x : EuclideanSpace ℝ (Fin l)) (i : Fin k) : toEuclideanLin C x i = ∑ j, C i j * x j := by
  rw [ofLp_toEuclideanLin]
  rfl

theorem adjoint_apply_eq_sum {k l : ℕ} (C : Matrix (Fin k) (Fin l) ℝ)
    (y : EuclideanSpace ℝ (Fin k)) (j : Fin l) :
    adjoint (toEuclideanLin C) y j = ∑ i, C i j * y i := by
  rw [ofLp_adjoint_toEuclideanLin]
  rfl

@[simp] theorem stacked_apply_castAdd (i : Fin m) (j : Fin n) :
    stacked B d norm (Fin.castAdd n i) j = B i j / norm j := by
  rw [stacked, of_apply, Fin.addCases_left]

@[simp] theorem stacked_apply_natAdd (k j : Fin n) :
    stacked B d norm (Fin.natAdd m k) j = diagonal d.ofLp k j / norm j := by
  rw [stacked, of_apply, Fin.addCases_right]

theorem stacked_castAdd (hy : ∀ j, y j = x j / norm j) (i : Fin m) :
    toEuclideanLin (stacked B d norm) x (Fin.castAdd n i) = toEuclideanLin B y i := by
  rw [toEuclideanLin_apply_eq_sum, toEuclideanLin_apply_eq_sum]
  refine Finset.sum_congr rfl fun j _ => ?_
  rw [hy, stacked_apply_castAdd]
  ring

theorem stacked_natAdd (hy : ∀ j, y j = x j / norm j) (k : Fin n) :
    toEuclideanLin (stacked B d norm) x (Fin.natAdd m k) = d k * y k := by
  rw [toEuclideanLin_apply_eq_sum, Finset.sum_eq_single k]
  · rw [stacked_apply_natAdd, diagonal_apply_eq, hy]
    ring
  · intro j _ hj
    simp [diagonal_apply_ne _ hj.symm]
  · simp

theorem adjoint_stacked {u : EuclideanSpace ℝ (Fin m)} {w : EuclideanSpace ℝ (Fin n)}
    (hu : ∀ i, u i = z (Fin.castAdd n i)) (hw : ∀ k, w k = z (Fin.natAdd m k)) (j : Fin n) :
    adjoint (toEuclideanLin (stacked B d norm)) z j =
      (adjoint (toEuclideanLin B) u j + w j * d j) / norm j := by
  rw [adjoint_apply_eq_sum, adjoint_apply_eq_sum, Fin.sum_univ_add, add_div, Finset.sum_div]
  congr 1
  · refine Finset.sum_congr rfl fun i _ => ?_
    rw [hu, stacked_apply_castAdd]
    ring
  · rw [Finset.sum_eq_single j]
    · rw [hw, stacked_apply_natAdd, diagonal_apply_eq]
      ring
    · intro k _ hk
      simp [diagonal_apply_ne _ hk]
    · simp

end Stacked

/-! ## Products -/

variable {A : Type} [LinearOperator A ℝ] {a : A} {B : Matrix (Fin m) (Fin n) ℝ} {d : Damping ℝ}
  {v out : Array ℝ}

theorem size_load (hd : d.Sized n) : (d.load v).size = n :=
  (Vec.size_zipUpdate _ _ _).trans hd.scratch

theorem vec_load (hd : d.Sized n) (hv : v.size = n) (j : Fin n) :
    vec n (d.load v) j = vec n v j / vec n d.normalization j := by
  rw [Damping.load, vec_zipUpdate _ hd.scratch (by simp [hv, hd.normalization])]
  simp [hv, hd.normalization]

theorem vec_dampedBlock (hd : d.Sized n) (alpha beta : ℝ) {scratch block : Array ℝ}
    (hscratch : scratch.size = n) (hblock : block.size = n) (k : Fin n) :
    vec n (d.dampedBlock alpha beta scratch block) k =
      alpha * (vec n d.diagonal k * vec n scratch k) + beta * vec n block k := by
  rw [Damping.dampedBlock, vec_zipUpdate _ hblock (by simp [hscratch, hd.diagonal])]
  simp only [Array.getElem_zip]
  split
  case isTrue h =>
    rw [of_decide_eq_true h]
    simp [hscratch, hd.diagonal]
    ring
  case isFalse =>
    simp [hscratch, hd.diagonal, hblock]
    ring

theorem apply_damped (ha : Realizes a (toEuclideanLin B)) (hd : d.Sized n) (alpha : ℝ)
    (hv : v.size = n) (beta : ℝ) (hout : out.size = m + n) :
    ∃ r, LinearOperator.apply (⟨a, d⟩ : DampedOperator A ℝ) alpha v beta out = .done r ∧
      r.size = m + n ∧
        vec (m + n) r = alpha • toEuclideanLin
          (stacked B (vec n d.diagonal) (vec n d.normalization)) (vec n v) +
            beta • vec (m + n) out := by
  have htop : (out.extract 0 m).size = m := by simp [hout]
  have hblock : (out.extract m out.size).size = n := by simp [hout]
  obtain ⟨data, hdata, hsize, hvec⟩ :=
    ha.apply alpha (d.load v) beta (out.extract 0 m) (size_load hd) htop
  have hbottom : (d.dampedBlock alpha beta (d.load v) (out.extract m out.size)).size = n :=
    (Vec.size_zipUpdate _ _ _).trans hblock
  refine ⟨data ++ d.dampedBlock alpha beta (d.load v) (out.extract m out.size), ?_, ?_, ?_⟩
  · have hle : m ≤ out.size := by omega
    change (DampedOperator.applyKeeping ⟨a, d⟩ alpha v beta out).1 = _
    simp [DampedOperator.applyKeeping, ha.nrows, hle, hdata]
  · rw [Array.size_append, hsize, hbottom]
  · ext i
    refine Fin.addCases (fun i => ?_) (fun k => ?_) i
    · rw [vec_append_castAdd hsize, hvec]
      simp only [PiLp.add_apply, PiLp.smul_apply, smul_eq_mul]
      rw [stacked_castAdd (vec_load hd hv), vec_extract_castAdd hout]
    · rw [vec_append_natAdd hsize, vec_dampedBlock hd alpha beta (size_load hd) hblock]
      simp only [PiLp.add_apply, PiLp.smul_apply, smul_eq_mul]
      rw [stacked_natAdd (vec_load hd hv), vec_extract_natAdd hout]

theorem applyTranspose_damped (ha : Realizes a (toEuclideanLin B)) (hd : d.Sized n) (alpha : ℝ)
    (hv : v.size = m + n) (beta : ℝ) (hout : out.size = n) :
    ∃ r, LinearOperator.applyTranspose (⟨a, d⟩ : DampedOperator A ℝ) alpha v beta out = .done r ∧
      r.size = n ∧
        vec n r = alpha • adjoint (toEuclideanLin
          (stacked B (vec n d.diagonal) (vec n d.normalization))) (vec (m + n) v) +
            beta • vec n out := by
  have htop : (v.extract 0 m).size = m := by simp [hv]
  have hblock : (v.extract m v.size).size = n := by simp [hv]
  obtain ⟨scratch, hdata, hsize, hvec⟩ :=
    ha.applyTranspose 1 (v.extract 0 m) 0 d.scratch htop hd.scratch
  let entry (i : ℕ) : ℝ :=
    (scratch.getD i 0 + (v.extract m v.size).getD i 0 * d.diagonal.getD i 0) /
      d.normalization.getD i 0
  have hfill : Outcome.fill (d.transposedEntry? alpha beta scratch (v.extract m v.size)) out =
      .done (out.mapIdx fun i old => alpha * entry i + beta * old) := by
    refine Outcome.fill_eq_done fun i hi => ?_
    have hi' : i < n := hout ▸ hi
    have hscratch : i < scratch.size := hsize.symm ▸ hi'
    have hvblock : i < (v.extract m v.size).size := hblock.symm ▸ hi'
    have hdiagonal : i < d.diagonal.size := hd.diagonal.symm ▸ hi'
    have hnormalization : i < d.normalization.size := hd.normalization.symm ▸ hi'
    simp only [Damping.transposedEntry?, Array.getElem?_eq_getElem hscratch,
      Array.getElem?_eq_getElem hvblock, Array.getElem?_eq_getElem hdiagonal,
      Array.getElem?_eq_getElem hnormalization, entry, Array.getD_eq_getD_getElem?,
      Option.getD_some, Option.some.injEq]
    split
    case isTrue h => rw [of_decide_eq_true h, zero_mul, add_zero]
    case isFalse => exact add_comm _ _
  refine ⟨out.mapIdx fun i old => alpha * entry i + beta * old, ?_, by simpa, ?_⟩
  · have hle : m ≤ v.size := by omega
    change (DampedOperator.applyTransposeKeeping ⟨a, d⟩ alpha v beta out).1 = _
    simp only [DampedOperator.applyTransposeKeeping, ha.nrows, hle, if_true, hdata]
    exact hfill
  · ext j
    have hscratch : vec n scratch j = adjoint (toEuclideanLin B) (vec m (v.extract 0 m)) j := by
      rw [hvec]
      simp
    simp only [PiLp.add_apply, PiLp.smul_apply, smul_eq_mul]
    rw [adjoint_stacked (vec_extract_castAdd hv) (vec_extract_natAdd hv), ← hscratch]
    simp [entry, hout]

theorem realizes_damped (ha : Realizes a (toEuclideanLin B)) (hd : d.Sized n) :
    Realizes (⟨a, d⟩ : DampedOperator A ℝ)
      (toEuclideanLin (stacked B (vec n d.diagonal) (vec n d.normalization))) where
  nrows := congrArg₂ (· + ·) ha.nrows ha.ncols
  ncols := ha.ncols
  apply alpha _ beta _ hv hout := apply_damped ha hd alpha hv beta hout
  applyTranspose alpha _ beta _ hv hout := applyTranspose_damped ha hd alpha hv beta hout

end Exact

end LeastSquares
