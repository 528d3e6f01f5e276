import LeastSquares.Proofs.Exact.Damping
import LeastSquares.Proofs.Operators.Completing

/-!
# Operators that compute a matrix

In exact arithmetic an operator computes a matrix where its products are the ones of the matrix and
its column norms are the ones of the columns.  Nothing else of an operator shows, so two operators
that compute one matrix agree.  Dense matrices compute their entries.
-/

namespace LeastSquares.Exact

open LinearOperator (Agree)
open Matrix

variable {m n : ℕ} {A A' : Type} [LinearOperator A ℝ] [LinearOperator A' ℝ] {a : A} {a' : A'}
  {B : Matrix (Fin m) (Fin n) ℝ}

/-- The products and the column norms of the operator are the ones of the matrix. -/
structure Computes (a : A) (B : Matrix (Fin m) (Fin n) ℝ) : Prop
    extends Realizes a (toEuclideanLin B) where
  columnSquares : ∀ out : Array ℝ, out.size = n →
    (LinearOperator.columnSquares a out).Ends fun r =>
      r.size = n ∧ ∀ j, vec n r j = ∑ i, B i j ^ 2

theorem alike_of_vec {k : ℕ} {o o' : Outcome (Array ℝ)} {w : EuclideanSpace ℝ (Fin k)}
    (h : o.Ends fun r => r.size = k ∧ vec k r = w)
    (h' : o'.Ends fun r => r.size = k ∧ vec k r = w) :
    Outcome.Alike (fun r r' => r = r' ∧ r.size = k) (fun _ _ => True) o o' := by
  obtain ⟨r, rfl, hsize, hvec⟩ := h
  obtain ⟨r', rfl, hsize', hvec'⟩ := h'
  exact .done ⟨vec_injective hsize hsize' (hvec.trans hvec'.symm), hsize⟩

theorem fill_ends_vec {k : ℕ} {value : ℕ → ℝ → Option ℝ} {out : Array ℝ} {w : Fin k → ℝ}
    (hout : out.size = k) (h : ∀ (j : Fin k) (old : ℝ), value j old = some (w j)) :
    (Outcome.fill value out).Ends fun r => r.size = k ∧ ∀ j, vec k r j = w j := by
  refine ⟨_, Outcome.fill_eq_done (g := fun j old => (value j old).getD 0) fun j hj => ?_,
    by simpa, fun j => ?_⟩
  · rw [h ⟨j, hout ▸ hj⟩, Option.getD_some]
  · simp [hout, h]

theorem Computes.agree (ha : Computes a B) (ha' : Computes a' B) : Agree m n a a' where
  nrows := ha.nrows.trans ha'.nrows.symm
  ncols := ha.ncols.trans ha'.ncols.symm
  apply alpha v beta out hv hout :=
    alike_of_vec (ha.apply alpha v beta out hv hout) (ha'.apply alpha v beta out hv hout)
  applyTranspose alpha v beta out out' hv hout hsame := by
    have hout' : out'.size = n := hsame.1.symm.trans hout
    -- Where the buffers differ `beta` is zero, and their contents drop out.
    have hbuffer : beta • vec n out' = beta • vec n out := by
      obtain ⟨-, hbeta | rfl⟩ := hsame
      · rw [of_decide_eq_true hbeta, zero_smul, zero_smul]
      · rfl
    have hcall' := ha'.applyTranspose alpha v beta out' hv hout'
    rw [hbuffer] at hcall'
    exact alike_of_vec (ha.applyTranspose alpha v beta out hv hout) hcall'
  columnSquares out out' hout hout' := by
    obtain ⟨r, hr, hsize, hvec⟩ := ha.columnSquares out hout
    obtain ⟨r', hr', hsize', hvec'⟩ := ha'.columnSquares out' hout'
    refine alike_of_vec ⟨r, hr, hsize, rfl⟩ ⟨r', hr', hsize', ?_⟩
    ext j
    rw [hvec, hvec']

theorem columnSquare?_eq_sum {J : Dense.Matrix ℝ} (hm : J.nrows = m) (hn : J.ncols = n)
    (j : Fin n) : J.columnSquare? j = some (∑ i, entries m n J i j ^ 2) := by
  have hj : (j : ℕ) < J.columns.size := hn.symm ▸ j.isLt
  unfold Dense.Matrix.columnSquare?
  split
  case isTrue hzero =>
    obtain rfl : m = 0 := hm.symm.trans hzero
    rw [Finset.univ_eq_empty, Finset.sum_empty]
  case isFalse =>
    have hsize : (J.columns[(j : ℕ)].map fun x => x * x).size = m := by
      simpa using (J.size_column _ (Array.getElem_mem hj)).trans hm
    rw [Array.getElem?_eq_getElem hj, Option.map_some, foldl_add_eq_sum hsize, zero_add]
    refine congrArg some (Finset.sum_congr rfl fun i _ => ?_)
    rw [Array.size_map] at hsize
    simp [entries_eq hn, hj, hsize, sq]

theorem computes_entries {J : Dense.Matrix ℝ} (hm : J.nrows = m) (hn : J.ncols = n) :
    Computes J (entries m n J) where
  toRealizes := realizes_linear hm hn
  columnSquares _ hout := fill_ends_vec hout fun j _ => columnSquare?_eq_sum hm hn j

end LeastSquares.Exact
