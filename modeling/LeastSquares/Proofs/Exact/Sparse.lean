import LeastSquares.Proofs.Exact.Computing
import LeastSquares.Proofs.Sparse.Layout

/-!
# Exact sparse matrices

A column of a sparse matrix lists rows with their values, each row once, and a row that it does not
list has the value zero.  Scattering a column adds its value to every row, and gathering one is a
sum over all rows.  So a sparse matrix computes the matrix of its entries, whichever of its zeros
are stored.
-/

namespace LeastSquares

/-! ## Columns -/

namespace Sparse.Matrix

theorem lookup_zip {β : Type} (keys : List ℕ) (values : List β) (k : ℕ) :
    (keys.zip values).lookup k = (keys.idxOf? k).bind (values[·]?) := by
  induction keys generalizing values with
  | nil => rfl
  | cons key keys ih =>
    cases values with
    | nil => cases (key :: keys).idxOf? k <;> rfl
    | cons value values =>
      rw [List.zip_cons_cons, List.lookup_cons, List.idxOf?_cons]
      by_cases hk : k = key
      · simp [hk]
      · have hk' : (k == key) = false := beq_false_of_ne hk
        simp [hk', Ne.symm hk, ih, Option.bind_map]

variable {α : Type} (S : Matrix α)

theorem length_columnSlice_values (col : ℕ) :
    (columnSlice S.pattern.colPtrs S.values col).length = (S.pattern.rows col).length := by
  simp [columnSlice, Pattern.rows, S.size_values, Pattern.nnz]

theorem map_fst_column (col : ℕ) : (S.column col).map Prod.fst = S.pattern.rows col :=
  List.map_fst_zip (S.length_columnSlice_values col).ge

theorem map_snd_column (col : ℕ) :
    (S.column col).map Prod.snd = columnSlice S.pattern.colPtrs S.values col :=
  List.map_snd_zip (S.length_columnSlice_values col).le

theorem nodup_column {col : ℕ} (hcol : col < S.pattern.ncols) :
    ((S.column col).map Prod.fst).Nodup := by
  rw [S.map_fst_column]
  exact (S.pattern.compressed.increasing col hcol).imp Nat.ne_of_lt

theorem get_eq_lookup [Scalar α] {col : ℕ} (hcol : col < S.pattern.ncols) (row : ℕ) :
    S.get row col = ((S.column col).lookup row).getD 0 := by
  rw [column, lookup_zip, get, Pattern.position?, if_pos hcol]
  cases hindex : (S.pattern.rows col).idxOf? row with
  | none => rfl
  | some i =>
    obtain ⟨hi, -⟩ := List.idxOf?_eq_some_iff.1 hindex
    rw [← S.length_columnSlice_values col] at hi
    have hvalue := List.getElem?_eq_getElem hi
    rw [getElem?_columnSlice] at hvalue
    split at hvalue
    case isTrue hlt => simp [getElem?_columnSlice, hlt]
    case isFalse => cases hvalue

end Sparse.Matrix

namespace Exact

open Matrix
open Sparse.Matrix (scatter)

variable {m n : ℕ}

section Entries

noncomputable def valueAt (entries : List (ℕ × ℝ)) (row : ℕ) : ℝ := (entries.lookup row).getD 0

variable {entries : List (ℕ × ℝ)}

theorem valueAt_cons (entry : ℕ × ℝ) (entries : List (ℕ × ℝ)) (row : ℕ) :
    valueAt (entry :: entries) row = if row = entry.1 then entry.2 else valueAt entries row := by
  rw [valueAt, List.lookup_cons]
  by_cases hrow : row = entry.1
  · simp [hrow]
  · have hbeq : (row == entry.1) = false := beq_false_of_ne hrow
    simp [hbeq, hrow, valueAt]

theorem valueAt_eq_zero {row : ℕ} (h : row ∉ entries.map Prod.fst) : valueAt entries row = 0 := by
  induction entries with
  | nil => rfl
  | cons entry entries ih =>
    rw [List.map_cons, List.mem_cons, not_or] at h
    rw [valueAt_cons, if_neg h.1, ih h.2]

theorem sum_valueAt {f : ℕ → ℝ → ℝ} (hf : ∀ row, f row 0 = 0)
    (hnodup : (entries.map Prod.fst).Nodup) (hlt : ∀ entry ∈ entries, entry.1 < m) :
    ∑ i : Fin m, f i (valueAt entries i) = (entries.map fun entry => f entry.1 entry.2).sum := by
  induction entries with
  | nil => simp [valueAt, hf]
  | cons entry entries ih =>
    obtain ⟨hnot, hnodup⟩ := List.nodup_cons.1 hnodup
    have hrow : entry.1 < m := hlt entry List.mem_cons_self
    have hsplit : ∀ i : Fin m, f i (valueAt (entry :: entries) i) =
        (if i = ⟨entry.1, hrow⟩ then f entry.1 entry.2 else 0) + f i (valueAt entries i) := by
      intro i
      rw [valueAt_cons]
      by_cases hi : i = ⟨entry.1, hrow⟩
      · simp [hi, valueAt_eq_zero hnot, hf]
      · have hi' : (i : ℕ) ≠ entry.1 := fun h => hi (Fin.ext h)
        simp [hi, hi']
    rw [Finset.sum_congr rfl fun i _ => hsplit i, Finset.sum_add_distrib, Finset.sum_ite_eq',
      if_pos (Finset.mem_univ _), ih hnodup fun e he => hlt e (List.mem_cons_of_mem _ he),
      List.map_cons, List.sum_cons]

theorem scatter_ends_vec {factor : ℝ} {out : Array ℝ} (hnodup : (entries.map Prod.fst).Nodup)
    (hlt : ∀ entry ∈ entries, entry.1 < m) (hout : out.size = m) :
    (scatter factor entries out).Ends fun r =>
      r.size = m ∧ ∀ i, vec m r i = vec m out i + valueAt entries i * factor := by
  induction entries generalizing out with
  | nil => exact ⟨out, rfl, hout, fun i => by simp [valueAt]⟩
  | cons entry entries ih =>
    obtain ⟨hnot, hnodup⟩ := List.nodup_cons.1 hnodup
    have hrow : entry.1 < out.size := hout ▸ hlt entry List.mem_cons_self
    have hmodify : (out.modify entry.1 (· + entry.2 * factor)).size = m := by simpa
    obtain ⟨r, hr, hsize, hvec⟩ :=
      ih hnodup (fun e he => hlt e (List.mem_cons_of_mem _ he)) hmodify
    refine ⟨r, ?_, hsize, fun i => ?_⟩
    · rw [scatter, Outcome.foldList, if_pos hrow]
      exact hr
    · rw [hvec, valueAt_cons]
      by_cases hi : (i : ℕ) = entry.1
      · have hzero : valueAt entries i = 0 := valueAt_eq_zero (hi ▸ hnot)
        simp [hi, hrow, hi ▸ hzero, Array.getElem_modify]
      · simp [hi, hout, Array.getElem_modify, Ne.symm hi]

end Entries

/-! ## Products -/

/-- The entries of a sparse matrix, stored or not. -/
noncomputable def sparseEntries (m n : ℕ) (S : Sparse.Matrix ℝ) : Matrix (Fin m) (Fin n) ℝ :=
  Matrix.of fun i j => S.get i j

section Products

variable {S : Sparse.Matrix ℝ} {v out : Array ℝ}

theorem sum_get (hm : S.pattern.nrows = m) {col : ℕ} (hcol : col < S.pattern.ncols)
    {f : ℕ → ℝ → ℝ} (hf : ∀ row, f row 0 = 0) :
    ∑ i : Fin m, f i (S.get i col) =
      ((S.column col).map fun entry => f entry.1 entry.2).sum := by
  rw [← sum_valueAt hf (S.nodup_column hcol) fun entry hentry => hm ▸ S.row_lt hcol hentry]
  exact Finset.sum_congr rfl fun i _ => by rw [S.get_eq_lookup hcol, valueAt]

theorem addColumn_ends_vec (hm : S.pattern.nrows = m) {col : ℕ} (hcol : col < S.pattern.ncols)
    (factor : ℝ) (hout : out.size = m) :
    (S.addColumn factor col out).Ends fun r =>
      r.size = m ∧ ∀ i : Fin m, vec m r i = vec m out i + S.get i col * factor := by
  rw [Sparse.Matrix.addColumn, if_pos hcol]
  split
  case isTrue hzero =>
    refine ⟨out, rfl, hout, fun i => ?_⟩
    rw [of_decide_eq_true hzero, mul_zero, add_zero]
  case isFalse =>
    simp only [S.get_eq_lookup hcol]
    exact scatter_ends_vec (S.nodup_column hcol) (fun entry hentry => hm ▸ S.row_lt hcol hentry)
      hout

theorem addColumns_ends_vec (hm : S.pattern.nrows = m) (alpha : ℝ) {columns : List (ℝ × ℕ)}
    (hcolumns : ∀ vc ∈ columns, vc.2 < S.pattern.ncols) (hout : out.size = m) :
    (Outcome.foldList (fun out vc => S.addColumn (alpha * vc.1) vc.2 out) out columns).Ends
      fun r => r.size = m ∧ ∀ i : Fin m, vec m r i =
        vec m out i + (columns.map fun vc => S.get i vc.2 * (alpha * vc.1)).sum := by
  induction columns generalizing out with
  | nil => exact ⟨out, rfl, hout, fun i => by simp⟩
  | cons vc columns ih =>
    obtain ⟨t, ht, hsize, hvec⟩ :=
      addColumn_ends_vec hm (hcolumns vc List.mem_cons_self) (alpha * vc.1) hout
    rw [Outcome.foldList, ht]
    obtain ⟨r, hr, hsize', hvec'⟩ := ih (fun e he => hcolumns e (List.mem_cons_of_mem _ he)) hsize
    refine ⟨r, hr, hsize', fun i => ?_⟩
    rw [hvec', hvec, List.map_cons, List.sum_cons, add_assoc]

theorem zipIdx_toList_eq_ofFn (hv : v.size = n) :
    v.zipIdx.toList = List.ofFn fun j : Fin n => (vec n v j, (j : ℕ)) := by
  subst hv
  apply List.ext_getElem <;> simp

theorem columnDot?_eq_sum (hm : S.pattern.nrows = m) {col : ℕ} (hcol : col < S.pattern.ncols)
    (hv : v.size = m) :
    S.columnDot? col v = some (∑ i : Fin m, S.get i col * vec m v i) := by
  have hrows : ((S.column col).all fun entry => entry.1 < v.size) = true := by
    simp only [List.all_eq_true, decide_eq_true_eq]
    exact fun entry hentry => hv.trans hm.symm ▸ S.row_lt hcol hentry
  rw [Sparse.Matrix.columnDot?, if_pos ⟨hcol, hrows⟩, ← List.foldl_map
    (f := fun entry : ℕ × ℝ => entry.2 * v.getD entry.1 0) (g := (· + ·)), ← List.sum_eq_foldl]
  exact congrArg some
    (sum_get (f := fun row x => x * v.getD row 0) hm hcol fun _ => zero_mul _).symm

theorem sparse_columnSquare?_eq_sum (hm : S.pattern.nrows = m) {col : ℕ}
    (hcol : col < S.pattern.ncols) :
    S.columnSquare? col = some (∑ i : Fin m, S.get i col ^ 2) := by
  rw [Sparse.Matrix.columnSquare?, if_pos hcol, sum_get (f := fun _ x => x ^ 2) hm hcol (by simp),
    ← S.map_snd_column, Vec.sumSquares, neg_zero]
  simp [List.sum_eq_foldl, List.foldl_map, sq]

end Products

/-- A sparse matrix computes its entries. -/
theorem computes_sparseEntries {S : Sparse.Matrix ℝ} (hm : S.pattern.nrows = m)
    (hn : S.pattern.ncols = n) : Computes S (sparseEntries m n S) where
  nrows := hm
  ncols := hn
  apply alpha v beta out hv hout := by
    have hcolumns : ∀ vc ∈ List.ofFn fun j : Fin n => (vec n v j, (j : ℕ)),
        vc.2 < S.pattern.ncols := by
      simp only [List.mem_ofFn]
      rintro _ ⟨j, rfl⟩
      exact hn.symm ▸ j.isLt
    obtain ⟨r, hr, hsize, hvec⟩ := addColumns_ends_vec hm alpha hcolumns
      ((LinearOperator.size_scaleAccumulator beta out).trans hout)
    rw [← zipIdx_toList_eq_ofFn hv] at hr
    refine ⟨r, hr, hsize, ?_⟩
    have hsum : ∀ i : Fin m, ((List.ofFn fun j : Fin n => (vec n v j, (j : ℕ))).map
        fun vc => S.get i vc.2 * (alpha * vc.1)).sum =
          alpha * ∑ j : Fin n, S.get i j * vec n v j := by
      intro i
      rw [List.map_ofFn, List.sum_ofFn, Finset.mul_sum]
      exact Finset.sum_congr rfl fun j _ => mul_left_comm _ _ _
    ext i
    rw [hvec, vec_scaleAccumulator beta hout, hsum, PiLp.add_apply, PiLp.smul_apply,
      PiLp.smul_apply, toEuclideanLin_apply_eq_sum]
    exact add_comm _ _
  applyTranspose alpha v beta out hv hout := by
    refine ⟨out.mapIdx fun j old => alpha * (∑ i : Fin m, S.get i j * vec m v i) + beta * old,
      Outcome.fill_eq_done fun j hj => ?_, by simpa, ?_⟩
    · have hcol : j < S.pattern.ncols := by omega
      rw [columnDot?_eq_sum hm hcol hv, Option.map_some, accumulate_eq]
    · ext j
      rw [PiLp.add_apply, PiLp.smul_apply, PiLp.smul_apply, adjoint_apply_eq_sum]
      simp [hout, sparseEntries]
  columnSquares _ hout := fill_ends_vec hout fun j _ =>
    sparse_columnSquare?_eq_sum hm (hn.symm ▸ j.isLt)

end Exact

end LeastSquares
