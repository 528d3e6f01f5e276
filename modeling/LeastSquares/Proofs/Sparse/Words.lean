import LeastSquares.Proofs.Overflow
import LeastSquares.Proofs.Sparse.Layout

/-!
# Validation over machine words

On a machine the sizes and the indices of a pattern are words of 64 bits.  A sum may leave the
words, and a program that reads outside of an array, or cuts a part out of it that is not there,
comes to no answer.  `validate?` is the validation of two arrays as such a program: it has no answer
where one of its sums, reads or cuts fails.  The main theorem `validate?_answers` says that none
fails as long as the number of columns is not the last word, and what happens at the last word.
-/

namespace LeastSquares.Sparse

/-! ## The program -/

/-- The part of an array between two places; nothing where the array has no such part. -/
def cut? (xs : Array UInt64) (start stop : UInt64) : Option (List UInt64) :=
  if start ≤ stop ∧ stop.toNat ≤ xs.size then some (xs.extract start.toNat stop.toNat).toList
  else none

def values (xs : Array UInt64) : Array Nat := xs.map UInt64.toNat

def firstDecrease? : Nat → List UInt64 → Option PatternError
  | col, prev :: next :: rest =>
    if next < prev then some (.decreasingPointers col prev.toNat next.toNat)
    else firstDecrease? (col + 1) (next :: rest)
  | _, _ => none

def rowsViolation? (overflow : Overflow) (nrows : UInt64) (colPtrs rowIndices : Array UInt64) :
    List UInt64 → Option (Option PatternError)
  | [] => some none
  | col :: rest => do
    let start ← colPtrs[col.toNat]?
    let next ← overflow.succ? col
    let stop ← colPtrs[next.toNat]?
    let rows ← cut? rowIndices start stop
    match columnViolation? nrows.toNat col.toNat (rows.map UInt64.toNat) with
    | some e => return some e
    | none => rowsViolation? overflow nrows colPtrs rowIndices rest

/-- The first requirement of the layout that two arrays of words miss. -/
def validate? (overflow : Overflow) (nrows ncols : UInt64) (colPtrs rowIndices : Array UInt64) :
    Option (Option PatternError) := do
  let count ← overflow.succ? ncols
  if colPtrs.size ≠ count.toNat then return some (.pointerCount count.toNat colPtrs.size)
  let first ← colPtrs[0]?
  if first ≠ 0 then return some (.firstPointer first.toNat)
  match firstDecrease? 0 colPtrs.toList with
  | some e => return some e
  | none =>
    let last ← colPtrs[ncols.toNat]?
    if last.toNat ≠ rowIndices.size then return some (.lastPointer last.toNat rowIndices.size)
    rowsViolation? overflow nrows colPtrs rowIndices
      ((List.range ncols.toNat).map UInt64.ofNat)

/-! ## Words and their values -/

variable {overflow : Overflow} {nrows ncols : UInt64} {colPtrs rowIndices : Array UInt64}

theorem toNat_succ {w : UInt64} (h : w.toNat + 1 < UInt64.size) : (w + 1).toNat = w.toNat + 1 :=
  (UInt64.toNat_add w 1).trans (Nat.mod_eq_of_lt h)

theorem succ?_of_lt {w : UInt64} (h : w.toNat + 1 < UInt64.size) :
    overflow.succ? w = some (w + 1) := by
  cases overflow with
  | traps => exact if_pos h
  | wraps => rfl

theorem size_values (xs : Array UInt64) : (values xs).size = xs.size := Array.size_map

theorem pointer_values (col : Nat) : pointer (values colPtrs) col = (colPtrs.getD col 0).toNat := by
  by_cases h : col < colPtrs.size <;> simp [pointer, values, h]

theorem columnSlice_values (col : Nat) :
    columnSlice (values colPtrs) (values rowIndices) col =
      (rowIndices.extract (colPtrs.getD col 0).toNat (colPtrs.getD (col + 1) 0).toNat).toList.map
        UInt64.toNat := by
  rw [columnSlice, pointer_values, pointer_values, values, ← Array.map_extract, Array.toList_map]

theorem firstDecrease?_eq (col : Nat) (ps : List UInt64) :
    firstDecrease? col ps =
      ((List.range (ps.length - 1)).find? fun c => (ps.getD (c + 1) 0).toNat < (ps.getD c 0).toNat).map
        fun c => .decreasingPointers (col + c) (ps.getD c 0).toNat (ps.getD (c + 1) 0).toNat := by
  induction ps generalizing col with
  | nil => rfl
  | cons prev ps ih =>
    cases ps with
    | nil => rfl
    | cons next rest =>
      have hrange : List.range ((prev :: next :: rest).length - 1) =
          0 :: (List.range ((next :: rest).length - 1)).map Nat.succ := List.range_succ_eq_map
      rw [firstDecrease?, ih, hrange, List.find?_cons]
      by_cases h : next < prev
      · simp [h, UInt64.lt_iff_toNat_lt.1 h]
      · have h' : ¬ next.toNat < prev.toNat := fun hlt => h (UInt64.lt_iff_toNat_lt.2 hlt)
        simp [h, h', List.find?_map, Function.comp_def, Nat.add_assoc, Nat.add_comm 1]

/-! ## Reads and cuts -/

theorem getElem?_of_le (count : colPtrs.size = ncols.toNat + 1) {col : Nat}
    (h : col ≤ ncols.toNat) : colPtrs[col]? = some (colPtrs.getD col 0) := by
  simp [show col < colPtrs.size by omega]

section Cuts

variable
  (ordered : ∀ col < ncols.toNat,
    pointer (values colPtrs) col ≤ pointer (values colPtrs) (col + 1))
  (last : pointer (values colPtrs) ncols.toNat = rowIndices.size)

include ordered last

theorem cut?_eq {col : Nat} (h : col < ncols.toNat) :
    ∃ rows, cut? rowIndices (colPtrs.getD col 0) (colPtrs.getD (col + 1) 0) = some rows ∧
      rows.map UInt64.toNat = columnSlice (values colPtrs) (values rowIndices) col := by
  have hle := ordered col h
  have hlast := (pointer_le_pointer ordered h).trans_eq last
  rw [pointer_values] at hle hlast
  rw [pointer_values] at hle
  exact ⟨_, if_pos ⟨UInt64.le_iff_toNat_le.2 hle, hlast⟩, (columnSlice_values col).symm⟩

theorem rowsViolation?_eq (count : colPtrs.size = ncols.toNat + 1) {cols : List UInt64}
    (hcols : ∀ col ∈ cols, col.toNat < ncols.toNat) :
    rowsViolation? overflow nrows colPtrs rowIndices cols =
      some ((cols.map UInt64.toNat).findSome? fun col =>
        columnViolation? nrows.toNat col (columnSlice (values colPtrs) (values rowIndices) col)) := by
  induction cols with
  | nil => rfl
  | cons col rest ih =>
    have hcol : col.toNat < ncols.toNat := hcols col List.mem_cons_self
    have hnext : col.toNat + 1 < UInt64.size :=
      (Nat.succ_le_of_lt hcol).trans_lt ncols.toNat_lt_size
    obtain ⟨rows, hcut, hrows⟩ := cut?_eq ordered last hcol
    have hrest := ih fun c hc => hcols c (List.mem_cons_of_mem col hc)
    simp only [rowsViolation?, Option.bind_eq_bind, getElem?_of_le count hcol.le,
      succ?_of_lt hnext, toNat_succ hnext, getElem?_of_le count hcol, hcut, hrows, hrest,
      Option.bind_some, Option.pure_def, List.map_cons, List.findSome?_cons]
    cases columnViolation? nrows.toNat col.toNat
      (columnSlice (values colPtrs) (values rowIndices) col.toNat) <;> rfl

end Cuts

theorem map_toNat_range (w : UInt64) :
    ((List.range w.toNat).map UInt64.ofNat).map UInt64.toNat = List.range w.toNat := by
  rw [List.map_map, List.map_congr_left (g := id) fun c hc => ?_, List.map_id]
  exact UInt64.toNat_ofNat_of_lt ((List.mem_range.1 hc).trans w.toNat_lt_size)

/-! ## The validation -/

theorem firstDecrease?_toList (count : colPtrs.size = ncols.toNat + 1) :
    firstDecrease? 0 colPtrs.toList =
      ((List.range ncols.toNat).find? fun c =>
        pointer (values colPtrs) (c + 1) < pointer (values colPtrs) c).map fun c =>
          .decreasingPointers c (pointer (values colPtrs) c) (pointer (values colPtrs) (c + 1)) := by
  simp only [firstDecrease?_eq, pointer_values, Array.length_toList, count, Nat.add_sub_cancel,
    Nat.zero_add]
  simp

/-- The answer to two arrays of words is the one to their values. -/
theorem validate?_eq (h : ncols.toNat + 1 < UInt64.size) :
    validate? overflow nrows ncols colPtrs rowIndices =
      some (violation? nrows.toNat ncols.toNat (values colPtrs) (values rowIndices)) := by
  unfold validate? violation?
  simp only [succ?_of_lt h, toNat_succ h, Option.bind_eq_bind, Option.bind_some,
    size_values]
  by_cases count : colPtrs.size = ncols.toNat + 1
  case neg =>
    rw [if_pos count, if_pos count]
    rfl
  rw [if_neg (not_not_intro count), if_neg (not_not_intro count)]
  simp only [Option.bind_some, getElem?_of_le count (Nat.zero_le _), firstDecrease?_toList count]
  by_cases first : colPtrs.getD 0 0 = 0
  case neg =>
    have hfirst : pointer (values colPtrs) 0 ≠ 0 := by
      rw [pointer_values]
      exact fun hzero => first (UInt64.toNat_inj.1 hzero)
    rw [if_pos first, if_pos hfirst, pointer_values]
    rfl
  have hfirst : pointer (values colPtrs) 0 = 0 := by rw [pointer_values, first, UInt64.toNat_zero]
  rw [if_neg (not_not_intro first), if_neg (not_not_intro hfirst)]
  cases hfind : (List.range ncols.toNat).find? fun c =>
      pointer (values colPtrs) (c + 1) < pointer (values colPtrs) c with
  | some c => rfl
  | none =>
    simp only [Option.map_none, getElem?_of_le count le_rfl, Option.bind_some, ← pointer_values]
    by_cases last : pointer (values colPtrs) ncols.toNat = rowIndices.size
    case neg =>
      rw [if_pos last, if_pos last]
      rfl
    -- The three requirements on the pointers hold here, so every column can be cut out.
    have ordered : ∀ c < ncols.toNat,
        pointer (values colPtrs) c ≤ pointer (values colPtrs) (c + 1) := fun c hc => by
      simpa using List.find?_eq_none.1 hfind c (List.mem_range.2 hc)
    have hcols : ∀ col ∈ (List.range ncols.toNat).map UInt64.ofNat, col.toNat < ncols.toNat := by
      intro col hcol
      have hvalue := List.mem_map_of_mem (f := UInt64.toNat) hcol
      rw [map_toNat_range] at hvalue
      exact List.mem_range.1 hvalue
    rw [if_neg (not_not_intro last), if_neg (not_not_intro last),
      rowsViolation?_eq ordered last count hcols, map_toNat_range]

def error? : Except PatternError Pattern → Option PatternError
  | .error e => some e
  | .ok _ => none

theorem error?_check (nrows ncols : Nat) (colPtrs rowIndices : Array Nat) :
    error? (Pattern.check nrows ncols colPtrs rowIndices) =
      violation? nrows ncols colPtrs rowIndices := by
  unfold Pattern.check
  split
  · rename_i e h
    exact h.symm
  · rename_i h
    exact h.symm

/-- Two arrays of words get the result of their values, and no sum, read or cut fails on the way, as
long as the number of columns is not the last word.  At the last word the number of pointers is no
word: there is no answer where the sum traps, and where it wraps there is none for an array without
pointers, while all others are told that they should have none. -/
theorem validate?_answers (nrows ncols : UInt64) (colPtrs rowIndices : Array UInt64) :
    (ncols.toNat < 2 ^ 64 - 1 → ∀ overflow, ∃ result,
      Pattern.ofArrays? nrows.toNat ncols.toNat (values colPtrs) (values rowIndices) =
        some result ∧
      validate? overflow nrows ncols colPtrs rowIndices = some (error? result)) ∧
    (ncols.toNat = 2 ^ 64 - 1 →
      validate? .traps nrows ncols colPtrs rowIndices = none ∧
      validate? .wraps nrows ncols colPtrs rowIndices =
        if colPtrs.size = 0 then none else some (some (.pointerCount 0 colPtrs.size))) := by
  constructor
  · intro h overflow
    have hcountable : Pattern.countable ncols.toNat = true := by
      simp only [Pattern.countable, Nat.pow_eq, decide_eq_true_eq]
      omega
    refine ⟨_, if_pos hcountable, ?_⟩
    rw [validate?_eq (by simp only [UInt64.size]; omega), error?_check]
  · intro h
    have hnext : ncols + 1 = 0 := by
      rw [← UInt64.toNat_inj, UInt64.toNat_add, h]
      rfl
    constructor
    · have htrap : ¬ ncols.toNat + 1 < UInt64.size := by rw [h]; decide
      simp only [validate?, Overflow.succ?, if_neg htrap, Option.bind_eq_bind, Option.bind_none]
    · simp only [validate?, Overflow.succ?, hnext, Option.bind_eq_bind, Option.bind_some,
        UInt64.toNat_zero]
      by_cases hsize : colPtrs.size = 0
      · have hread : colPtrs[0]? = none := Array.getElem?_eq_none hsize.le
        rw [if_neg (not_not_intro hsize), if_pos hsize, hread]
        rfl
      · rw [if_pos hsize, if_neg hsize]
        rfl

/-- With as many rows as there are words the last word is the only row out of range. -/
theorem validate?_answers_last_row :
    (2 : UInt64).toNat < 2 ^ 64 - 1 ∧
      validate? .wraps (.ofNat (2 ^ 64 - 1)) 2 #[0, 1, 2] #[0, .ofNat (2 ^ 64 - 1)] =
        some (some (.rowOutOfRange 1 (2 ^ 64 - 1) (2 ^ 64 - 1))) := by
  obtain ⟨result, hresult, hvalidate⟩ :=
    (validate?_answers (.ofNat (2 ^ 64 - 1)) 2 #[0, 1, 2] #[0, .ofNat (2 ^ 64 - 1)]).1
      (by decide) .wraps
  have hpointers : values #[0, 1, 2] = #[0, 1, 2] := by simp [values]
  have hrows : values #[0, .ofNat (2 ^ 64 - 1)] = #[0, 2 ^ 64 - 1] := by simp [values]
  rw [hpointers, hrows] at hresult
  have hviolation : Pattern.ofArrays? (2 ^ 64 - 1) 2 #[0, 1, 2] #[0, 2 ^ 64 - 1] =
      some (.error (.rowOutOfRange 1 (2 ^ 64 - 1) (2 ^ 64 - 1))) := rfl
  cases hresult.symm.trans hviolation
  exact ⟨by decide, hvalidate⟩

/-- No pointers for as many columns as there are words: on no machine does the validation answer. -/
theorem validate?_no_pointers :
    validate? .traps 1 (.ofNat (2 ^ 64 - 1)) #[] #[] = none ∧
      validate? .wraps 1 (.ofNat (2 ^ 64 - 1)) #[] #[] = none ∧
      Pattern.ofArrays? 1 (2 ^ 64 - 1) #[] #[] = none :=
  ⟨by decide, by decide, by decide⟩

end LeastSquares.Sparse
