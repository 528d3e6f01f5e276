import Mathlib
import LeastSquares.Sparse.Pattern

/-!
# The accepted layouts, index by index

A layout in compressed columns is stated here on the two arrays alone: which place of the row
indices belongs to which column (`Stores`), how the pointers have to lie (`PointersFit`), and what
the rows of a column have to satisfy.  `FirstViolation` says which of the requirements is the first
that two arrays miss, and at which of their indices.  The main theorem `ofArrays?_exact` says that
arrays are accepted exactly where they are a layout, and that the error of all others is the first
violation.
-/

namespace LeastSquares.Sparse

variable {nrows ncols : Nat} {colPtrs rowIndices : Array Nat}

section Requirements

variable (colPtrs rowIndices : Array Nat)

/-- Place `k` of the row indices lies in the column and holds the row. -/
def Stores (col k row : Nat) : Prop :=
  ∃ start stop, colPtrs[col]? = some start ∧ colPtrs[col + 1]? = some stop ∧
    start ≤ k ∧ k < stop ∧ rowIndices[k]? = some row

def RowsBelow (nrows col : Nat) : Prop :=
  ∀ k row, Stores colPtrs rowIndices col k row → row < nrows

def RowsIncrease (col : Nat) : Prop :=
  ∀ j k prev next, j < k → Stores colPtrs rowIndices col j prev →
    Stores colPtrs rowIndices col k next → prev < next

def PointersOrdered (bound : Nat) : Prop :=
  ∀ col < bound, ∀ prev next, colPtrs[col]? = some prev → colPtrs[col + 1]? = some next →
    prev ≤ next

structure PointersFit (ncols : Nat) : Prop where
  count : colPtrs.size = ncols + 1
  first : colPtrs[0]? = some 0
  ordered : PointersOrdered colPtrs ncols
  last : colPtrs[ncols]? = some rowIndices.size

structure IsLayout (nrows ncols : Nat) : Prop extends PointersFit colPtrs rowIndices ncols where
  below : ∀ col < ncols, RowsBelow colPtrs rowIndices nrows col
  increase : ∀ col < ncols, RowsIncrease colPtrs rowIndices col

/-- The first thing wrong with the rows of a column: a row out of range comes before any two
neighbours that do not increase. -/
inductive FirstRowViolation (nrows col : Nat) : PatternError → Prop
  | outOfRange {k row : Nat} (stored : Stores colPtrs rowIndices col k row) (out : nrows ≤ row)
      (before : ∀ j < k, ∀ r, Stores colPtrs rowIndices col j r → r < nrows) :
      FirstRowViolation nrows col (.rowOutOfRange col row nrows)
  | notIncreasing {k prev next : Nat} (below : RowsBelow colPtrs rowIndices nrows col)
      (hprev : Stores colPtrs rowIndices col k prev)
      (hnext : Stores colPtrs rowIndices col (k + 1) next) (descends : next ≤ prev)
      (before : ∀ j < k, ∀ a b, Stores colPtrs rowIndices col j a →
        Stores colPtrs rowIndices col (j + 1) b → a < b) :
      FirstRowViolation nrows col (.rowsNotIncreasing col prev next)

/-- The first requirement that two arrays miss, at the lowest place where they miss it. -/
inductive FirstViolation (nrows ncols : Nat) : PatternError → Prop
  | count (wrong : colPtrs.size ≠ ncols + 1) :
      FirstViolation nrows ncols (.pointerCount (ncols + 1) colPtrs.size)
  | first {value : Nat} (count : colPtrs.size = ncols + 1) (start : colPtrs[0]? = some value)
      (wrong : value ≠ 0) : FirstViolation nrows ncols (.firstPointer value)
  | decreasing {col prev next : Nat} (count : colPtrs.size = ncols + 1)
      (first : colPtrs[0]? = some 0) (hprev : colPtrs[col]? = some prev)
      (hnext : colPtrs[col + 1]? = some next) (wrong : next < prev)
      (before : PointersOrdered colPtrs col) :
      FirstViolation nrows ncols (.decreasingPointers col prev next)
  | last {stop : Nat} (count : colPtrs.size = ncols + 1) (first : colPtrs[0]? = some 0)
      (ordered : PointersOrdered colPtrs ncols) (hlast : colPtrs[ncols]? = some stop)
      (wrong : stop ≠ rowIndices.size) :
      FirstViolation nrows ncols (.lastPointer stop rowIndices.size)
  | rows {col : Nat} {e : PatternError} (fit : PointersFit colPtrs rowIndices ncols)
      (hcol : col < ncols)
      (before : ∀ c < col,
        RowsBelow colPtrs rowIndices nrows c ∧ RowsIncrease colPtrs rowIndices c)
      (wrong : FirstRowViolation colPtrs rowIndices nrows col e) : FirstViolation nrows ncols e

end Requirements

theorem getElem?_eq_pointer {col : Nat} (h : col < colPtrs.size) :
    colPtrs[col]? = some (pointer colPtrs col) := by
  simp [pointer, h]

theorem pointer_of_getElem? {col value : Nat} (h : colPtrs[col]? = some value) :
    pointer colPtrs col = value := by
  simp [pointer, h]

theorem getElem?_columnSlice {β : Type} (xs : Array β) (col i : Nat) :
    (columnSlice colPtrs xs col)[i]? =
      if pointer colPtrs col + i < pointer colPtrs (col + 1) then xs[pointer colPtrs col + i]?
      else none := by
  simp only [columnSlice, Array.getElem?_toList, Array.getElem?_extract]
  by_cases hi : pointer colPtrs col + i < xs.size
  · refine if_congr ?_ rfl rfl
    omega
  · rw [Array.getElem?_eq_none (by omega : xs.size ≤ pointer colPtrs col + i)]
    simp

theorem stores_iff {col : Nat} (hcol : col + 1 < colPtrs.size) (k row : Nat) :
    Stores colPtrs rowIndices col k row ↔
      pointer colPtrs col ≤ k ∧
        (columnSlice colPtrs rowIndices col)[k - pointer colPtrs col]? = some row := by
  rw [getElem?_columnSlice]
  constructor
  · rintro ⟨start, stop, hstart, hstop, hle, hlt, hrow⟩
    rw [getElem?_eq_pointer (by omega), Option.some_inj] at hstart hstop
    subst hstart hstop
    refine ⟨hle, ?_⟩
    rw [Nat.add_sub_cancel' hle, if_pos hlt, hrow]
  · rintro ⟨hle, hrow⟩
    rw [Nat.add_sub_cancel' hle] at hrow
    split at hrow
    case isTrue hlt =>
      exact ⟨_, _, getElem?_eq_pointer (by omega), getElem?_eq_pointer hcol, hle, hlt, hrow⟩
    case isFalse => cases hrow

theorem stores_add_iff {col : Nat} (hcol : col + 1 < colPtrs.size) (i row : Nat) :
    Stores colPtrs rowIndices col (pointer colPtrs col + i) row ↔
      (columnSlice colPtrs rowIndices col)[i]? = some row := by
  rw [stores_iff hcol, Nat.add_sub_cancel_left]
  exact and_iff_right (Nat.le_add_right _ _)

theorem Stores.exists_add {col k row : Nat} (hcol : col + 1 < colPtrs.size)
    (h : Stores colPtrs rowIndices col k row) :
    ∃ i, k = pointer colPtrs col + i ∧
      (columnSlice colPtrs rowIndices col)[i]? = some row := by
  obtain ⟨hle, hrow⟩ := (stores_iff hcol k row).1 h
  exact ⟨k - pointer colPtrs col, by omega, hrow⟩

theorem Stores.unique {col k row row' : Nat} (h : Stores colPtrs rowIndices col k row)
    (h' : Stores colPtrs rowIndices col k row') : row = row' := by
  obtain ⟨-, -, -, -, -, -, hrow⟩ := h
  obtain ⟨-, -, -, -, -, -, hrow'⟩ := h'
  exact Option.some_inj.1 (hrow.symm.trans hrow')

theorem rowsBelow_iff {col : Nat} (hcol : col + 1 < colPtrs.size) :
    RowsBelow colPtrs rowIndices nrows col ↔
      ∀ row ∈ columnSlice colPtrs rowIndices col, row < nrows := by
  constructor
  · intro h row hrow
    obtain ⟨i, hi⟩ := List.getElem?_of_mem hrow
    exact h _ row ((stores_add_iff hcol i row).2 hi)
  · intro h k row hrow
    obtain ⟨i, -, hi⟩ := hrow.exists_add hcol
    exact h row (List.mem_of_getElem? hi)

theorem rowsIncrease_iff {col : Nat} (hcol : col + 1 < colPtrs.size) :
    RowsIncrease colPtrs rowIndices col ↔
      (columnSlice colPtrs rowIndices col).Pairwise (· < ·) := by
  rw [List.pairwise_iff_getElem]
  constructor
  · intro h i j hi hj hij
    exact h _ _ _ _ (Nat.add_lt_add_left hij _)
      ((stores_add_iff hcol i _).2 (List.getElem?_eq_getElem hi))
      ((stores_add_iff hcol j _).2 (List.getElem?_eq_getElem hj))
  · intro h j k prev next hjk hprev hnext
    obtain ⟨i, rfl, hi⟩ := hprev.exists_add hcol
    obtain ⟨i', rfl, hi'⟩ := hnext.exists_add hcol
    obtain ⟨hlt, rfl⟩ := List.getElem?_eq_some_iff.1 hi
    obtain ⟨hlt', rfl⟩ := List.getElem?_eq_some_iff.1 hi'
    exact h i i' hlt hlt' (by omega)

/-- The first descent of a list is its lowest pair of neighbours that do not increase. -/
theorem firstDescent?_eq_some_iff (rows : List Nat) (prev next : Nat) :
    firstDescent? rows = some (prev, next) ↔
      ∃ i, rows[i]? = some prev ∧ rows[i + 1]? = some next ∧ next ≤ prev ∧
        ∀ j < i, ∀ a b, rows[j]? = some a → rows[j + 1]? = some b → a < b := by
  induction rows with
  | nil => simp [firstDescent?]
  | cons a rest ih =>
    cases rest with
    | nil => simp [firstDescent?]
    | cons b rest =>
      rw [firstDescent?]
      split
      case isTrue hba =>
        constructor
        · intro h
          cases h
          exact ⟨0, rfl, rfl, hba, fun j hj => absurd hj (Nat.not_lt_zero j)⟩
        · rintro ⟨i, hprev, hnext, -, before⟩
          cases i with
          | zero =>
            cases hprev
            cases hnext
            rfl
          | succ i => exact absurd (before 0 i.succ_pos a b rfl rfl) (Nat.not_lt.2 hba)
      case isFalse hba =>
        rw [ih]
        constructor
        · rintro ⟨i, hprev, hnext, hle, before⟩
          refine ⟨i + 1, hprev, hnext, hle, fun j hj => ?_⟩
          cases j with
          | zero =>
            rintro x y ⟨⟩ ⟨⟩
            exact Nat.not_le.1 hba
          | succ j => exact before j (by omega)
        · rintro ⟨i, hprev, hnext, hle, before⟩
          cases i with
          | zero =>
            cases hprev
            cases hnext
            exact absurd hle hba
          | succ i =>
            exact ⟨i, hprev, hnext, hle, fun j hj => before (j + 1) (by omega)⟩

/-- The check of a column finds the first thing wrong with its rows. -/
theorem columnViolation?_eq_some_iff {col : Nat} (hcol : col + 1 < colPtrs.size)
    (e : PatternError) :
    columnViolation? nrows col (columnSlice colPtrs rowIndices col) = some e ↔
      FirstRowViolation colPtrs rowIndices nrows col e := by
  unfold columnViolation?
  constructor
  · intro h
    split at h
    case h_1 row hfind =>
      cases h
      obtain ⟨hout, i, hi, hrow, before⟩ := List.find?_eq_some_iff_getElem.1 hfind
      have stored : Stores colPtrs rowIndices col (pointer colPtrs col + i) row :=
        (stores_add_iff hcol i row).2 (List.getElem?_eq_some_iff.2 ⟨hi, hrow⟩)
      refine .outOfRange stored (by simpa using hout) fun j hj r hr => ?_
      obtain ⟨i', rfl, hi'⟩ := hr.exists_add hcol
      obtain ⟨-, rfl⟩ := List.getElem?_eq_some_iff.1 hi'
      simpa using before i' (by omega)
    case h_2 hfind =>
      have below : RowsBelow colPtrs rowIndices nrows col := by
        rw [rowsBelow_iff hcol]
        intro row hrow
        simpa using List.find?_eq_none.1 hfind row hrow
      obtain ⟨⟨prev, next⟩, hdescent, rfl⟩ := Option.map_eq_some_iff.1 h
      obtain ⟨i, hprev, hnext, hle, before⟩ := (firstDescent?_eq_some_iff _ prev next).1 hdescent
      refine .notIncreasing below ((stores_add_iff hcol i prev).2 hprev)
        ((stores_add_iff hcol (i + 1) next).2 hnext) hle fun j hj a b ha hb => ?_
      obtain ⟨i', rfl, hi'⟩ := ha.exists_add hcol
      exact before i' (by omega) a b hi' ((stores_add_iff hcol (i' + 1) b).1 hb)
  · intro h
    cases h with
    | @outOfRange k row stored out before =>
      obtain ⟨i, rfl, hrow⟩ := stored.exists_add hcol
      obtain ⟨hi, hrow⟩ := List.getElem?_eq_some_iff.1 hrow
      have hfind : (columnSlice colPtrs rowIndices col).find? (nrows ≤ ·) = some row := by
        refine List.find?_eq_some_iff_getElem.2 ⟨by simpa using out, i, hi, hrow, fun j hj => ?_⟩
        have := before _ (Nat.add_lt_add_left hj _) _
          ((stores_add_iff hcol j _).2 (List.getElem?_eq_getElem (by omega)))
        simpa using this
      rw [hfind]
    | @notIncreasing k prev next below hprev hnext descends before =>
      have hfind : (columnSlice colPtrs rowIndices col).find? (nrows ≤ ·) = none := by
        refine List.find?_eq_none.2 fun row hrow => ?_
        simpa using (rowsBelow_iff hcol).1 below row hrow
      obtain ⟨i, rfl, hi⟩ := hprev.exists_add hcol
      have hdescent : firstDescent? (columnSlice colPtrs rowIndices col) = some (prev, next) :=
        (firstDescent?_eq_some_iff _ prev next).2
          ⟨i, hi, (stores_add_iff hcol (i + 1) next).1 hnext, descends,
            fun j hj a b ha hb => before _ (Nat.add_lt_add_left hj _) a b
              ((stores_add_iff hcol j a).2 ha) ((stores_add_iff hcol (j + 1) b).2 hb)⟩
      simp [hfind, hdescent]

theorem findSome?_range_eq_some_iff {β : Type} {f : Nat → Option β} {n : Nat} {b : β} :
    (List.range n).findSome? f = some b ↔ ∃ c < n, f c = some b ∧ ∀ j < c, f j = none := by
  induction n with
  | zero => simp
  | succ n ih =>
    rw [List.range_succ, List.findSome?_append, List.findSome?_singleton, Option.or_eq_some_iff,
      ih, List.findSome?_eq_none_iff]
    constructor
    · rintro (⟨c, hc, found, before⟩ | ⟨before, found⟩)
      · exact ⟨c, by omega, found, before⟩
      · exact ⟨n, by omega, found, fun j hj => before j (List.mem_range.2 hj)⟩
    · rintro ⟨c, hc, found, before⟩
      rcases Nat.lt_or_ge c n with hlt | hge
      · exact .inl ⟨c, hlt, found, before⟩
      · have : c = n := by omega
        subst this
        exact .inr ⟨fun j hj => before j (List.mem_range.1 hj), found⟩

theorem pointersOrdered_iff {bound : Nat} (h : bound < colPtrs.size) :
    PointersOrdered colPtrs bound ↔
      ∀ col < bound, pointer colPtrs col ≤ pointer colPtrs (col + 1) := by
  constructor
  · intro ordered col hcol
    exact ordered col hcol _ _ (getElem?_eq_pointer (by omega)) (getElem?_eq_pointer (by omega))
  · intro ordered col hcol prev next hprev hnext
    rw [getElem?_eq_pointer (by omega), Option.some_inj] at hprev hnext
    subst hprev hnext
    exact ordered col hcol

theorem pointer_le_pointer {bound col : Nat}
    (ordered : ∀ c < bound, pointer colPtrs c ≤ pointer colPtrs (c + 1)) (h : col ≤ bound) :
    pointer colPtrs col ≤ pointer colPtrs bound := by
  induction h using Nat.decreasingInduction with
  | of_succ c hc ih => exact (ordered c hc).trans ih
  | self => exact le_rfl

theorem isLayout_iff :
    IsLayout colPtrs rowIndices nrows ncols ↔ IsCompressed nrows ncols colPtrs rowIndices := by
  constructor
  · intro h
    have hsize := h.count
    have first := h.first
    have last := h.last
    rw [getElem?_eq_pointer (by omega), Option.some_inj] at first last
    exact ⟨hsize, first, (pointersOrdered_iff (by omega)).1 h.ordered, last,
      fun col hcol => (rowsBelow_iff (by omega)).1 (h.below col hcol),
      fun col hcol => (rowsIncrease_iff (by omega)).1 (h.increase col hcol)⟩
  · intro h
    have hsize := h.count
    refine ⟨⟨hsize, ?_, (pointersOrdered_iff (by omega)).2 h.monotone, ?_⟩,
      fun col hcol => (rowsBelow_iff (by omega)).2 (h.rows_lt col hcol),
      fun col hcol => (rowsIncrease_iff (by omega)).2 (h.increasing col hcol)⟩
    · rw [getElem?_eq_pointer (by omega), h.first]
    · rw [getElem?_eq_pointer (by omega), h.last]

theorem columnViolation?_columnSlice_eq_none_iff {col : Nat} (hcol : col + 1 < colPtrs.size) :
    columnViolation? nrows col (columnSlice colPtrs rowIndices col) = none ↔
      RowsBelow colPtrs rowIndices nrows col ∧ RowsIncrease colPtrs rowIndices col := by
  rw [columnViolation?_eq_none_iff, rowsBelow_iff hcol, rowsIncrease_iff hcol]

theorem find?_descending_eq_none_iff {bound : Nat} (h : bound < colPtrs.size) :
    ((List.range bound).find? fun c => pointer colPtrs (c + 1) < pointer colPtrs c) = none ↔
      PointersOrdered colPtrs bound := by
  rw [pointersOrdered_iff h, List.find?_range_eq_none]
  simp

/-- What the check finds is the first violation. -/
theorem firstViolation_of_violation? {e : PatternError}
    (h : violation? nrows ncols colPtrs rowIndices = some e) :
    FirstViolation colPtrs rowIndices nrows ncols e := by
  unfold violation? at h
  split at h
  · cases h
    exact .count ‹_›
  rename_i count
  have count : colPtrs.size = ncols + 1 := Decidable.not_not.1 count
  have start : colPtrs[0]? = some (pointer colPtrs 0) := getElem?_eq_pointer (by omega)
  split at h
  · cases h
    exact .first count start ‹_›
  rename_i first
  have first : colPtrs[0]? = some 0 := by rw [start, Decidable.not_not.1 first]
  split at h
  · rename_i col hfind
    cases h
    obtain ⟨wrong, hcol, before⟩ := List.find?_range_eq_some.1 hfind
    have hcol := List.mem_range.1 hcol
    refine .decreasing count first (getElem?_eq_pointer (by omega))
      (getElem?_eq_pointer (by omega)) (by simpa using wrong) ?_
    exact (pointersOrdered_iff (by omega)).2 fun c hc => by simpa using before c hc
  rename_i hfind
  have ordered := (find?_descending_eq_none_iff (by omega)).1 hfind
  have hlast : colPtrs[ncols]? = some (pointer colPtrs ncols) := getElem?_eq_pointer (by omega)
  split at h
  · cases h
    exact .last count first ordered hlast ‹_›
  rename_i last
  obtain ⟨col, hcol, found, before⟩ := findSome?_range_eq_some_iff.1 h
  refine .rows ⟨count, first, ordered, by rw [hlast, Decidable.not_not.1 last]⟩ hcol
    (fun c hc => ?_) ((columnViolation?_eq_some_iff (by omega) e).1 found)
  exact (columnViolation?_columnSlice_eq_none_iff (by omega)).1 (before c hc)

/-- The first violation is what the check finds. -/
theorem FirstViolation.violation?_eq {e : PatternError}
    (h : FirstViolation colPtrs rowIndices nrows ncols e) :
    violation? nrows ncols colPtrs rowIndices = some e := by
  unfold violation?
  cases h with
  | count wrong => rw [if_pos wrong]
  | @first value count start wrong =>
    have hstart : pointer colPtrs 0 = value := pointer_of_getElem? start
    rw [if_neg (not_not_intro count), hstart, if_pos wrong]
  | @decreasing col prev next count first hprev hnext wrong before =>
    have hnext_lt : col + 1 < colPtrs.size := (Array.getElem?_eq_some_iff.1 hnext).1
    have hfind : ((List.range ncols).find?
        fun c => pointer colPtrs (c + 1) < pointer colPtrs c) = some col := by
      rw [List.find?_range_eq_some, pointer_of_getElem? hprev, pointer_of_getElem? hnext]
      refine ⟨by simpa using wrong, List.mem_range.2 (by omega), fun c hc => ?_⟩
      simpa using (pointersOrdered_iff (by omega)).1 before c hc
    rw [if_neg (not_not_intro count), pointer_of_getElem? first, if_neg (not_not_intro rfl),
      hfind]
    simp only [pointer_of_getElem? hprev, pointer_of_getElem? hnext]
  | @last stop count first ordered hlast wrong =>
    have hfind := (find?_descending_eq_none_iff (by omega)).2 ordered
    rw [if_neg (not_not_intro count), pointer_of_getElem? first, if_neg (not_not_intro rfl),
      hfind]
    simp only [pointer_of_getElem? hlast, if_pos wrong]
  | @rows col _ fit hcol before wrong =>
    have count := fit.count
    have hfind := (find?_descending_eq_none_iff (by omega)).2 fit.ordered
    rw [if_neg (not_not_intro count), pointer_of_getElem? fit.first, if_neg (not_not_intro rfl),
      hfind]
    simp only [pointer_of_getElem? fit.last, ne_eq, not_true_eq_false, if_false]
    refine findSome?_range_eq_some_iff.2
      ⟨col, hcol, (columnViolation?_eq_some_iff (by omega) e).2 wrong, fun c hc => ?_⟩
    exact (columnViolation?_columnSlice_eq_none_iff (by omega)).2 (before c hc)

namespace Pattern

theorem check_eq_ok {p : Pattern} (h : check nrows ncols colPtrs rowIndices = .ok p) :
    IsCompressed nrows ncols colPtrs rowIndices ∧ p.nrows = nrows ∧ p.ncols = ncols ∧
      p.colPtrs = colPtrs ∧ p.rowIndices = rowIndices := by
  unfold check at h
  split at h
  · cases h
  · cases h
    exact ⟨(violation?_eq_none_iff ..).1 ‹_›, rfl, rfl, rfl, rfl⟩

theorem check_of_isCompressed (h : IsCompressed nrows ncols colPtrs rowIndices) :
    check nrows ncols colPtrs rowIndices = .ok ⟨nrows, ncols, colPtrs, rowIndices, h⟩ := by
  unfold check
  split
  · rename_i hsome
    rw [(violation?_eq_none_iff ..).2 h] at hsome
    cases hsome
  · rfl

theorem check_eq_error_iff {e : PatternError} :
    check nrows ncols colPtrs rowIndices = .error e ↔
      FirstViolation colPtrs rowIndices nrows ncols e := by
  constructor
  · intro h
    unfold check at h
    split at h
    · cases h
      exact firstViolation_of_violation? ‹_›
    · cases h
  · intro h
    unfold check
    split
    · rename_i hsome
      rw [h.violation?_eq, Option.some_inj] at hsome
      rw [hsome]
    · rename_i hnone
      rw [h.violation?_eq] at hnone
      cases hnone

/-- Arrays are accepted, and then stored as they are, exactly where they are a layout in compressed
columns; all others are rejected with their first violation. -/
theorem ofArrays?_exact (nrows ncols : Nat) (colPtrs rowIndices : Array Nat)
    (hncols : ncols < 2 ^ 64 - 1) :
    ∃ result, ofArrays? nrows ncols colPtrs rowIndices = some result ∧
      ((∃ p, result = .ok p) ↔ IsLayout colPtrs rowIndices nrows ncols) ∧
      (∀ p, result = .ok p → p.nrows = nrows ∧ p.ncols = ncols ∧ p.colPtrs = colPtrs ∧
        p.rowIndices = rowIndices) ∧
      ∀ e, result = .error e ↔ FirstViolation colPtrs rowIndices nrows ncols e := by
  have hcountable : countable ncols = true := by
    simp only [countable, Nat.pow_eq, decide_eq_true_eq]
    omega
  refine ⟨check nrows ncols colPtrs rowIndices, ?_, ?_, ?_, ?_⟩
  · rw [ofArrays?, if_pos hcountable]
  · rw [isLayout_iff]
    constructor
    · rintro ⟨p, hp⟩
      exact (check_eq_ok hp).1
    · exact fun h => ⟨_, check_of_isCompressed h⟩
  · exact fun p hp => (check_eq_ok hp).2
  · exact fun e => check_eq_error_iff

/-- A row out of range behind two neighbours that do not increase: the error names the row. -/
theorem ofArrays?_exact_two_columns : 2 < 2 ^ 64 - 1 ∧
    ofArrays? 3 2 #[0, 1, 4] #[2, 1, 0, 3] = some (.error (.rowOutOfRange 1 3 3)) ∧
    FirstViolation #[0, 1, 4] #[2, 1, 0, 3] 3 2 (.rowOutOfRange 1 3 3) := by
  obtain ⟨result, hresult, -, -, herror⟩ :=
    ofArrays?_exact 3 2 #[0, 1, 4] #[2, 1, 0, 3] (by decide)
  have heq : ofArrays? 3 2 #[0, 1, 4] #[2, 1, 0, 3] = some (.error (.rowOutOfRange 1 3 3)) := rfl
  have : result = .error (.rowOutOfRange 1 3 3) := Option.some_inj.1 (hresult.symm.trans heq)
  exact ⟨by decide, heq, (herror _).1 this⟩

end Pattern

end LeastSquares.Sparse
