/-!
# Sparsity patterns

The layout of the stored entries of a sparse matrix in compressed columns: the row indices of one
column after the other, strictly increasing within each, and for every column the place where its
indices start.  `IsCompressed` states the layout, `violation?` finds the first requirement that two
arrays miss, and `violation?_eq_none_iff` says that it finds one exactly where the layout fails.
A `Pattern` carries its layout as a proof.  Patterns are built from the two arrays, or from any list
of entries; either way the number of columns has to be one that a 64-bit machine can hold.
-/

namespace LeastSquares.Sparse

inductive PatternError where
  | pointerCount (expected actual : Nat)
  | firstPointer (value : Nat)
  | decreasingPointers (col prev next : Nat)
  | lastPointer (last count : Nat)
  | rowOutOfRange (col row nrows : Nat)
  | rowsNotIncreasing (col prev next : Nat)
  | missingEntry (row col : Nat)
  deriving Repr, DecidableEq

def PatternError.message : PatternError → String
  | pointerCount expected actual =>
    s!"col_ptrs length {actual} does not match expected {expected}"
  | firstPointer value => s!"col_ptrs must start at 0 (got {value})"
  | decreasingPointers col prev next =>
    s!"col_ptrs not monotonic at col {col}: {prev} > {next}"
  | lastPointer last count =>
    s!"col_ptrs end {last} does not match row_indices length {count}"
  | rowOutOfRange col row nrows => s!"row index {row} in col {col} exceeds nrows {nrows}"
  | rowsNotIncreasing col prev next => s!"row indices not sorted in col {col}: {prev} >= {next}"
  | missingEntry row col => s!"entry ({row}, {col}) is not in the sparsity pattern"

/-- The place where a column starts; past the end of the array, zero. -/
def pointer (colPtrs : Array Nat) (col : Nat) : Nat := colPtrs.getD col 0

def columnSlice {β : Type} (colPtrs : Array Nat) (xs : Array β) (col : Nat) : List β :=
  (xs.extract (pointer colPtrs col) (pointer colPtrs (col + 1))).toList

/-- The layout in compressed columns. -/
structure IsCompressed (nrows ncols : Nat) (colPtrs rowIndices : Array Nat) : Prop where
  count : colPtrs.size = ncols + 1
  first : pointer colPtrs 0 = 0
  monotone : ∀ col < ncols, pointer colPtrs col ≤ pointer colPtrs (col + 1)
  last : pointer colPtrs ncols = rowIndices.size
  rows_lt : ∀ col < ncols, ∀ row ∈ columnSlice colPtrs rowIndices col, row < nrows
  increasing : ∀ col < ncols, (columnSlice colPtrs rowIndices col).Pairwise (· < ·)

def firstDescent? : List Nat → Option (Nat × Nat)
  | a :: b :: rest => if b ≤ a then some (a, b) else firstDescent? (b :: rest)
  | _ => none

/-- What is wrong with the row indices of a column: first a row out of range, then the order. -/
def columnViolation? (nrows col : Nat) (rows : List Nat) : Option PatternError :=
  match rows.find? (nrows ≤ ·) with
  | some row => some (.rowOutOfRange col row nrows)
  | none => (firstDescent? rows).map fun (prev, next) => .rowsNotIncreasing col prev next

/-- The first requirement of the layout that two arrays miss, in the order of `IsCompressed`, with
the lowest column that misses it; the requirements on rows are checked column by column. -/
def violation? (nrows ncols : Nat) (colPtrs rowIndices : Array Nat) : Option PatternError :=
  if colPtrs.size ≠ ncols + 1 then some (.pointerCount (ncols + 1) colPtrs.size)
  else if pointer colPtrs 0 ≠ 0 then some (.firstPointer (pointer colPtrs 0))
  else
    match (List.range ncols).find? fun c => pointer colPtrs (c + 1) < pointer colPtrs c with
    | some c => some (.decreasingPointers c (pointer colPtrs c) (pointer colPtrs (c + 1)))
    | none =>
      if pointer colPtrs ncols ≠ rowIndices.size then
        some (.lastPointer (pointer colPtrs ncols) rowIndices.size)
      else (List.range ncols).findSome? fun c =>
        columnViolation? nrows c (columnSlice colPtrs rowIndices c)

/-- A list has no descent exactly where it strictly increases. -/
theorem firstDescent?_eq_none_iff (rows : List Nat) :
    firstDescent? rows = none ↔ rows.Pairwise (· < ·) := by
  induction rows with
  | nil => simp [firstDescent?]
  | cons a rest ih =>
    cases rest with
    | nil => simp [firstDescent?]
    | cons b rest =>
      rw [firstDescent?]
      split
      · rename_i h
        simp only [reduceCtorEq, List.pairwise_cons, false_iff]
        intro hp
        exact absurd (hp.1 b List.mem_cons_self) (Nat.not_lt.2 h)
      · rename_i h
        rw [ih, List.pairwise_cons (a := a)]
        constructor
        · intro hp
          refine ⟨fun r hr => ?_, hp⟩
          rcases List.mem_cons.1 hr with rfl | hr
          · omega
          · exact Nat.lt_trans (Nat.not_le.1 h) ((List.pairwise_cons.1 hp).1 r hr)
        · exact fun hp => hp.2

theorem columnViolation?_eq_none_iff (nrows col : Nat) (rows : List Nat) :
    columnViolation? nrows col rows = none ↔
      (∀ row ∈ rows, row < nrows) ∧ rows.Pairwise (· < ·) := by
  unfold columnViolation?
  cases h : rows.find? (nrows ≤ ·) with
  | some row =>
    simp only [reduceCtorEq, false_iff, not_and]
    intro hlt
    have mem := List.mem_of_find?_eq_some h
    have out := List.find?_some h
    exact absurd (hlt row mem) (by simpa using out)
  | none =>
    simp only [Option.map_eq_none_iff, firstDescent?_eq_none_iff, iff_and_self]
    intro _ row hr
    simpa using List.find?_eq_none.1 h row hr

/-- A requirement is found missing exactly where the layout fails. -/
theorem violation?_eq_none_iff (nrows ncols : Nat) (colPtrs rowIndices : Array Nat) :
    violation? nrows ncols colPtrs rowIndices = none ↔
      IsCompressed nrows ncols colPtrs rowIndices := by
  unfold violation?
  constructor
  · intro h
    split at h
    · cases h
    · rename_i hcount
      split at h
      · cases h
      · rename_i hfirst
        split at h
        · cases h
        · rename_i hmono
          split at h
          · cases h
          · rename_i hlast
            rw [List.findSome?_eq_none_iff] at h
            have column : ∀ c < ncols, (∀ row ∈ columnSlice colPtrs rowIndices c, row < nrows) ∧
                (columnSlice colPtrs rowIndices c).Pairwise (· < ·) := fun c hc =>
              (columnViolation?_eq_none_iff nrows c _).1 (h c (List.mem_range.2 hc))
            refine ⟨by simpa using hcount, by simpa using hfirst, fun c hc => ?_,
              by simpa using hlast, fun c hc => (column c hc).1, fun c hc => (column c hc).2⟩
            simpa using List.find?_eq_none.1 hmono c (List.mem_range.2 hc)
  · intro h
    have mono : (List.range ncols).find?
        (fun c => pointer colPtrs (c + 1) < pointer colPtrs c) = none := by
      rw [List.find?_eq_none]
      intro c hc
      simpa using h.monotone c (List.mem_range.1 hc)
    simp only [h.count, h.first, h.last, mono, ne_eq, not_true_eq_false, if_false]
    rw [List.findSome?_eq_none_iff]
    intro c hc
    have hc := List.mem_range.1 hc
    exact (columnViolation?_eq_none_iff nrows c _).2 ⟨h.rows_lt c hc, h.increasing c hc⟩

structure Pattern where
  nrows : Nat
  ncols : Nat
  colPtrs : Array Nat
  rowIndices : Array Nat
  compressed : IsCompressed nrows ncols colPtrs rowIndices

namespace Pattern

def check (nrows ncols : Nat) (colPtrs rowIndices : Array Nat) : Except PatternError Pattern :=
  match h : violation? nrows ncols colPtrs rowIndices with
  | some e => .error e
  | none => .ok ⟨nrows, ncols, colPtrs, rowIndices, (violation?_eq_none_iff ..).1 h⟩

/-- Sizes and indices are words of 64 bits, and the number of pointers has to be one. -/
def countable (ncols : Nat) : Bool := ncols + 1 < Nat.pow 2 64

/-- The pattern of two arrays, or the first requirement that they miss; nothing where the number
of pointers is no word. -/
def ofArrays? (nrows ncols : Nat) (colPtrs rowIndices : Array Nat) :
    Option (Except PatternError Pattern) :=
  if countable ncols then some (check nrows ncols colPtrs rowIndices) else none

def insertAscending (row : Nat) : List Nat → List Nat
  | [] => [row]
  | r :: rest =>
    if row < r then row :: r :: rest
    else if row = r then r :: rest
    else r :: insertAscending row rest

def ascending (rows : List Nat) : List Nat := rows.foldr insertAscending []

def rowsOf (entries : List (Nat × Nat)) (col : Nat) : List Nat :=
  ascending ((entries.filter fun e => e.2 == col).map Prod.fst)

def pointersOf (columns : List (List Nat)) : Array Nat :=
  columns.foldl (fun ptrs rows => ptrs.push (ptrs.back?.getD 0 + rows.length)) #[0]

/-- Entries are sorted into one list for each column.  The table of the lists holds three words for
each, and has to fit into half of the 64-bit address space. -/
def tabulable (ncols : Nat) : Bool := 24 * ncols < Nat.pow 2 63

/-- The pattern of a list of entries in any order, each once; an entry right of the last column is
missing, and the rows are checked as for arrays.  Nothing where the columns have no table. -/
def ofEntries? (nrows ncols : Nat) (entries : List (Nat × Nat)) :
    Option (Except PatternError Pattern) :=
  if tabulable ncols then
    match entries.find? fun e => ncols ≤ e.2 with
    | some (row, col) => some (.error (.missingEntry row col))
    | none =>
      let columns := (List.range ncols).map (rowsOf entries)
      some (check nrows ncols (pointersOf columns) columns.flatten.toArray)
  else none

def nnz (p : Pattern) : Nat := p.rowIndices.size

def colRange? (p : Pattern) (col : Nat) : Option (Nat × Nat) :=
  if col < p.ncols then some (pointer p.colPtrs col, pointer p.colPtrs (col + 1)) else none

def rows (p : Pattern) (col : Nat) : List Nat := columnSlice p.colPtrs p.rowIndices col

def rows? (p : Pattern) (col : Nat) : Option (List Nat) :=
  if col < p.ncols then some (p.rows col) else none

/-- The place of an entry among the stored ones. -/
def position? (p : Pattern) (row col : Nat) : Option Nat :=
  if col < p.ncols then
    ((p.rows col).idxOf? row).map (pointer p.colPtrs col + ·)
  else none

end Pattern

end LeastSquares.Sparse
