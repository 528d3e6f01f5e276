import LeastSquares.Operator
import LeastSquares.Sparse.Pattern

/-!
# Sparse matrices

A matrix with a fixed pattern and one value for each stored entry; the other entries are zero.  The
pattern never changes, so a matrix whose values change keeps its layout.  The products run over the
entries of one column after the other, and break off at a column or a row that does not exist.
-/

namespace LeastSquares.Sparse

/-- A matrix with values at the entries of a pattern. -/
structure Matrix (α : Type) where
  pattern : Pattern
  values : Array α
  size_values : values.size = pattern.nnz

namespace Matrix

variable {α : Type} [Scalar α]

def zeros (p : Pattern) : Matrix α := ⟨p, Vec.zeros p.nnz, by simp [Vec.zeros]⟩

def ofValues? (p : Pattern) (values : Array α) : Option (Matrix α) :=
  if h : values.size = p.nnz then some ⟨p, values, h⟩ else none

def get (m : Matrix α) (row col : Nat) : α :=
  match m.pattern.position? row col with
  | some k => m.values.getD k 0
  | none => 0

def set (m : Matrix α) (row col : Nat) (value : α) : Except PatternError (Matrix α) :=
  match m.pattern.position? row col with
  | some k => .ok ⟨m.pattern, m.values.setIfInBounds k value, by simp [m.size_values]⟩
  | none => .error (.missingEntry row col)

def clear (m : Matrix α) : Matrix α :=
  ⟨m.pattern, m.values.map fun _ => 0, by simp [m.size_values]⟩

/-- Overwrites the values of a column; nothing where it does not exist or has another length. -/
def writeColumn? (m : Matrix α) (col : Nat) (column : Array α) : Option (Matrix α) :=
  match m.pattern.colRange? col with
  | some (start, stop) =>
    if column.size = stop - start then
      some ⟨m.pattern, m.values.mapIdx fun k old =>
        if start ≤ k ∧ k < stop then column.getD (k - start) old else old, by simp [m.size_values]⟩
    else none
  | none => none

def column (m : Matrix α) (col : Nat) : List (Nat × α) :=
  (m.pattern.rows col).zip (columnSlice m.pattern.colPtrs m.values col)

def scatter (factor : α) (entries : List (Nat × α)) (out : Array α) : Outcome (Array α) :=
  Outcome.foldList (fun out entry =>
    if entry.1 < out.size then .done (out.modify entry.1 (· + entry.2 * factor))
    else .brokenOff out) out entries

/-- Adds a multiple of a column to a buffer; a zero multiple does not look at the column. -/
def addColumn (m : Matrix α) (factor : α) (col : Nat) (out : Array α) : Outcome (Array α) :=
  if factor == 0 then .done out
  else if col < m.pattern.ncols then scatter factor (m.column col) out
  else .brokenOff out

def columnDot? (m : Matrix α) (col : Nat) (v : Array α) : Option α :=
  if col < m.pattern.ncols ∧ (m.column col).all (fun entry => entry.1 < v.size) then
    some ((m.column col).foldl (fun sum entry => sum + entry.2 * v.getD entry.1 0) 0)
  else none

def columnSquare? (m : Matrix α) (col : Nat) : Option α :=
  if col < m.pattern.ncols then
    some (Vec.sumSquares (columnSlice m.pattern.colPtrs m.values col).toArray)
  else none

instance : LinearOperator (Matrix α) α where
  nrows m := m.pattern.nrows
  ncols m := m.pattern.ncols
  apply m alpha v beta out :=
    Outcome.foldList (fun out vc => m.addColumn (alpha * vc.1) vc.2 out)
      (LinearOperator.scaleAccumulator beta out) v.zipIdx.toList
  applyTranspose m alpha v beta out :=
    Outcome.fill (fun col old =>
      (m.columnDot? col v).map fun sum => LinearOperator.accumulate alpha sum beta old) out
  columnSquares m out := Outcome.fill (fun col _ => m.columnSquare? col) out

end Matrix

end LeastSquares.Sparse
