import LeastSquares.Operator

/-!
# Dense matrices

A dense matrix is stored by columns of one length.  Its products take vectors of exactly its
dimensions and break off at any other, before they touch the buffer.

Every entry of a product is the inner product of a row or a column with the vector, times `alpha`;
a product over no entries only scales the buffer.
-/

namespace LeastSquares.Dense

structure Matrix (α : Type) where
  nrows : Nat
  columns : Array (Array α)
  size_column : ∀ c ∈ columns, c.size = nrows

namespace Matrix

variable {α : Type}

def ncols (m : Matrix α) : Nat := m.columns.size

def ofFn (nrows ncols : Nat) (entry : Nat → Nat → α) : Matrix α where
  nrows := nrows
  columns := (Array.range ncols).map fun col => (Array.range nrows).map fun row => entry row col
  size_column := by
    intro c hc
    obtain ⟨col, -, rfl⟩ := Array.mem_map.1 hc
    simp

def read? (m : Matrix α) (row col : Nat) : Option α :=
  m.columns[col]?.bind (·[row]?)

def write? (m : Matrix α) (row col : Nat) (value : α) : Option (Matrix α) :=
  if row < m.nrows ∧ col < m.ncols then
    some
      { nrows := m.nrows
        columns := m.columns.modify col (·.setIfInBounds row value)
        size_column := by
          intro c hc
          obtain ⟨i, hi, rfl⟩ := Array.mem_iff_getElem.1 hc
          simp only [Array.size_modify] at hi
          rw [Array.getElem_modify]
          split <;> simp [m.size_column] }
  else none

variable [Scalar α]

def toRows (m : Matrix α) : Array (Array α) :=
  (Array.range m.nrows).map fun row => m.columns.map fun c => c.getD row 0

/-- The matrix of some rows.  The first gives the number of columns; a longer one is cut, and a
shorter one does not make a matrix. -/
def ofRows? (rows : Array (Array α)) : Option (Matrix α) :=
  let ncols := (rows[0]?.map Array.size).getD 0
  if rows.all fun row => ncols ≤ row.size then
    some (ofFn rows.size ncols fun row col => ((rows[row]?).bind (·[col]?)).getD 0)
  else none

def zeros (nrows ncols : Nat) : Matrix α := ofFn nrows ncols fun _ _ => 0

def clear (m : Matrix α) : Matrix α where
  nrows := m.nrows
  columns := m.columns.map fun c => c.map fun _ => 0
  size_column := by
    intro c hc
    obtain ⟨d, hd, rfl⟩ := Array.mem_map.1 hc
    simp [m.size_column d hd]

def row (m : Matrix α) (i : Nat) : Array α := m.columns.map fun c => c.getD i 0

/-- `alpha · A v + beta · out` on vectors of the right lengths. -/
def product (m : Matrix α) (alpha : α) (v : Array α) (beta : α) (out : Array α) : Array α :=
  if m.ncols = 0 then LinearOperator.scaleAccumulator beta out
  else out.mapIdx fun i old => LinearOperator.accumulate alpha (Vec.dot (m.row i) v) beta old

def transposedProduct (m : Matrix α) (alpha : α) (v : Array α) (beta : α) (out : Array α) :
    Array α :=
  if m.nrows = 0 then LinearOperator.scaleAccumulator beta out
  else
    Array.zipWith (fun old c => LinearOperator.accumulate alpha (Vec.dot c v) beta old) out
      m.columns

/-- The sum of the squares of a column, from zero.  A matrix without rows has one for any column. -/
def columnSquare? (m : Matrix α) (col : Nat) : Option α :=
  if m.nrows = 0 then some 0
  else m.columns[col]?.map fun c => (c.map fun x => x * x).foldl (· + ·) 0

instance : LinearOperator (Matrix α) α where
  nrows m := m.nrows
  ncols m := m.ncols
  apply m alpha v beta out :=
    if v.size = m.ncols ∧ out.size = m.nrows then
      .done (m.product alpha v beta out)
    else .brokenOff out
  applyTranspose m alpha v beta out :=
    if v.size = m.nrows ∧ out.size = m.ncols then
      .done (m.transposedProduct alpha v beta out)
    else .brokenOff out
  columnSquares m out := Outcome.fill (fun col _ => m.columnSquare? col) out

end Matrix

end LeastSquares.Dense
