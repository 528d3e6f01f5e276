import LeastSquares.Scalar

/-!
# Cholesky factorization

A symmetric matrix is given by the columns of its lower triangle, each from the diagonal down.  The
factorization takes the root of the first pivot, removes the first column from the rest of the
triangle and goes on with that; it fails at the first pivot that is not positive, hence also at one
that is not a number.  A system with the matrix is solved by substitution down the columns of the
factor and back up.
-/

namespace LeastSquares.Dense

/-- The columns of a lower triangle, each from the diagonal down. -/
abbrev Triangle (α : Type) := List (List α)

namespace Triangle

variable {α : Type} [Scalar α]

def downdate : List α → Triangle α → Triangle α
  | w :: ws, column :: rest =>
    List.zipWith (fun entry wi => entry - wi * w) column (w :: ws) :: downdate ws rest
  | _, triangle => triangle

@[simp] theorem length_downdate (w : List α) (triangle : Triangle α) :
    (downdate w triangle).length = triangle.length := by
  induction triangle generalizing w with
  | nil => cases w <;> rfl
  | cons column rest ih =>
    cases w with
    | nil => rfl
    | cons w ws => simp [downdate, ih]

/-- The lower triangle `L` with `L Lᵀ` the given matrix; nothing where a pivot is not positive. -/
def factor? : Triangle α → Option (Triangle α)
  | [] => some []
  | [] :: _ => none
  | (pivot :: below) :: rest =>
    if 0 < pivot then
      let root := Scalar.sqrt pivot
      let column := below.map (· / root)
      (factor? (downdate column rest)).map ((root :: column) :: ·)
    else none
termination_by triangle => triangle.length

/-- Solves `L y = b - s` from the first entry down, where `s` sums up what is known of `L y`. -/
def solveLower : Triangle α → List α → List α → List α
  | (root :: column) :: rest, b :: bs, s :: sums =>
    let y := (b - s) / root
    y :: solveLower rest bs (List.zipWith (fun sum entry => sum + entry * y) sums column)
  | _, _, _ => []

def inner (xs ys : List α) : α := (List.zipWith (· * ·) xs ys).foldl (· + ·) 0

def solveUpper : Triangle α → List α → List α
  | (root :: column) :: rest, y :: ys =>
    let xs := solveUpper rest ys
    (y - inner column xs) / root :: xs
  | _, _ => []

def solve (factor : Triangle α) (b : List α) : List α :=
  solveUpper factor (solveLower factor b (b.map fun _ => 0))

end Triangle

/-- A way to factorize symmetric matrices, which may fail, and to solve systems with a factor. -/
structure Factorization (α : Type) where
  factor? : Triangle α → Option (Triangle α)
  solve : Triangle α → List α → List α

def Factorization.cholesky {α : Type} [Scalar α] : Factorization α :=
  ⟨Triangle.factor?, Triangle.solve⟩

end LeastSquares.Dense
