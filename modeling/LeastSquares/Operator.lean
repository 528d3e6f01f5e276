import LeastSquares.Outcome
import LeastSquares.Vec

/-!
# Linear operators

A linear operator is known through its products.  Both accumulate into a buffer of the caller:
`out ← alpha · op(A) v + beta · out`, and where `beta` is zero the old contents of the buffer do
not count.  A product breaks off where it reaches outside its vectors, and leaves the buffer as far
as it was written.
-/

namespace LeastSquares

class LinearOperator (A : Type) (α : outParam Type) where
  nrows : A → Nat
  ncols : A → Nat
  /-- `apply a alpha v beta out` is `alpha · A v + beta · out`. -/
  apply : A → α → Array α → α → Array α → Outcome (Array α)
  /-- `applyTranspose a alpha v beta out` is `alpha · Aᵀ v + beta · out`. -/
  applyTranspose : A → α → Array α → α → Array α → Outcome (Array α)
  columnSquares : A → Array α → Outcome (Array α)

namespace LinearOperator

variable {α : Type} [Scalar α]

def shape {A : Type} [LinearOperator A α] (a : A) : Nat × Nat := (nrows a, ncols a)

/-- `beta · out`, and zeros where `beta` is zero, whatever the buffer held. -/
def scaleAccumulator (beta : α) (out : Array α) : Array α :=
  if beta == 0 then out.map fun _ => 0
  else if beta == 1 then out
  else out.map (· * beta)

/-- `alpha · x + beta · old`, where a zero `beta` ignores the old value. -/
def accumulate (alpha x beta old : α) : α :=
  if beta == 0 then alpha * x else alpha * x + beta * old

@[simp] theorem size_scaleAccumulator (beta : α) (out : Array α) :
    (scaleAccumulator beta out).size = out.size := by
  unfold scaleAccumulator
  split
  · simp
  · split <;> simp

end LinearOperator

end LeastSquares
