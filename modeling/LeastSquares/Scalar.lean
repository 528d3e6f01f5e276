/-!
# Scalars

The arithmetic in which every algorithm of the library is written.  A `Scalar` has the four
operations, a root, a hypotenuse and comparisons, and no laws: an algorithm fixes the order of its
operations and says nothing else about them, so one definition is run on machine numbers and is
reasoned about over an exact field.  Infinity, the two tests for a value that is no number and the
larger and smaller of two values are derived from these operations.
-/

namespace LeastSquares

class Scalar (α : Type) extends Add α, Sub α, Mul α, Div α, Neg α, Zero α, One α, LT α, LE α,
    BEq α, OfScientific α where
  sqrt : α → α
  abs : α → α
  /-- The root of the sum of two squares, without overflow in between. -/
  hypot : α → α → α
  decidableLT : DecidableLT α
  decidableLE : DecidableLE α

namespace Scalar

variable {α : Type} [Scalar α]

instance : DecidableLT α := decidableLT

instance : DecidableLE α := decidableLE

def infinity : α := 1 / 0

def isNaN (x : α) : Bool := !(x == x)

/-- A value that cancels against itself, which no infinite one does. -/
def isFinite (x : α) : Bool := x - x == 0

/-- The larger of two values; where one is not a number, the other. -/
def max (x y : α) : α := if isNaN x then y else if x < y then y else x

def min (x y : α) : α := if isNaN x then y else if y < x then y else x

end Scalar

end LeastSquares
