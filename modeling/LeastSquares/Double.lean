import LeastSquares.Scalar

/-!
# Machine numbers

The 64-bit floating-point numbers as scalars.  Their hypotenuse neither overflows nor underflows
in between: arguments near an end of the range are moved to its middle by a power of two, and the
rounding of the root is undone to first order.
-/

namespace LeastSquares

namespace Double

/-- The hypotenuse over `y ≤ x`, for sides whose squares stay inside the range: the root of the
rounded sum, corrected by its defect over twice the root. -/
def hypotMiddle (x y : Float) : Float :=
  let h := Float.sqrt (x * x + y * y)
  let defect :=
    if h ≤ 2 * y then
      let δ := h - y
      x * (2 * δ - x) + (δ - 2 * (x - y)) * δ
    else
      let δ := h - x
      2 * δ * (x - 2 * y) + ((4 * δ - y) * y + δ * δ)
  h - defect / (2 * h)

/-- The hypotenuse over `y ≤ x`, both finite and not negative.  A side below half a unit in the
last place of the other only moves the result to a neighbour. -/
def hypotOrdered (x y : Float) : Float :=
  if y ≤ x * Float.scaleB 1 (-54) then x + y
  else if Float.scaleB 1 511 < x then
    Float.scaleB (hypotMiddle (Float.scaleB x (-600)) (Float.scaleB y (-600))) 600
  else if y < Float.scaleB 1 (-459) then
    Float.scaleB (hypotMiddle (Float.scaleB x 600) (Float.scaleB y 600)) (-600)
  else hypotMiddle x y

def hypot (x y : Float) : Float :=
  let a := x.abs
  let b := y.abs
  if a.isInf || b.isInf then 1.0 / 0.0
  else if a.isNaN || b.isNaN then a + b
  else if a < b then hypotOrdered b a else hypotOrdered a b

end Double

instance : Scalar Float where
  zero := 0.0
  one := 1.0
  sqrt := Float.sqrt
  abs := Float.abs
  hypot := Double.hypot
  decidableLT := inferInstance
  decidableLE := inferInstance

end LeastSquares
