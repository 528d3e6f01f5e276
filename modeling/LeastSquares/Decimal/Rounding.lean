/-!
# Rounding fractions to decimal grids

Exact rounding of positive fractions to a number of significant digits or of decimal places, in
natural numbers.  A grid is the set of multiples of a power of ten, and a tie between two of its
points goes to the even one.
-/

namespace LeastSquares.Decimal

/-- The quotient rounded to the nearest natural number, ties to the even one. -/
def roundDiv (num den : Nat) : Nat :=
  let floor := num / den
  let rest := num % den
  if 2 * rest < den then floor
  else if den < 2 * rest then floor + 1
  else if floor % 2 = 0 then floor else floor + 1

def digitCount (n : Nat) : Nat := (Nat.toDigits 10 n).length

def inUnits (num den : Nat) (unit : Int) : Nat × Nat :=
  (num * Nat.pow 10 (-unit).toNat, den * Nat.pow 10 unit.toNat)

/-- The power of ten that a positive fraction's first digit counts.  The digit counts leave two
candidates, and the larger is right where the fraction reaches it. -/
def leadingExponent (num den : Nat) : Int :=
  let larger : Int := (digitCount num : Int) - digitCount den
  let (a, b) := inUnits num den larger
  if b ≤ a then larger else larger - 1

structure Scaled where
  coefficient : Nat
  unit : Int
  deriving Repr, DecidableEq

/-- A positive fraction rounded to so many significant digits.  Rounding up to a power of ten
yields one digit more, and the unit is then the next larger one. -/
def toSignificant (digits num den : Nat) : Scaled :=
  let unit := leadingExponent num den - (digits : Int) + 1
  let (a, b) := inUnits num den unit
  let c := roundDiv a b
  if c = Nat.pow 10 digits then ⟨Nat.pow 10 (digits - 1), unit + 1⟩ else ⟨c, unit⟩

def toPlaces (places num den : Nat) : Nat := roundDiv (num * Nat.pow 10 places) den

end LeastSquares.Decimal
