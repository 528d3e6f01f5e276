import LeastSquares.Decimal.Rounding

/-!
# Machine numbers as exact fractions

A finite machine number is a mantissa times a power of two.  The shortest decimal of such a number
is the first grid, from one digit up to seventeen, that has a point in the interval of reals which
round to the number; the interval contains its ends where the mantissa is even.
-/

namespace LeastSquares.Decimal

inductive Binary where
  | nan
  | infinite (negative : Bool)
  /-- A sign, and the mantissa times two to the exponent. -/
  | finite (negative : Bool) (mantissa : Nat) (exponent : Int)
  deriving Repr, DecidableEq

namespace Binary

/-- Reads the sign, the eleven bits of the exponent and the fifty-two of the fraction. -/
def ofBits (bits : UInt64) : Binary :=
  let word := bits.toNat
  let negative := word / Nat.pow 2 63 == 1
  let exponent : Nat := word / Nat.pow 2 52 % Nat.pow 2 11
  let fraction : Nat := word % Nat.pow 2 52
  if exponent = 2047 then
    if fraction = 0 then infinite negative else nan
  else if exponent = 0 then finite negative fraction (-1074)
  else finite negative (Nat.pow 2 52 + fraction) ((exponent : Int) - 1075)

end Binary

def binary (x : Float) : Binary := Binary.ofBits x.toBits

def toFraction (mantissa : Nat) (exponent : Int) : Nat × Nat :=
  (mantissa * Nat.pow 2 exponent.toNat, Nat.pow 2 (-exponent).toNat)

/-- Whether a scaled decimal lies in the interval that rounds to a mantissa times a power of two.
The interval is measured in quarters of the last place; below the first mantissa of an exponent it
is half as wide. -/
def roundsTo (mantissa : Nat) (exponent : Int) (s : Scaled) : Bool :=
  let quarters (n : Nat) : Nat := n * Nat.pow 2 (exponent - 2).toNat * Nat.pow 10 (-s.unit).toNat
  let low := quarters (4 * mantissa - if mantissa = Nat.pow 2 52 ∧ -1074 < exponent then 1 else 2)
  let high := quarters (4 * mantissa + 2)
  let point := s.coefficient * Nat.pow 10 s.unit.toNat * Nat.pow 2 (2 - exponent).toNat
  if mantissa % 2 = 0 then low ≤ point ∧ point ≤ high else low < point ∧ point < high

/-- The point of a grid with so many digits that rounds to the number, the nearer one first. -/
def onGrid? (mantissa : Nat) (exponent : Int) (digits : Nat) : Option Scaled :=
  let (num, den) := toFraction mantissa exponent
  let unit := leadingExponent num den - (digits : Int) + 1
  let (a, b) := inUnits num den unit
  let near := roundDiv a b
  let far := if near = a / b then near + 1 else near - 1
  [⟨near, unit⟩, ⟨far, unit⟩].find? (roundsTo mantissa exponent)

def shortest (mantissa : Nat) (exponent : Int) : Scaled :=
  match (List.range 17).findSome? fun n => onGrid? mantissa exponent (n + 1) with
  | some s => s
  | none =>
    let (num, den) := toFraction mantissa exponent
    toSignificant 17 num den

end LeastSquares.Decimal
