import LeastSquares.Decimal.Binary

/-!
# Written forms of machine numbers

Scientific notation has one digit before the point and an exponent without a plus sign or
padding.  Fixed notation has a given number of decimal places.  Both are rounded from the exact
value and keep the sign of zero.
-/

namespace LeastSquares.Decimal

def signText (negative : Bool) : String := if negative then "-" else ""

def Scaled.scientific (s : Scaled) : String :=
  let digits := Nat.toDigits 10 s.coefficient
  let exponent := s.unit + digits.length - 1
  let mantissa := match digits with
    | first :: second :: rest => first :: '.' :: second :: rest
    | short => short
  String.ofList mantissa ++ "e" ++ toString exponent

def Scaled.trim (s : Scaled) : Scaled :=
  let zeros := ((Nat.toDigits 10 s.coefficient).reverse.takeWhile (· == '0')).length
  ⟨s.coefficient / Nat.pow 10 zeros, s.unit + zeros⟩

/-- The written form of any number, from that of the positive ones and that of zero. -/
def written (zero : String) (positive : Nat → Int → String) (x : Float) : String :=
  match binary x with
  | .nan => "NaN"
  | .infinite negative => signText negative ++ "inf"
  | .finite negative mantissa exponent =>
    signText negative ++ if mantissa = 0 then zero else positive mantissa exponent

def scientific (places : Nat) : Float → String :=
  written (if places = 0 then "0e0" else "0." ++ String.ofList (List.replicate places '0') ++ "e0")
    fun mantissa exponent =>
      let (num, den) := toFraction mantissa exponent
      (toSignificant (places + 1) num den).scientific

/-- Scientific notation with the fewest digits that read back. -/
def shortestScientific : Float → String :=
  written "0e0" fun mantissa exponent => (shortest mantissa exponent).trim.scientific

def fixedText (places count : Nat) : String :=
  let fraction := Nat.toDigits 10 (count % Nat.pow 10 places)
  let padding := List.replicate (places - fraction.length) '0'
  toString (count / Nat.pow 10 places) ++ "." ++ String.ofList (padding ++ fraction)

def fixed (places : Nat) : Float → String :=
  written (fixedText places 0) fun mantissa exponent =>
    let (num, den) := toFraction mantissa exponent
    fixedText places (toPlaces places num den)

end LeastSquares.Decimal
