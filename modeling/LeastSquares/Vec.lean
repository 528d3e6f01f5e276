import LeastSquares.Scalar

/-!
# Vectors

Vectors are arrays of scalars.  Every sum runs from the first entry to the last.  An operation on
two vectors of different lengths works on their common beginning, and an operation that updates a
vector leaves the rest of it as it was.
-/

namespace LeastSquares.Vec

variable {α β : Type}

/-- Updates the entries of `xs` that have a partner in `ys`, and keeps the others. -/
def zipUpdate (f : α → β → α) (xs : Array α) (ys : Array β) : Array α :=
  xs.mapIdx fun i x => match ys[i]? with
    | some y => f x y
    | none => x

@[simp] theorem size_zipUpdate (f : α → β → α) (xs : Array α) (ys : Array β) :
    (zipUpdate f xs ys).size = xs.size := by
  simp [zipUpdate]

theorem zipUpdate_eq_zipWith (f : α → β → α) {xs : Array α} {ys : Array β}
    (h : xs.size = ys.size) : zipUpdate f xs ys = Array.zipWith f xs ys := by
  apply Array.ext
  · simp [h]
  · intro i hi _
    simp only [size_zipUpdate] at hi
    simp [zipUpdate, h ▸ hi]

theorem zipUpdate_overwrite (f : β → α) {xs : Array α} {ys : Array β} (h : xs.size = ys.size) :
    zipUpdate (fun _ y => f y) xs ys = ys.map f := by
  rw [zipUpdate_eq_zipWith _ h]
  apply Array.ext <;> simp [h]

variable [Scalar α]

def zeros (n : Nat) : Array α := Array.replicate n 0

def dot (xs ys : Array α) : α := (Array.zipWith (· * ·) xs ys).foldl (· + ·) 0

/-- The sum of the squares.  It starts at minus zero, so the empty sum is minus zero. -/
def sumSquares (xs : Array α) : α := (xs.map fun x => x * x).foldl (· + ·) (-0)

def norm (xs : Array α) : α := Scalar.sqrt (sumSquares xs)

def scale (factor : α) (xs : Array α) : Array α := xs.map (· * factor)

def normalize (length : α) (xs : Array α) : Array α :=
  if 0 < length then scale (1 / length) xs else xs

@[simp] theorem size_normalize (length : α) (xs : Array α) :
    (normalize length xs).size = xs.size := by
  unfold normalize scale
  split <;> simp

/-- The largest absolute value, zero for the empty vector.  An entry that is not a number stays
the result until one compares greater, which none does. -/
def maxAbs (xs : Array α) : α :=
  xs.foldl (fun largest x =>
    let size := Scalar.abs x
    if decide (largest < size) || Scalar.isNaN size then size else largest) 0

end LeastSquares.Vec
