import LeastSquares.Operator

/-!
# Damped operators

Least squares with a damping `‖d ∘ x‖²` is least squares over the operator `[A; diag d]`.  Its
columns are brought to comparable lengths by dividing the parameters by `√(1 + d²)`, so a solution
over the damped operator is divided by `√(1 + d²)` once more to become one of the damped problem.
An output of the damped operator holds the rows of `A` first and then one entry for each parameter.

The products pass through a scratch vector, which keeps its entries from one product to the next
where a product does not reach them.
-/

namespace LeastSquares

structure Damping (α : Type) where
  diagonal : Array α
  /-- The normalization `√(1 + d²)`. -/
  normalization : Array α
  scratch : Array α
  deriving Repr

/-- The operator `[A; diag d] · diag (1 / √(1 + d²))`. -/
structure DampedOperator (A α : Type) where
  base : A
  damping : Damping α

variable {α : Type} [Scalar α]

namespace Damping

def none (n : Nat) : Damping α where
  diagonal := Vec.zeros n
  normalization := Array.replicate n 1
  scratch := Vec.zeros n

def weight (lambda square : α) : α := lambda * Scalar.sqrt square

/-- Sets the damping from a factor and squared column norms; without a norm, a parameter keeps its
damping. -/
def update (d : Damping α) (lambda : α) (squares : Array α) : Damping α where
  diagonal := Vec.zipUpdate (fun _ square => weight lambda square) d.diagonal squares
  normalization :=
    Vec.zipUpdate (fun _ square =>
        let w := weight lambda square
        Scalar.sqrt (1 + w * w))
      d.normalization squares
  scratch := d.scratch

def unscale (d : Damping α) (x : Array α) : Array α :=
  Vec.zipUpdate (fun xi norm => xi / norm) x d.normalization

def load (d : Damping α) (v : Array α) : Array α :=
  Vec.zipUpdate (fun _ vn => vn.1 / vn.2) d.scratch (v.zip d.normalization)

def dampedBlock (d : Damping α) (alpha beta : α) (scratch old : Array α) : Array α :=
  Vec.zipUpdate (fun z sd =>
      if beta == 0 then alpha * sd.1 * sd.2 else beta * z + alpha * sd.1 * sd.2)
    old (scratch.zip d.diagonal)

def transposedEntry? (d : Damping α) (alpha beta : α) (scratch block : Array α) (i : Nat)
    (old : α) : Option α :=
  match scratch[i]?, block[i]?, d.diagonal[i]?, d.normalization[i]? with
  | some s, some z, some w, some norm =>
    let value := (s + z * w) / norm
    some (if beta == 0 then alpha * value else beta * old + alpha * value)
  | _, _, _, _ => Option.none

end Damping

namespace DampedOperator

variable {A : Type} [LinearOperator A α]

open LinearOperator

/-- `alpha · op v + beta · out`, and the damping with its scratch vector loaded.  The product breaks
off where the output does not hold the rows of the base. -/
def applyKeeping (op : DampedOperator A α) (alpha : α) (v : Array α) (beta : α)
    (out : Array α) : Outcome (Array α) × Damping α :=
  let scratch := op.damping.load v
  let kept := { op.damping with scratch := scratch }
  let rows := nrows op.base
  if rows ≤ out.size then
    let block := out.extract rows out.size
    let product := match LinearOperator.apply op.base alpha scratch beta (out.extract 0 rows) with
      | .done data => .done (data ++ op.damping.dampedBlock alpha beta scratch block)
      | .brokenOff data => .brokenOff (data ++ block)
    (product, kept)
  else (.brokenOff out, kept)

/-- `alpha · opᵀ v + beta · out`, and the damping with the base's product in its scratch vector.
The product breaks off where the argument does not hold the rows of the base. -/
def applyTransposeKeeping (op : DampedOperator A α) (alpha : α) (v : Array α) (beta : α)
    (out : Array α) : Outcome (Array α) × Damping α :=
  let rows := nrows op.base
  if rows ≤ v.size then
    let block := v.extract rows v.size
    let inner := LinearOperator.applyTranspose op.base 1 (v.extract 0 rows) 0 op.damping.scratch
    let product := match inner with
      | .done scratch =>
        Outcome.fill (op.damping.transposedEntry? alpha beta scratch block) out
      | .brokenOff _ => .brokenOff out
    (product, { op.damping with scratch := inner.state })
  else (.brokenOff out, op.damping)

def columnSquares (op : DampedOperator A α) (out : Array α) : Outcome (Array α) :=
  match LinearOperator.columnSquares op.base out with
  | .done squares =>
    .done (Vec.zipUpdate (fun square dn => (square + dn.1 * dn.1) / (dn.2 * dn.2))
      squares (op.damping.diagonal.zip op.damping.normalization))
  | .brokenOff squares => .brokenOff squares

instance : LinearOperator (DampedOperator A α) α where
  nrows op := nrows op.base + ncols op.base
  ncols op := ncols op.base
  apply op alpha v beta out := (op.applyKeeping alpha v beta out).1
  applyTranspose op alpha v beta out := (op.applyTransposeKeeping alpha v beta out).1
  columnSquares := columnSquares

end DampedOperator

end LeastSquares
