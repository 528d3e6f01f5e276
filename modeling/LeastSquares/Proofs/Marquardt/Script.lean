import LeastSquares.Marquardt.Solve

/-!
# Levenberg–Marquardt: scripted step solvers

A step solver that reads its answers from a list, whatever it is asked.  It stands for every step
solver: a solve sees no more of one than the answers that it gets.
-/

namespace LeastSquares.Marquardt

structure Script (α : Type) where
  answers : List (Option (Array α × Nat))

/-- The next answer of a script; after the last one there is no step any more. -/
def Script.next {α : Type} (script : Script α) (step : Array α) :
    Outcome (StepAnswer (Script α) α) :=
  match script.answers with
  | [] => .done ⟨script, step, none, []⟩
  | none :: rest => .done ⟨⟨rest⟩, step, none, []⟩
  | some (answer, inner) :: rest =>
    if answer.size = step.size then .done ⟨⟨rest⟩, answer, some inner, []⟩
    else .brokenOff ⟨⟨rest⟩, step, none, []⟩

instance {α J : Type} : StepSolver (Script α) J α where
  fits _ _ _ := true
  solveStep script _ _ _ _ step := script.next step

def Script.solver {α : Type} [Scalar α] (nrows ncols : Nat)
    (answers : List (Option (Array α × Nat))) : Solver α (Script α) :=
  ⟨nrows, ncols, ⟨answers⟩, Buffers.new nrows ncols⟩

def identityProblem {α J : Type} : Problem α J Unit where
  residuals p x _ := .done (p, x)
  jacobian p _ jacobian := .done (p, jacobian)

def Ending.stats? {α : Type} : Ending α → Option (Stats α)
  | .finished stats => some stats
  | _ => none

theorem Ending.exists_of_any {α : Type} {ending : Ending α} {test : Stats α → Bool}
    (h : ending.stats?.any test = true) : ∃ stats, ending = .finished stats ∧ test stats = true :=
  match ending, h with
  | .finished stats, h => ⟨stats, rfl, h⟩

end LeastSquares.Marquardt
