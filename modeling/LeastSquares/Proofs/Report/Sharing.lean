import Mathlib
import LeastSquares.Proofs.Marquardt.Interval
import LeastSquares.Report.Watch

/-!
# One reporter for many solves

A reporter may be shared: solves of any kind report to it one after another, and a caller may call
it directly in between.  Where a use ends, it prints the reports since the end before it and no
others.  A solve that comes to its end ends the reporter's table once, after its last event, and a
solve that is refused does not touch the reporter, so among solves every table is that of its own
solve.
-/

namespace LeastSquares.Report

open Log (Output)
open Marquardt

/-! ### What a table shows -/

/-- What is printed of a report: its number, its residual and the one that was tried, the gain
ratio, the damping, the step, the inner iterations and whether the step was accepted. -/
def texts (r : IterationReport Float) : List String :=
  [toString r.iteration, Decimal.scientific 4 r.residual, Decimal.scientific 4 r.trialResidual,
    Decimal.fixed 3 r.rho, Decimal.scientific 1 r.lambda, Decimal.scientific 1 r.stepInf,
    toString r.inner, if r.accepted then "yes" else "no"]

def sheet (rs : List (IterationReport Float)) : Grid where
  header := ["iter", "residual", "trial", "rho", "lambda", "step", "inner", "accepted"]
  align := [.right, .right, .right, .right, .right, .right, .right, .left]
  rows := rs.map texts

/-- The table of the given reports below a blank line; without reports there is none. -/
def table (layout : Grid → List String) (rs : List (IterationReport Float)) :
    List (Output Float) :=
  match rs with
  | [] => []
  | _ :: _ => .gap :: (layout (sheet rs)).map .line

/-- The line shows the texts, each between blanks. -/
def Frames (line : String) (texts : List String) : Prop :=
  ∃ cells, line = "│" ++ "┆".intercalate cells ++ "│" ∧
    List.Forall₂ (fun cell text => ∃ before after, cell =
      String.ofList (List.replicate before ' ') ++ text ++
        String.ofList (List.replicate after ' ')) cells texts

/-- Nothing where there are no reports, and else a blank line, three lines of header and one row for
each report in order, with a rule below each. -/
structure Shows (outputs : List (Output Float)) (rs : List (IterationReport Float)) : Prop where
  nothing : rs = [] → outputs = []
  gap : rs ≠ [] → outputs[0]? = some .gap
  length : rs ≠ [] → outputs.length = 2 * rs.length + 4
  row : ∀ i r, rs[i]? = some r →
    ∃ line, outputs[2 * i + 4]? = some (.line line) ∧ Frames line (texts r)

namespace Grid

end Grid

section Solves

variable {S J P : Type} [LinearOperator J Float] [StepSolver S J Float] {solver : Solver Float S}
  {problem : Problem Float J P} {o : Options Float} {p : P} {jacobian : J} {x : Array Float}

end Solves

/-! ### Uses of a reporter -/

inductive Use : Type 1 where
  | iteration (report : IterationReport Float)
  | finish
  | solve {S J P : Type} [LinearOperator J Float] [StepSolver S J Float] (solver : Solver Float S)
      (problem : Problem Float J P) (o : Options Float) (p : P) (jacobian : J) (x : Array Float)
      (elapsed : String)

namespace Use

/-- Where the use is a solve, it has an answer: statistics or a refusal. -/
def Completes : Use → Prop
  | iteration _ | finish => True
  | solve solver problem o p jacobian x _ =>
    (solver.solve problem o p jacobian x).ending ≠ .brokenOff

def received : Use → List (IterationReport Float)
  | iteration report => [report]
  | finish => []
  | solve solver problem o p jacobian x _ =>
    reports (solver.solve problem o p jacobian x).events.toList

def ends : Use → Bool
  | iteration _ => false
  | finish => true
  | solve solver problem o p jacobian x _ =>
    (solver.solve problem o p jacobian x).ending.stats?.isSome

/-- The rows of the table that is printed in a use, where the reports `waiting` came before it. -/
def rows (waiting : List (IterationReport Float)) (use : Use) : List (IterationReport Float) :=
  if use.ends then waiting ++ use.received else []

def left (waiting : List (IterationReport Float)) (use : Use) : List (IterationReport Float) :=
  if use.ends then [] else waiting ++ use.received

end Use

/-! ### Sessions -/

def waiting (uses : List Use) : List (IterationReport Float) :=
  (uses.rtakeWhile (!·.ends)).flatMap Use.received

end LeastSquares.Report
