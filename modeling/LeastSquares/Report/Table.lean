import LeastSquares.Log.Text
import LeastSquares.Marquardt.Basic
import LeastSquares.Report.Grid

/-!
# The table of a solve

A reporter collects the reports of the iterations and prints them as one table when the iterations
are over.  A reporter without reports prints nothing, and one that has printed starts again.  How
the lines of a table are laid out, with the width of the terminal, is not the reporter's business.
-/

namespace LeastSquares.Report

open Marquardt (Event IterationReport Stats)

/-- The reports since the last table, and the layout of a table. -/
structure Reporter (α : Type) where
  rows : Array (IterationReport α)
  layout : Grid → List String

namespace Reporter

variable {α : Type}

/-- The reporter whose tables are as wide as their cells. -/
def empty : Reporter α := ⟨#[], Grid.lines⟩

def collect (r : Reporter α) (report : IterationReport α) : Reporter α :=
  { r with rows := r.rows.push report }

def columns : List (String × Align) :=
  [("iter", .right), ("residual", .right), ("trial", .right), ("rho", .right), ("lambda", .right),
    ("step", .right), ("inner", .right), ("accepted", .left)]

def cells (r : IterationReport Float) : List String :=
  [toString r.iteration, Decimal.scientific 4 r.residual, Decimal.scientific 4 r.trialResidual,
    Decimal.fixed 3 r.rho, Decimal.scientific 1 r.lambda, Decimal.scientific 1 r.stepInf,
    toString r.inner, if r.accepted then "yes" else "no"]

def grid (r : Reporter Float) : Grid where
  header := columns.map Prod.fst
  align := columns.map Prod.snd
  rows := r.rows.toList.map cells

/-- What is printed when the iterations are over, and the reporter afterwards. -/
def finish (r : Reporter Float) : List (Log.Output Float) × Reporter Float :=
  if r.rows.isEmpty then ([], r)
  else (.gap :: (r.layout r.grid).map .line, { r with rows := #[] })

end Reporter

inductive Follower (α : Type) where
  /-- Someone of the caller's own, who prints nothing here. -/
  | caller
  | reporter (r : Reporter α)
  /-- Nobody; a verbose solve then has a reporter of its own. -/
  | nobody

def Follower.printing {α : Type} (verbose : Bool) : Follower α → Option (Reporter α)
  | caller => none
  | reporter r => some r
  | nobody => if verbose then some Reporter.empty else none

/-- Writes out what happened in a solve: every log record in its place, the table of a reporter
where there is one, and the summary of a verbose solve after the table. -/
def transcript (verbose : Bool) (elapsed : String) :
    Option (Reporter Float) → List (Event Float) → List (Log.Output Float) × Option (Reporter Float)
  | reporter, [] => ([], reporter)
  | reporter, event :: rest =>
    match event with
    | .record r =>
      let (outputs, reporter) := transcript verbose elapsed reporter rest
      (.record r :: outputs, reporter)
    | .report r => transcript verbose elapsed (reporter.map (·.collect r)) rest
    | .finished stats =>
      let table := reporter.map Reporter.finish
      let summary := if verbose then [Log.Output.line (stats.summary elapsed)] else []
      let (outputs, reporter) := transcript verbose elapsed (table.map Prod.snd) rest
      ((table.map Prod.fst).getD [] ++ summary ++ outputs, reporter)
    | _ => transcript verbose elapsed reporter rest

end LeastSquares.Report
