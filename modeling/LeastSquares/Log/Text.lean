import LeastSquares.Decimal.Notation
import LeastSquares.Log.Record

/-!
# Where lines go

Solvers write log records and lines of report.  A logger takes every record from some level on and
prefixes a line with its level; a line of report is for it a record of level `info`.  Standard
output takes the lines of report alone.
-/

namespace LeastSquares.Log

def Record.text : Record Float → String
  | lsmrStopped iterations stop => s!"lsmr stopped after {iterations} iterations: {stop.name}"
  | stoppedEarly iterations stop condition =>
    s!"inner solve stopped early after {iterations} iterations: {stop.name} (cond ~ " ++
      Decimal.scientific 1 condition ++ ")"
  | notPositiveDefinite lambda =>
    "damped normal matrix is not positive definite (lambda = " ++
      Decimal.shortestScientific lambda ++ ")"
  | iteration number residual trial rho lambda =>
    s!"iter {number}: residual " ++ Decimal.scientific 4 residual ++
      " trial " ++ Decimal.scientific 4 trial ++ " rho " ++ Decimal.fixed 3 rho ++
      " lambda " ++ Decimal.scientific 1 lambda

inductive Output (α : Type) where
  | record (r : Record α)
  | line (text : String)
  /-- The blank line before a table, for standard output alone. -/
  | gap

inductive Sink where
  /-- To a logger that takes the records from a level on. -/
  | logger (least : Level)
  | standardOutput

namespace Sink

def labelled (level : Level) (text : String) : String := level.name ++ " " ++ text

def write? : Sink → Output Float → Option String
  | logger least, .record r =>
    if least.rank ≤ r.level.rank then some (labelled r.level r.text) else none
  | logger _, .line text => some (labelled .info text)
  | logger _, .gap => none
  | standardOutput, .record _ => none
  | standardOutput, .line text => some text
  | standardOutput, .gap => some ""

def write (sink : Sink) (outputs : List (Output Float)) : List String :=
  outputs.filterMap sink.write?

end Sink

end LeastSquares.Log
