import LeastSquares.Lsmr.Basic

/-!
# Log records

What the solvers note while they run, as data.  A record has a level; its text is written where it
is printed.
-/

namespace LeastSquares.Log

inductive Level where
  | trace
  | debug
  | info
  deriving Repr, DecidableEq

namespace Level

def name : Level → String
  | trace => "TRACE"
  | debug => "DEBUG"
  | info => "INFO"

def rank : Level → Nat
  | trace => 0
  | debug => 1
  | info => 2

end Level

inductive Record (α : Type) where
  /-- An LSMR solve that made iterations came to its end. -/
  | lsmrStopped (iterations : Nat) (stop : Lsmr.Stop)
  | stoppedEarly (iterations : Nat) (stop : Lsmr.Stop) (condition : α)
  | notPositiveDefinite (lambda : α)
  | iteration (number : Nat) (residual trial rho lambda : α)
  deriving Repr

def Record.level {α : Type} : Record α → Level
  | lsmrStopped .. | iteration .. => .trace
  | stoppedEarly .. | notPositiveDefinite .. => .debug

end LeastSquares.Log
