import LeastSquares.Double
import LeastSquares.Dense.NormalEquations
import LeastSquares.Lsmr.DampedStep
import LeastSquares.Marquardt.Solve
import LeastSquares.Report.Watch
import LeastSquares.Sparse.Matrix
import LeastSquares.Proofs.Lsmr.Stopping
import LeastSquares.Proofs.Marquardt.Acceptance
import LeastSquares.Proofs.Marquardt.Agreement
import LeastSquares.Proofs.Marquardt.Coherence
import LeastSquares.Proofs.Marquardt.Reuse
import LeastSquares.Proofs.Marquardt.Freshness
import LeastSquares.Proofs.Lsmr.Progress
import LeastSquares.Proofs.Lsmr.TruncatedStep
import LeastSquares.Proofs.Marquardt.Invariant
import LeastSquares.Proofs.Marquardt.Progress
import LeastSquares.Proofs.Lsmr.Subspace
import LeastSquares.Proofs.Marquardt.Frozen
import LeastSquares.Proofs.Lsmr.Rescaling
import LeastSquares.Proofs.Lsmr.Units
import LeastSquares.Proofs.Marquardt.Reports
import LeastSquares.Proofs.Double.Largest
import LeastSquares.Proofs.Marquardt.LastIteration
import LeastSquares.Proofs.Marquardt.Status
import LeastSquares.Proofs.Marquardt.Stationary
import LeastSquares.Proofs.Sparse.Entries
import LeastSquares.Proofs.Marquardt.Completion
import LeastSquares.Proofs.Marquardt.Storage
import LeastSquares.Proofs.Sparse.Writing
import LeastSquares.Proofs.Lsmr.Augmented
import LeastSquares.Proofs.Marquardt.Decrease
import LeastSquares.Proofs.Lsmr.Homogeneity
import LeastSquares.Proofs.Lsmr.Divisors
import LeastSquares.Proofs.Marquardt.Shrinkage
import LeastSquares.Proofs.Marquardt.Renumbering
import LeastSquares.Proofs.Marquardt.Units
import LeastSquares.Proofs.Marquardt.Interval
import LeastSquares.Proofs.Marquardt.Leftovers
import LeastSquares.Proofs.Marquardt.Budget
import LeastSquares.Proofs.Sparse.Words
import LeastSquares.Proofs.Lsmr.OperatorNorm
import LeastSquares.Proofs.Report.Sharing
