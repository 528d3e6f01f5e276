import LeastSquares.Proofs.Marquardt.Pass

/-!
# Levenberg–Marquardt: loop heads and exits

`Head k s` says that a solve stands at the head of its loop in the state `s` after `k` iterations,
and `Exit t status` that it ends in `t`.  A solve that comes to its end leaves behind what its exit
holds, so a property that every pass keeps is one of every finished solve.
-/

namespace LeastSquares.Marquardt

structure Buffers.Sized {α : Type} (nrows ncols : Nat) (b : Buffers α) : Prop where
  residuals : b.residuals.size = nrows
  trialResiduals : b.trialResiduals.size = nrows
  predicted : b.predicted.size = nrows
  dtd : b.dtd.size = ncols
  step : b.step.size = ncols
  trialPoint : b.trialPoint.size = ncols

theorem Buffers.sized_new {α : Type} [Scalar α] (nrows ncols : Nat) :
    (Buffers.new nrows ncols : Buffers α).Sized nrows ncols := by
  constructor <;> simp [Buffers.new, Vec.zeros]

variable {α S J P : Type} [Scalar α] [LinearOperator J α] [StepSolver S J α]

section

variable (solver : Solver α S) (problem : Problem α J P) (o : Options α) (p : P) (jacobian : J)
  (x : Array α)

def Solver.evaluated (p' : P) (residuals : Array α) : State α S J P :=
  { solver.begin o p jacobian x with
    problem := p'
    buffers.residuals := residuals
    residual := Vec.dot residuals residuals }

/-- The loop heads of a solve, with the number of iterations before them. -/
inductive Head : Nat → State α S J P → Prop
  | first {p' : P} {r : Array α} (fits : solver.misfit? jacobian x = none)
      (evaluates : problem.residuals p x solver.buffers.residuals = .done (p', r))
      (finite : Scalar.isFinite (Vec.dot r r) = true) :
      Head 0 (solver.evaluated o p jacobian x p' r)
  | next {k : Nat} {s t : State α S J P} (head : Head k s) (more : k < o.maxIters)
      (nonzero : (s.residual == 0) = false) (goes : s.iterate problem o = .next t) :
      Head (k + 1) t

/-- The states and statuses in which a solve can come to its end. -/
inductive Exit : State α S J P → Status → Prop
  | failure {p' : P} {r : Array α} (fits : solver.misfit? jacobian x = none)
      (evaluates : problem.residuals p x solver.buffers.residuals = .done (p', r))
      (infinite : Scalar.isFinite (Vec.dot r r) = false) :
      Exit { solver.evaluated o p jacobian x p' r with stepInf := Scalar.infinity }
        .numericalFailure
  | limit {s : State α S J P} (head : Head solver problem o p jacobian x o.maxIters s) :
      Exit s .maxIterations
  | zero {k : Nat} {s : State α S J P} (head : Head solver problem o p jacobian x k s)
      (more : k < o.maxIters) (iszero : (s.residual == 0) = true) : Exit s .convergedResidual
  | stopped {k : Nat} {s t : State α S J P} {status : Status}
      (head : Head solver problem o p jacobian x k s) (more : k < o.maxIters)
      (nonzero : (s.residual == 0) = false) (stops : s.iterate problem o = .stop t status) :
      Exit t status

end

variable {solver : Solver α S} {problem : Problem α J P} {o : Options α} {p : P} {jacobian : J}
  {x : Array α}

theorem exit_of_iterations {n k : Nat} {s t : State α S J P} {status : Status}
    (head : Head solver problem o p jacobian x k s) (hn : k + n = o.maxIters)
    (h : iterations problem o n s = (t, some status)) :
    Exit solver problem o p jacobian x t status := by
  induction n generalizing k s with
  | zero =>
    obtain ⟨rfl, rfl⟩ : s = t ∧ Status.maxIterations = status := by simpa [iterations] using h
    rw [Nat.add_zero] at hn
    exact .limit (hn ▸ head)
  | succ n ih =>
    have more : k < o.maxIters := by omega
    unfold iterations at h
    split at h
    case isTrue hz =>
      obtain ⟨rfl, rfl⟩ : s = t ∧ Status.convergedResidual = status := by simpa using h
      exact .zero head more hz
    case isFalse hz =>
      have nonzero : (s.residual == 0) = false := by simpa using hz
      split at h
      · rename_i s' hs
        exact ih (head.next more nonzero hs) (by omega) h
      · rename_i s' status' hs
        obtain ⟨rfl, rfl⟩ : s' = t ∧ status' = status := by simpa using h
        exact .stopped head more nonzero hs
      · simp at h

theorem exit_of_start {t : State α S J P} {status : Status}
    (fits : solver.misfit? jacobian x = none)
    (h : Solver.start problem o (solver.begin o p jacobian x) = (t, some status)) :
    Exit solver problem o p jacobian x t status := by
  unfold Solver.start at h
  cases hr : problem.residuals p x solver.buffers.residuals with
  | brokenOff pr =>
    simp only [Solver.begin, hr] at h
    simp at h
  | done pr =>
    obtain ⟨p', r⟩ := pr
    simp only [Solver.begin, hr] at h
    split at h
    case isTrue hf =>
      exact exit_of_iterations (.first fits hr hf) (Nat.zero_add _) h
    case isFalse hf =>
      obtain ⟨rfl, hstatus⟩ := Prod.mk.inj h
      cases hstatus
      exact .failure fits hr (by simpa using hf)

theorem exit_of_finished {stats : Stats α}
    (h : (solver.solve problem o p jacobian x).ending = .finished stats) :
    ∃ t status, Exit solver problem o p jacobian x t status ∧ stats = t.stats status ∧
      solver.solve problem o p jacobian x =
        solver.leave t (.finished stats) (t.events.push (.finished stats)) := by
  unfold Solver.solve at h ⊢
  cases fits : solver.misfit? jacobian x with
  | some e => simp [fits] at h
  | none =>
    simp only [fits] at h ⊢
    split at h
    · rename_i t status ht
      obtain rfl : t.stats status = stats := by simpa [Solver.leave] using h
      exact ⟨t, status, exit_of_start fits ht, rfl, rfl⟩
    · simp [Solver.leave] at h

theorem start_of_head {k : Nat} {s : State α S J P}
    (head : Head solver problem o p jacobian x k s) :
    solver.misfit? jacobian x = none ∧
      Solver.start problem o (solver.begin o p jacobian x) =
        iterations problem o (o.maxIters - k) s := by
  induction head with
  | first fits evaluates finite =>
    refine ⟨fits, ?_⟩
    simp only [Solver.start, Solver.begin, evaluates, finite]
    rfl
  | @next k s t _ more nonzero goes ih =>
    refine ⟨ih.1, ih.2.trans ?_⟩
    have hleft : o.maxIters - k = o.maxIters - (k + 1) + 1 := by omega
    rw [hleft, iterations, if_neg (by simp [nonzero]), goes]

theorem start_of_exit {t : State α S J P} {status : Status}
    (exit : Exit solver problem o p jacobian x t status) :
    solver.misfit? jacobian x = none ∧
      Solver.start problem o (solver.begin o p jacobian x) = (t, some status) := by
  cases exit with
  | failure fits evaluates infinite =>
    refine ⟨fits, ?_⟩
    simp only [Solver.start, Solver.begin, evaluates, infinite]
    rfl
  | limit head =>
    obtain ⟨fits, hstart⟩ := start_of_head head
    exact ⟨fits, by rw [hstart, Nat.sub_self, iterations]⟩
  | @zero k s head more iszero =>
    obtain ⟨fits, hstart⟩ := start_of_head head
    have hleft : o.maxIters - k = o.maxIters - (k + 1) + 1 := by omega
    exact ⟨fits, by rw [hstart, hleft, iterations, if_pos iszero]⟩
  | @stopped k s t status head more nonzero stops =>
    obtain ⟨fits, hstart⟩ := start_of_head head
    have hleft : o.maxIters - k = o.maxIters - (k + 1) + 1 := by omega
    exact ⟨fits, by rw [hstart, hleft, iterations, if_neg (by simp [nonzero]), stops]⟩

theorem solve_of_exit {t : State α S J P} {status : Status}
    (exit : Exit solver problem o p jacobian x t status) :
    solver.solve problem o p jacobian x =
      solver.leave t (.finished (t.stats status)) (t.events.push (.finished (t.stats status))) := by
  obtain ⟨fits, hstart⟩ := start_of_exit exit
  simp only [Solver.solve, fits, hstart]

theorem finished_of_exit {t : State α S J P} {status : Status}
    (exit : Exit solver problem o p jacobian x t status) :
    (solver.solve problem o p jacobian x).ending = .finished (t.stats status) := by
  rw [solve_of_exit exit]
  rfl

theorem outer_of_head {k : Nat} {s : State α S J P}
    (head : Head solver problem o p jacobian x k s) : s.outer = k := by
  induction head with
  | first => rfl
  | next _ _ _ goes ih => exact (outer_of_iterate (congrArg Step.state? goes)).trans (by rw [ih])

end LeastSquares.Marquardt
