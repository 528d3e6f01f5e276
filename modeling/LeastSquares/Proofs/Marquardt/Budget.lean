import LeastSquares.Dense.Matrix
import LeastSquares.Double
import LeastSquares.Proofs.Lsmr.Budget
import LeastSquares.Proofs.Lsmr.Exactness
import LeastSquares.Proofs.Marquardt.History

/-!
# Levenberg–Marquardt: the budget of iterations

An iteration does not know the limit on the iterations, which is tested at the loop head before
anything else.  So a solve with a larger limit comes through the loop heads of one with a smaller
limit, and is the same solve where something else ends the latter.
-/

namespace LeastSquares.Marquardt

variable {α S J P : Type} [Scalar α] [LinearOperator J α] [StepSolver S J α]
  {problem : Problem α J P} {o : Options α}

theorem status_ne_maxIterations {s t : State α S J P} {status : Status}
    (h : s.iterate problem o = .stop t status) : status ≠ .maxIterations := by
  rcases of_iterate_stop h with ⟨_, _, -, -, -, rfl⟩ | ⟨_, _, -, -, -, -, rfl⟩ <;> nofun

theorem iterations_maxIters (problem : Problem α J P) (o : Options α) (limit n : Nat)
    (s : State α S J P) :
    iterations problem { o with maxIters := limit } n s = iterations problem o n s := by
  induction n generalizing s with
  | zero => rfl
  | succ n ih =>
    have hiterate : s.iterate problem { o with maxIters := limit } = s.iterate problem o := rfl
    simp only [iterations, hiterate, ih]

theorem iterations_add (problem : Problem α J P) (o : Options α) (n more : Nat)
    (s : State α S J P) :
    iterations problem o (n + more) s =
      if (iterations problem o n s).2 = some .maxIterations then
        iterations problem o more (iterations problem o n s).1
      else iterations problem o n s := by
  induction n generalizing s with
  | zero => simp [iterations]
  | succ n ih =>
    rw [Nat.succ_add, iterations, iterations]
    split
    · simp
    · cases hiterate : s.iterate problem o with
      | next t => exact ih t
      | stop t status => simp [status_ne_maxIterations hiterate]
      | brokenOff t => simp

section Solves

variable {solver : Solver α S} {p : P} {jacobian : J} {x : Array α}

theorem start_maxIters {limit : Nat} (hle : o.maxIters ≤ limit)
    (h : (Solver.start problem o (solver.begin o p jacobian x)).2 ≠ some .maxIterations) :
    Solver.start problem { o with maxIters := limit }
        (solver.begin { o with maxIters := limit } p jacobian x) =
      Solver.start problem o (solver.begin o p jacobian x) := by
  have hbegin : solver.begin { o with maxIters := limit } p jacobian x =
      solver.begin o p jacobian x := rfl
  obtain ⟨more, rfl⟩ := Nat.exists_eq_add_of_le hle
  rw [hbegin]
  unfold Solver.start at h ⊢
  split
  · rfl
  · rename_i p' residuals hr
    rw [hr] at h
    dsimp only at h ⊢
    split
    case isTrue hfinite =>
      rw [if_pos hfinite] at h
      rw [iterations_maxIters, iterations_add, if_neg h]
    case isFalse => rfl

theorem Solver.solve_maxIters {limit : Nat} (hle : o.maxIters ≤ limit)
    (h : ∀ stats, (solver.solve problem o p jacobian x).ending = .finished stats →
      stats.status ≠ .maxIterations) :
    solver.solve problem { o with maxIters := limit } p jacobian x =
      solver.solve problem o p jacobian x := by
  cases fits : solver.misfit? jacobian x with
  | some e => simp only [solve, fits]
  | none =>
    have hstart : (start problem o (solver.begin o p jacobian x)).2 ≠ some .maxIterations := by
      intro hlimit
      cases hs : start problem o (solver.begin o p jacobian x) with
      | mk t status =>
        obtain rfl : status = some .maxIterations := by rw [hs] at hlimit; exact hlimit
        simp only [solve, fits, hs] at h
        exact h _ rfl rfl
    simp only [solve, fits, start_maxIters hle hstart]

theorem Head.of_le {k limit : Nat} {s : State α S J P}
    (head : Head solver problem o p jacobian x k s) (hle : k ≤ limit) :
    Head solver problem { o with maxIters := limit } p jacobian x k s := by
  induction head with
  | first fits evaluates finite => exact .first fits evaluates finite
  | next _ _ nonzero goes ih => exact (ih (Nat.le_of_succ_le hle)).next hle nonzero goes

theorem Head.isPrefix_events {k : Nat} {s : State α S J P}
    (head : Head solver problem o p jacobian x k s) :
    s.events.toList <+: (solver.solve problem o p jacobian x).events.toList := by
  have hlasting : Lasting o fun events _ => s.events.toList <+: events.toList := by
    intro events _ h e _
    rw [Array.toList_push]
    exact h.trans (List.prefix_append _ _)
  obtain ⟨fits, hstart⟩ := start_of_head head
  have hs : s.Upholds fun events _ => s.events.toList <+: events.toList := List.prefix_refl _
  have hlast : (iterations problem o (o.maxIters - k) s).1.Upholds fun events _ =>
      s.events.toList <+: events.toList := hs.iterations hlasting _
  rw [← hstart] at hlast
  obtain ⟨-, h⟩ := hlasting.solve fits hlast
  exact h

theorem head_of_maxIterations {stats : Stats α}
    (h : (solver.solve problem o p jacobian x).ending = .finished stats)
    (hstatus : stats.status = .maxIterations) :
    ∃ t, Head solver problem o p jacobian x o.maxIters t ∧ stats = t.stats .maxIterations ∧
      solver.solve problem o p jacobian x =
        solver.leave t (.finished stats) (t.events.push (.finished stats)) := by
  obtain ⟨t, status, exit, rfl, hrun⟩ := exit_of_finished h
  obtain rfl : status = .maxIterations := hstatus
  cases exit with
  | limit head => exact ⟨t, head, rfl, hrun⟩
  | stopped _ _ _ stops => exact absurd rfl (status_ne_maxIterations stops)

/-- A larger limit on the outer iterations of a solve.  The solve comes through the loop heads that
the smaller limit allows.  Where something else ends the solve with the smaller limit, it is the
same solve; where the limit does, that solve has made as many iterations as it was allowed, and the
larger one begins with all that happened in them. -/
structure Truncates (solver : Solver α S) (problem : Problem α J P) (o : Options α) (p : P)
    (jacobian : J) (x : Array α) (limit : Nat) : Prop where
  heads : ∀ k ≤ o.maxIters, ∀ s, Head solver problem { o with maxIters := limit } p jacobian x k s ↔
    Head solver problem o p jacobian x k s
  same : (∀ stats, (solver.solve problem o p jacobian x).ending = .finished stats →
      stats.status ≠ .maxIterations) →
    solver.solve problem { o with maxIters := limit } p jacobian x =
      solver.solve problem o p jacobian x
  begins : ∀ stats, (solver.solve problem o p jacobian x).ending = .finished stats →
    stats.status = .maxIterations → stats.outer = o.maxIters ∧
      ∃ t, Head solver problem o p jacobian x o.maxIters t ∧
        (solver.solve problem o p jacobian x).events = t.events.push (.finished stats) ∧
        t.events.toList <+:
          (solver.solve problem { o with maxIters := limit } p jacobian x).events.toList

theorem truncates_of_le {limit : Nat} (hle : o.maxIters ≤ limit) :
    Truncates solver problem o p jacobian x limit where
  heads k hk s := ⟨fun head => head.of_le hk, fun head => head.of_le (hk.trans hle)⟩
  same h := Solver.solve_maxIters hle h
  begins stats h hstatus := by
    obtain ⟨t, head, rfl, hrun⟩ := head_of_maxIterations h hstatus
    exact ⟨outer_of_head head, t, head, by rw [hrun]; rfl, (head.of_le hle).isPrefix_events⟩

end Solves

/-- A budget of iterations only truncates.  An LSMR solve counts at least one iteration and at most
as many as its limit allows beyond that, and a larger limit changes it only where the smaller one
stopped it.  So it is with the outer iterations of a solve, whatever the numbers are. -/
theorem budget_truncates :
    (∀ {α A : Type} [Scalar α] [LinearOperator A α] (w : Lsmr.Workspace α) (a : A) (b x : Array α)
      (p : Lsmr.Params α),
      (∀ sol info, Lsmr.solve w a b x p = .ok sol → sol.info = some info →
        1 ≤ info.iterations ∧ info.iterations ≤ max 1 p.maxIters) ∧
      ∀ limit, p.maxIters ≤ limit →
        (∀ sol info, Lsmr.solve w a b x p = .ok sol → sol.info = some info →
          info.stop ≠ .maxIterations) →
        Lsmr.solve w a b x { p with maxIters := limit } = Lsmr.solve w a b x p) ∧
    ∀ {α S J P : Type} [Scalar α] [LinearOperator J α] [StepSolver S J α] (solver : Solver α S)
      (problem : Problem α J P) (o : Options α) (p : P) (jacobian : J) (x : Array α) (limit : Nat),
      o.maxIters ≤ limit → Truncates solver problem o p jacobian x limit := by
  refine ⟨fun w a b x p => ⟨fun sol info hsol hinfo => ?_, fun limit hle h => ?_⟩,
    fun solver problem o p jacobian x limit => truncates_of_le⟩
  · obtain rfl := Lsmr.solveFitting_of_ok hsol
    obtain ⟨t, rule, exit, rfl, -⟩ := Lsmr.exit_of_info hinfo
    exact exit.iteration_mem
  · exact Lsmr.solve_maxIters hle h

/-- An exact LSMR solve that ends within its limit, and a script with a zero residual after one step
that a limit of one does not see. -/
theorem budget_truncates_few :
    let a : Dense.Matrix ℝ := .ofFn 2 3 fun _ _ => 1
    let few : Lsmr.Params ℝ := ⟨0, 0, 0, 2, 0⟩
    let solver := Script.solver 1 1 [some (#[-1], 0)]
    let jacobian : Dense.Matrix Float := .ofFn 1 1 fun _ _ => 1
    let once := { (Options.default : Options Float) with maxIters := 1 }
    let twice := { (Options.default : Options Float) with maxIters := 2 }
    let often := { (Options.default : Options Float) with maxIters := 9 }
    (∃ sol info, Lsmr.solve (.new 2 3) a #[1, 2] #[0, 0, 0] few = .ok sol ∧
      sol.info = some info ∧ 1 ≤ info.iterations ∧ info.iterations ≤ 2 ∧
      Lsmr.solve (.new 2 3) a #[1, 2] #[0, 0, 0] { few with maxIters := 50 } = .ok sol) ∧
    (∃ stats t, (solver.solve identityProblem once () jacobian #[1]).ending = .finished stats ∧
      stats.status = .maxIterations ∧ stats.outer = 1 ∧
      Head solver identityProblem once () jacobian #[1] 1 t ∧
      t.events.toList <+: (solver.solve identityProblem often () jacobian #[1]).events.toList) ∧
    solver.solve identityProblem often () jacobian #[1] =
      solver.solve identityProblem twice () jacobian #[1] := by
  intro a few solver jacobian once twice often
  obtain ⟨hlsmr, hmarquardt⟩ := budget_truncates
  refine ⟨?_, ?_, ?_⟩
  · have ha : Exact.Realizes a (Exact.linear 2 3 a) := Exact.realizes_ofFn 2 3 _
    have hrhs : (#[1, 2] : Array ℝ).size = 2 := rfl
    have hx : (#[0, 0, 0] : Array ℝ).size = 3 := rfl
    have hok := Lsmr.solve_eq_ok ha (Lsmr.Workspace.sized_new 2 3) hrhs hx few
    obtain ⟨info, hinfo, -, hstop⟩ := (Lsmr.solveFitting_exact (p := few) ha
      (Lsmr.Workspace.sized_new 2 3) hrhs hx ⟨rfl, rfl, le_rfl⟩ (by decide)).info
    obtain ⟨hcount, hsame⟩ := hlsmr (.new 2 3) a #[1, 2] #[0, 0, 0] few
    obtain ⟨hpos, hle⟩ := hcount _ info hok hinfo
    refine ⟨_, info, hok, hinfo, hpos, hle, (hsame 50 (by decide) ?_).trans hok⟩
    intro sol' info' hsol' hinfo'
    obtain rfl := Except.ok.inj (hok.symm.trans hsol')
    obtain rfl := Option.some.inj (hinfo.symm.trans hinfo')
    exact hstop
  · have hrun : ((solver.solve identityProblem once () jacobian #[1]).ending.stats?.any fun stats =>
        decide (stats.status = .maxIterations)) = true := by
      decide +kernel
    obtain ⟨stats, hstats, h⟩ := Ending.exists_of_any hrun
    have htruncates := hmarquardt solver identityProblem once () jacobian #[1] 9 (by decide)
    obtain ⟨houter, t, head, -, hprefix⟩ := htruncates.begins stats hstats (of_decide_eq_true h)
    exact ⟨stats, t, hstats, of_decide_eq_true h, houter, head, hprefix⟩
  · have hrun : ((solver.solve identityProblem twice () jacobian #[1]).ending.stats?.any
        fun stats => decide (stats.status = .convergedResidual)) = true := by
      decide +kernel
    obtain ⟨stats, hstats, h⟩ := Ending.exists_of_any hrun
    have htruncates := hmarquardt solver identityProblem twice () jacobian #[1] 9 (by decide)
    refine htruncates.same fun stats' hstats' => ?_
    obtain rfl := Ending.finished.inj (hstats.symm.trans hstats')
    rw [of_decide_eq_true h]
    nofun

end LeastSquares.Marquardt
