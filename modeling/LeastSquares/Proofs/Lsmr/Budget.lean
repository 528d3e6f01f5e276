import LeastSquares.Proofs.Lsmr.Run

/-!
# LSMR: the budget of iterations

An iteration does not know the limit on the iterations, which is tested after all other rules.  So a
larger limit takes a solve on from where a smaller one stopped it, and leaves a solve alone that
another rule stopped or that broke off.
-/

namespace LeastSquares.Lsmr

variable {α : Type} [Scalar α] {A : Type} [LinearOperator A α] {a : A} {p : Params α}
  {w : Workspace α} {b x : Array α}

theorem iterate_maxIters (a : A) (p : Params α) (limit further : Nat) (s : State α) :
    iterate a { p with maxIters := limit } further s = iterate a p further s := by
  induction further generalizing s with
  | zero =>
    rw [iterate, iterate]
    rfl
  | succ further ih =>
    rw [iterate, iterate]
    simp only [ih]
    rfl

theorem iterate_add (a : A) (p : Params α) (further more : Nat) (s : State α) :
    iterate a p (further + more + 1) s =
      if (iterate a p further s).2 = some .maxIterations then
        iterate a p more (iterate a p further s).1
      else iterate a p further s := by
  induction further generalizing s with
  | zero =>
    rw [Nat.zero_add, iterate, iterate]
    cases hstep : step a p s with
    | next t => rfl
    | stop t rule => simp [(of_stop hstep).2]
    | brokenOff t => rfl
  | succ further ih =>
    rw [Nat.succ_add, iterate, iterate]
    cases hstep : step a p s with
    | next t => exact ih t
    | stop t rule => simp [(of_stop hstep).2]
    | brokenOff t => rfl

theorem iterate_eq_of_le {further further' : Nat} (hle : further ≤ further') {s : State α}
    (h : (iterate a p further s).2 ≠ some .maxIterations) :
    iterate a p further' s = iterate a p further s := by
  obtain hlt | rfl := Nat.lt_or_eq_of_le hle
  · obtain ⟨more, rfl⟩ := Nat.exists_eq_add_of_lt hlt
    rw [iterate_add, if_neg h]
  · rfl

theorem Head.iteration_lt {s : State α} (head : Head w a b x p s) :
    s.iteration < max 1 p.maxIters := by
  cases head with
  | first => exact Nat.lt_of_lt_of_le Nat.zero_lt_one (Nat.le_max_left _ _)
  | next _ _ more => exact Nat.lt_of_lt_of_le more (Nat.le_max_right _ _)

theorem Exit.iteration_mem {t : State α} {rule : Stop} (exit : Exit w a b x p t rule) :
    1 ≤ t.iteration ∧ t.iteration ≤ max 1 p.maxIters := by
  cases exit with
  | rests => exact ⟨Nat.le_refl _, Nat.le_max_left _ _⟩
  | stopped head stops =>
    rw [(of_stop stops).1]
    exact ⟨Nat.succ_pos _, head.iteration_lt⟩
  | limit head goes =>
    rw [iteration_of_next goes]
    exact ⟨Nat.succ_pos _, head.iteration_lt⟩

theorem solveFitting_maxIters {limit : Nat} (hle : p.maxIters ≤ limit)
    (h : ∀ info, (solveFitting w a b x p).info = some info → info.stop ≠ .maxIterations) :
    solveFitting w a b x { p with maxIters := limit } = solveFitting w a b x p := by
  unfold solveFitting at h ⊢
  split at h
  · rfl
  · rename_i g starts
    dsimp only at h ⊢
    split
    case isTrue => rfl
    case isFalse moves =>
      rw [if_neg moves] at h
      have hrule : (iterate a p (p.maxIters - 1) (State.initial w.hbar x g)).2 ≠
          some .maxIterations := by
        intro hrule
        simp only [State.solution, hrule] at h
        exact h _ rfl rfl
      rw [iterate_maxIters, iterate_eq_of_le (Nat.sub_le_sub_right hle 1) hrule]

theorem solveFitting_of_ok {sol : Solution α} (h : solve w a b x p = .ok sol) :
    solveFitting w a b x p = sol := by
  unfold solve at h
  split_ifs at h
  exact Except.ok.inj h

theorem solve_maxIters {limit : Nat} (hle : p.maxIters ≤ limit)
    (h : ∀ sol info, solve w a b x p = .ok sol → sol.info = some info →
      info.stop ≠ .maxIterations) :
    solve w a b x { p with maxIters := limit } = solve w a b x p := by
  unfold solve at h ⊢
  split_ifs at h ⊢
  · rfl
  · rfl
  · rfl
  · exact congrArg Except.ok (solveFitting_maxIters hle fun info => h _ info rfl)

end LeastSquares.Lsmr
