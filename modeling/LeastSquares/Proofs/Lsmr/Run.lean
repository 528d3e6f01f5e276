import Mathlib.Tactic.SplitIfs
import LeastSquares.Lsmr.Solve

/-!
# LSMR: loop heads and exits

`Head s` says that a solve stands at the head of its loop in the state `s`, and `Exit t rule` that
it ends in `t`.  A solve that comes to its end answers what its exit holds, so a property that every
iteration keeps is one of every answer, whichever rule stops the solve and after however many
iterations.
-/

namespace LeastSquares.Lsmr

variable {α : Type} [Scalar α] {A : Type} [LinearOperator A α]

def Step.state? : Step α → Option (State α)
  | .next s => some s
  | .stop s _ => some s
  | .brokenOff _ => none

section

variable (w : Workspace α) (a : A) (b x : Array α) (p : Params α)

/-- The loop heads of a solve.  The first iteration is always made. -/
inductive Head : State α → Prop
  | first {g : Basis α} (starts : firstBasis w a b x = .done g)
      (moves : ((State.initial w.hbar x g).normAr == 0) = false) : Head (State.initial w.hbar x g)
  | next {s t : State α} (head : Head s) (goes : step a p s = .next t)
      (more : t.iteration < p.maxIters) : Head t

inductive Exit : State α → Stop → Prop
  | rests {g : Basis α} (starts : firstBasis w a b x = .done g)
      (zero : ((State.initial w.hbar x g).normAr == 0) = true) :
      Exit { State.initial w.hbar x g with iteration := 1 } .exactFit
  | stopped {s t : State α} {rule : Stop} (head : Head w a b x p s)
      (stops : step a p s = .stop t rule) : Exit t rule
  | limit {s t : State α} (head : Head w a b x p s) (goes : step a p s = .next t)
      (full : p.maxIters ≤ t.iteration) : Exit t .maxIterations

end

variable {w : Workspace α} {a : A} {b x : Array α} {p : Params α} {s t : State α} {rule : Stop}

theorem Head.moves (head : Head w a b x p s) {g : Basis α} (starts : firstBasis w a b x = .done g) :
    ((State.initial w.hbar x g).normAr == 0) = false := by
  induction head with
  | first starts' moves =>
    cases starts'.symm.trans starts
    exact moves
  | next _ _ _ ih => exact ih

theorem Exit.eq_rest {g : Basis α} (starts : firstBasis w a b x = .done g)
    (zero : ((State.initial w.hbar x g).normAr == 0) = true) (h : Exit w a b x p t rule) :
    t = { State.initial w.hbar x g with iteration := 1 } ∧ rule = .exactFit := by
  cases h with
  | rests starts' =>
    cases starts.symm.trans starts'
    exact ⟨rfl, rfl⟩
  | stopped head => simp [head.moves starts] at zero
  | limit head => simp [head.moves starts] at zero

theorem iteration_of_next (h : step a p s = .next t) : t.iteration = s.iteration + 1 := by
  unfold step at h
  dsimp only at h
  split at h
  · cases h
  · split at h
    · cases h
    · split at h
      · cases h
      · cases h
        rfl

theorem State.stopRule?_ne_maxIterations (p : Params α) (s : State α) :
    s.stopRule? p ≠ some .maxIterations := by
  unfold stopRule?
  dsimp only
  split_ifs <;> nofun

theorem of_stop (h : step a p s = .stop t rule) :
    t.iteration = s.iteration + 1 ∧ rule ≠ .maxIterations := by
  unfold step at h
  dsimp only at h
  split at h
  · cases h
  · split at h
    · cases h
      exact ⟨rfl, nofun⟩
    · split at h
      · rename_i hrule
        cases h
        refine ⟨rfl, ?_⟩
        rintro rfl
        exact State.stopRule?_ne_maxIterations p _ hrule
      · cases h

/-- The budget of an iteration counts what is left of the limit. -/
theorem exit_of_iterate {further : Nat} (head : Head w a b x p s)
    (budget : s.iteration + further + 1 = max 1 p.maxIters)
    (h : iterate a p further s = (t, some rule)) : Exit w a b x p t rule := by
  induction further generalizing s with
  | zero =>
    unfold iterate at h
    split at h
    · rename_i s' hs
      obtain ⟨rfl, rfl⟩ : s' = t ∧ Stop.maxIterations = rule := by simpa using h
      have hcount := iteration_of_next hs
      exact .limit head hs (by omega)
    · rename_i s' rule' hs
      obtain ⟨rfl, rfl⟩ : s' = t ∧ rule' = rule := by simpa using h
      exact .stopped head hs
    · simp at h
  | succ further ih =>
    unfold iterate at h
    split at h
    · rename_i s' hs
      have hcount := iteration_of_next hs
      exact ih (head.next hs (by omega)) (by omega) h
    · rename_i s' rule' hs
      obtain ⟨rfl, rfl⟩ : s' = t ∧ rule' = rule := by simpa using h
      exact .stopped head hs
    · simp at h

/-- A solve that comes to its end does so at an exit, and answers what the exit holds. -/
theorem exit_of_info {info : Info α} (h : (solveFitting w a b x p).info = some info) :
    ∃ t rule, Exit w a b x p t rule ∧ info = t.info rule ∧ (solveFitting w a b x p).x = t.x ∧
      (solveFitting w a b x p).workspace = t.workspace := by
  unfold solveFitting at h ⊢
  split at h
  · cases h
  · rename_i g starts
    dsimp only at h ⊢
    split at h
    case isTrue zero =>
      simp only [Option.some.injEq] at h
      subst h
      rw [if_pos zero]
      exact ⟨_, .exactFit, .rests starts zero, rfl, rfl, rfl⟩
    case isFalse moves =>
      rw [if_neg moves]
      cases hiterate : iterate a p (p.maxIters - 1) (State.initial w.hbar x g) with
      | mk t rule =>
        simp only [hiterate, State.solution, Option.map_eq_some_iff] at h
        obtain ⟨rule, rfl, rfl⟩ := h
        have budget : (State.initial w.hbar x g).iteration + (p.maxIters - 1) + 1 =
            max 1 p.maxIters := by
          simp only [State.initial]
          omega
        exact ⟨t, rule, exit_of_iterate (.first starts (by simpa using moves)) budget hiterate,
          rfl, rfl, rfl⟩

theorem solveFitting_of_first_stop {g : Basis α} (starts : firstBasis w a b x = .done g)
    (moves : ((State.initial w.hbar x g).normAr == 0) = false)
    (stops : step a p (State.initial w.hbar x g) = .stop t rule) :
    solveFitting w a b x p = t.solution (some rule) := by
  have hiterate : iterate a p (p.maxIters - 1) (State.initial w.hbar x g) = (t, some rule) := by
    unfold iterate
    rw [stops]
  simp [solveFitting, starts, moves, hiterate]

theorem iterate_ends {Good : State α → Prop}
    (ends : ∀ s, Good s → (step a p s).state?.isSome ∧ ∀ t, step a p s = .next t → Good t)
    (further : Nat) (hs : Good s) : ∃ t rule, iterate a p further s = (t, some rule) := by
  induction further generalizing s with
  | zero =>
    unfold iterate
    have hsome := (ends s hs).1
    cases hstep : step a p s with
    | next t => exact ⟨t, _, rfl⟩
    | stop t rule => exact ⟨t, rule, rfl⟩
    | brokenOff t => simp [hstep, Step.state?] at hsome
  | succ further ih =>
    unfold iterate
    obtain ⟨hsome, hnext⟩ := ends s hs
    cases hstep : step a p s with
    | next t => exact ih (hnext t hstep)
    | stop t rule => exact ⟨t, rule, rfl⟩
    | brokenOff t => simp [hstep, Step.state?] at hsome

end LeastSquares.Lsmr
