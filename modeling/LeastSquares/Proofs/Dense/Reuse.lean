import LeastSquares.Dense.NormalEquations
import LeastSquares.Proofs.Operators.Overwriting
import LeastSquares.Proofs.StepAnswer

/-!
# Damped normal equations: used workspaces

The normal equations are formed anew for every problem, so their workspace shows in nothing but the
step buffer of a problem that is not solved, which stays as it was.
-/

namespace LeastSquares.Dense.NormalEquations

variable {α : Type} [Scalar α] {s s' : NormalEquations α} {n : Nat} {step step' : Array α}

/-- Two workspaces for `n` parameters, whatever they hold. -/
def Alike (n : Nat) (s s' : NormalEquations α) : Prop := s.ncols = n ∧ s'.ncols = n

omit [Scalar α] in
theorem solveInto_alike (F : Factorization α) (hrhs : s.rhs = s'.rhs) (factor : Triangle α)
    (hstep : step.size = n) (hstep' : step'.size = n) :
    Outcome.Alike (StepAnswer.Charted n id (Alike n)) (fun r r' => r'.log = r.log)
      (s.solveInto F factor step) (s'.solveInto F factor step') := by
  unfold solveInto
  simp only [hrhs, hstep, hstep']
  split
  case isTrue hsize =>
    exact .done ⟨⟨hsize.symm, hsize.symm⟩, rfl, rfl, hsize.symm, hsize.symm, fun _ => rfl⟩
  case isFalse => exact .brokenOff rfl

theorem solveBy_alike (F : Factorization α) (hzero : ((0 : α) == 0) = true) (h : s.Alike n s')
    (J : Matrix α) (f dtd : Array α) (lambda : α) (hstep : step.size = n)
    (hstep' : step'.size = n) :
    Outcome.Alike (StepAnswer.Charted n id (Alike n)) (fun r r' => r'.log = r.log)
      (s.solveBy F J f dtd lambda step) (s'.solveBy F J f dtd lambda step') := by
  obtain ⟨hs, hs'⟩ := h
  unfold solveBy
  rw [hs, hs']
  split
  case isFalse => exact .brokenOff rfl
  case isTrue =>
    have hcall := (J.overwrites f.size n).applyTranspose (-1) f 0 s.rhs s'.rhs rfl hs
      ⟨hs.trans hs'.symm, .inl hzero⟩
    dsimp only
    generalize LinearOperator.applyTranspose J (-1) f 0 s.rhs = r at hcall ⊢
    generalize LinearOperator.applyTranspose J (-1) f 0 s'.rhs = r' at hcall ⊢
    cases hcall with
    | brokenOff => exact .brokenOff rfl
    | @done rhs _ hr =>
      obtain ⟨rfl, hr⟩ := hr
      simp only
      cases F.factor? (dampedNormal J dtd lambda) with
      | some factor => exact solveInto_alike F rfl factor hstep hstep'
      | none => exact .done ⟨⟨hr, hr⟩, rfl, rfl, hstep, hstep', by rintro ⟨⟩⟩

theorem solve_alike (hzero : ((0 : α) == 0) = true) (h : s.Alike n s') (J : Matrix α)
    (f dtd : Array α) (lambda : α) (hstep : step.size = n) (hstep' : step'.size = n) :
    Outcome.Alike (StepAnswer.Charted n id (Alike n)) (fun r r' => r'.log = r.log)
      (s.solve J f dtd lambda step) (s'.solve J f dtd lambda step') :=
  solveBy_alike .cholesky hzero h J f dtd lambda hstep hstep'

end LeastSquares.Dense.NormalEquations
