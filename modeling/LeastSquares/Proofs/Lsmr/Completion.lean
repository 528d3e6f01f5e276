import LeastSquares.Proofs.Lsmr.Reuse
import LeastSquares.Proofs.Operators.Completing

/-!
# LSMR: solves come to their end

Over an operator that completes its products every iteration comes to its end, and all vectors keep
the lengths that they were allocated with.  So a solve on fitting sizes has a summary, and the sizes
that do not fit are found before anything is computed.  Damped steps inherit both.
-/

namespace LeastSquares.Lsmr

open LinearOperator (Completes shape)

variable {α : Type} [Scalar α] {A : Type} [LinearOperator A α] {a : A} {m n : Nat} {p : Params α}

section Iterations

variable (ha : Completes m n a)

include ha

theorem Basis.extend_ends {g : Basis α} (hu : g.u.size = m) (hv : g.v.size = n) :
    (g.extend a).Ends fun g' => g'.u.size = m ∧ g'.v.size = n := by
  unfold extend
  obtain ⟨image, happly, himage⟩ := ha.apply 1 g.v (-g.alpha) g.u hv hu
  have hunit : (unit image).2.size = m := (size_unit image).trans himage
  simp only [happly]
  split
  · obtain ⟨image', happly', himage'⟩ :=
      ha.applyTranspose 1 (unit image).2 (-(unit image).1) g.v hunit hv
    rw [happly']
    exact ⟨_, rfl, hunit, (size_unit image').trans himage'⟩
  · exact ⟨_, rfl, hunit, hv⟩

theorem step_completes (p : Params α) {s : State α} (hs : s.Shaped m n) :
    ∃ t : State α, t.Shaped m n ∧
      (step a p s = .next t ∨ ∃ rule, step a p s = .stop t rule) := by
  obtain ⟨g, hg, hu, hv⟩ := s.basis.extend_ends ha hs.workspace.u hs.workspace.v
  have hextended : State.Shaped m n { s with iteration := s.iteration + 1, basis := g } :=
    ⟨⟨hu, hv, hs.workspace.h, hs.workspace.hbar⟩, hs.size_x⟩
  unfold step
  simp only [hg]
  split
  · exact ⟨_, hextended, .inr ⟨_, rfl⟩⟩
  · split
    · exact ⟨_, hextended.advance _, .inr ⟨_, rfl⟩⟩
    · exact ⟨_, hextended.advance _, .inl rfl⟩

theorem iterate_completes (further : Nat) {s : State α} (hs : s.Shaped m n) :
    ∃ last rule, iterate a p further s = (last, some rule) ∧ last.Shaped m n := by
  induction further generalizing s with
  | zero =>
    obtain ⟨t, ht, hnext | ⟨rule, hstop⟩⟩ := step_completes ha p hs
    · exact ⟨t, .maxIterations, by rw [iterate, hnext], ht⟩
    · exact ⟨t, rule, by rw [iterate, hstop], ht⟩
  | succ further ih =>
    obtain ⟨t, ht, hnext | ⟨rule, hstop⟩⟩ := step_completes ha p hs
    · obtain ⟨last, rule, hlast, hshaped⟩ := ih ht
      exact ⟨last, rule, by rw [iterate, hnext]; exact hlast, hshaped⟩
    · exact ⟨t, rule, by rw [iterate, hstop], ht⟩

variable {w : Workspace α} (hw : w.Shaped m n) {b x : Array α} (hb : b.size = m) (hx : x.size = n)

include hw hb hx

theorem firstBasis_ends :
    (firstBasis w a b x).Ends fun g => g.u.size = m ∧ g.v.size = n := by
  unfold firstBasis
  obtain ⟨residual, happly, hresidual⟩ := ha.apply (-1) x 1 b hx hb
  have hunit : (Basis.unit residual).2.size = m := (Basis.size_unit residual).trans hresidual
  obtain ⟨image, happly', himage⟩ :=
    ha.applyTranspose 1 (Basis.unit residual).2 0 w.v hunit hw.v
  simp only [happly, happly']
  exact ⟨_, rfl, hunit, (Basis.size_unit image).trans himage⟩

theorem solveFitting_completes :
    ∃ info, (solveFitting w a b x p).info = some info ∧
      (solveFitting w a b x p).workspace.Shaped m n ∧ (solveFitting w a b x p).x.size = n := by
  obtain ⟨g, hg, hu, hv⟩ := firstBasis_ends ha hw hb hx
  have hs : (State.initial w.hbar x g).Shaped m n :=
    ⟨⟨hu, hv, hv, by simpa [State.initial, State.workspace] using hw.hbar⟩, hx⟩
  unfold solveFitting
  simp only [hg]
  split
  · exact ⟨_, rfl, hs.workspace, hx⟩
  · obtain ⟨last, rule, hlast, hshaped⟩ := iterate_completes (p := p) ha (p.maxIters - 1) hs
    rw [hlast]
    exact ⟨last.info rule, rfl, hshaped.workspace, hshaped.size_x⟩

end Iterations

/-- A solve names the first size that does not fit its workspace, before it computes anything, and
comes to its end where all of them fit. -/
structure ShapeChecked (m n : Nat) (w : Workspace α) (a : A) (b x : Array α) (p : Params α) :
    Prop where
  operatorShape : shape a ≠ (m, n) → solve w a b x p = .error (.operatorShape (m, n) (shape a))
  residualLength : shape a = (m, n) → b.size ≠ m →
    solve w a b x p = .error (.residualLength m b.size)
  parameterLength : shape a = (m, n) → b.size = m → x.size ≠ n →
    solve w a b x p = .error (.parameterLength n x.size)
  ends : shape a = (m, n) → b.size = m → x.size = n →
    ∃ sol info, solve w a b x p = .ok sol ∧ sol.info = some info ∧ sol.workspace.Shaped m n ∧
      sol.x.size = n

theorem solve_eq {w : Workspace α} (hw : w.Shaped m n) (a : A) (b x : Array α) (p : Params α) :
    solve w a b x p =
      if (m, n) ≠ shape a then .error (.operatorShape (m, n) (shape a))
      else if b.size ≠ m then .error (.residualLength m b.size)
      else if x.size ≠ n then .error (.parameterLength n x.size)
      else .ok (solveFitting w a b x p) := by
  have hrows : w.nrows = m := hw.u
  have hcols : w.ncols = n := hw.v
  rw [solve, Workspace.shape_eq hw, hrows, hcols]

theorem shapeChecked {w : Workspace α} (hw : w.Shaped m n)
    (ha : Completes (LinearOperator.nrows a) (LinearOperator.ncols a) a) (b x : Array α)
    (p : Params α) : ShapeChecked m n w a b x p where
  operatorShape hshape := by rw [solve_eq hw, if_pos hshape.symm]
  residualLength hshape hb := by
    rw [solve_eq hw, if_neg (not_not_intro hshape.symm), if_pos hb]
  parameterLength hshape hb hx := by
    rw [solve_eq hw, if_neg (not_not_intro hshape.symm), if_neg (not_not_intro hb), if_pos hx]
  ends hshape hb hx := by
    obtain ⟨rfl, rfl⟩ := Prod.mk.inj hshape
    obtain ⟨info, hinfo, hworkspace, hsize⟩ := solveFitting_completes (p := p) ha hw hb hx
    refine ⟨solveFitting w a b x p, info, ?_, hinfo, hworkspace, hsize⟩
    rw [solve_eq hw, if_neg (not_not_intro hshape.symm), if_neg (not_not_intro hb),
      if_neg (not_not_intro hx)]

namespace DampedStep

variable {J : Type} [LinearOperator J α] {j : J}

theorem solve_completes {s : DampedStep α} (hs : s.Shaped m n) (hj : Completes m n j)
    {f dtd : Array α} (lambda : α) {step : Array α} (hf : f.size = m) (hdtd : dtd.size = n)
    (hstep : step.size = n) :
    (s.solve j f dtd lambda step).Ends fun a => a.solver.Shaped m n ∧ a.step.size = n := by
  have halike : s.Alike m n s := ⟨hs, hs, rfl⟩
  have hmatch := match_update halike lambda hdtd
  have hle : f.size ≤ s.rhs.size := by
    rw [hs.rhs]
    omega
  have hrhs := (size_rightHandSide hle).trans hs.rhs
  obtain ⟨info, hinfo, hworkspace, hx⟩ := solveFitting_completes (p := s.params)
    (DampedOperator.completes hj hmatch) hs.workspace hrhs (x := step.map fun _ => 0) (by simpa)
  rw [solve, if_pos hle]
  simp only [hinfo]
  refine ⟨_, rfl, ⟨hworkspace, ?_, ?_, ?_, hrhs⟩, (Vec.size_zipUpdate _ _ _).trans hx⟩
  · exact hmatch.size_diagonal
  · exact hmatch.size_normalization
  · exact hmatch.scratch

end DampedStep

end LeastSquares.Lsmr
