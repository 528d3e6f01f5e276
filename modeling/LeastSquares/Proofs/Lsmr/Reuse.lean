import LeastSquares.Lsmr.DampedStep
import LeastSquares.Proofs.Operators.Overwriting
import LeastSquares.Proofs.StepAnswer

/-!
# LSMR: used workspaces

A solve reads nothing of its workspace but the lengths of the vectors.  Two solves over agreeing
operators therefore answer the same from any two workspaces of one shape, and leave the same
workspace behind.  The damped steps by LSMR inherit this from their inner solves.
-/

namespace LeastSquares.Lsmr

open LinearOperator (Agree)

variable {α : Type} [Scalar α] {A A' : Type} [LinearOperator A α] [LinearOperator A' α] {a : A}
  {a' : A'} {m n : Nat} {p : Params α}

structure Workspace.Shaped (m n : Nat) (w : Workspace α) : Prop where
  u : w.u.size = m
  v : w.v.size = n
  h : w.h.size = n
  hbar : w.hbar.size = n

omit [Scalar α] in
theorem Workspace.shape_eq {w : Workspace α} (hw : w.Shaped m n) : w.shape = (m, n) :=
  Prod.ext hw.u hw.v

theorem Workspace.shaped_new (m n : Nat) : (Workspace.new m n : Workspace α).Shaped m n := by
  constructor <;> simp [Workspace.new, Vec.zeros]

theorem Basis.extend_alike (h : Agree m n a a') {g : Basis α} (hu : g.u.size = m)
    (hv : g.v.size = n) :
    Outcome.Alike (fun g₁ g₂ => g₁ = g₂ ∧ g₁.u.size = m ∧ g₁.v.size = n) (fun _ _ => True)
      (g.extend a) (g.extend a') := by
  unfold extend
  have hcall := h.apply 1 g.v (-g.alpha) g.u hv hu
  generalize LinearOperator.apply a 1 g.v (-g.alpha) g.u = r at hcall ⊢
  generalize LinearOperator.apply a' 1 g.v (-g.alpha) g.u = r' at hcall ⊢
  cases hcall with
  | brokenOff => exact .brokenOff trivial
  | @done image _ hr =>
    obtain ⟨rfl, hr⟩ := hr
    have hunit : (unit image).2.size = m := (size_unit image).trans hr
    simp only
    split
    case isFalse => exact .done ⟨rfl, hunit, hv⟩
    case isTrue =>
      have hcall := h.applyTranspose 1 (unit image).2 (-(unit image).1) g.v g.v hunit hv
        ⟨rfl, .inr rfl⟩
      generalize LinearOperator.applyTranspose a 1 (unit image).2 (-(unit image).1) g.v = r
        at hcall ⊢
      generalize LinearOperator.applyTranspose a' 1 (unit image).2 (-(unit image).1) g.v = r'
        at hcall ⊢
      cases hcall with
      | brokenOff => exact .brokenOff trivial
      | done hr =>
        obtain ⟨rfl, hr⟩ := hr
        exact .done ⟨rfl, hunit, (size_unit _).trans hr⟩

structure State.Shaped (m n : Nat) (s : State α) : Prop where
  workspace : s.workspace.Shaped m n
  size_x : s.x.size = n

theorem State.Shaped.advance {s : State α} (hs : s.Shaped m n) (t : Turn α) :
    (s.advance t).Shaped m n where
  workspace := { hs.workspace with
    h := (Vec.size_zipUpdate _ _ _).trans hs.workspace.h
    hbar := (Vec.size_zipUpdate _ _ _).trans hs.workspace.hbar }
  size_x := (Vec.size_zipUpdate _ _ _).trans hs.size_x

inductive Step.Alike (m n : Nat) : Step α → Step α → Prop
  | next {s : State α} (h : s.Shaped m n) : Alike m n (.next s) (.next s)
  | stop {s : State α} (rule : Stop) (h : s.Shaped m n) : Alike m n (.stop s rule) (.stop s rule)
  | brokenOff {s t : State α} (hx : s.x = t.x) (hsize : s.x.size = n) :
      Alike m n (.brokenOff s) (.brokenOff t)

theorem step_alike (h : Agree m n a a') {s : State α} (hs : s.Shaped m n) :
    Step.Alike m n (step a p s) (step a' p s) := by
  have hcall := s.basis.extend_alike h hs.workspace.u hs.workspace.v
  unfold step
  dsimp only
  generalize s.basis.extend a = r at hcall ⊢
  generalize s.basis.extend a' = r' at hcall ⊢
  cases hcall with
  | brokenOff => exact .brokenOff rfl hs.size_x
  | @done g _ hg =>
    obtain ⟨rfl, hu, hv⟩ := hg
    have hextended : State.Shaped m n { s with iteration := s.iteration + 1, basis := g } :=
      ⟨⟨hu, hv, hs.workspace.h, hs.workspace.hbar⟩, hs.size_x⟩
    simp only
    split
    · exact .stop _ hextended
    · split
      · exact .stop _ (hextended.advance _)
      · exact .next (hextended.advance _)

/-- What two solves leave behind that answer the same.  One that broke off leaves its workspace in
the middle of an iteration. -/
structure Solution.Alike (m n : Nat) (sol sol' : Solution α) : Prop where
  x : sol.x = sol'.x
  info : sol.info = sol'.info
  log : sol.log = sol'.log
  size_x : sol.x.size = n
  workspace : sol.info.isSome = true → sol.workspace = sol'.workspace ∧ sol.workspace.Shaped m n

theorem iterate_alike (h : Agree m n a a') (further : Nat) {s : State α} (hs : s.Shaped m n) :
    ((iterate a p further s).1.solution (iterate a p further s).2).Alike m n
      ((iterate a' p further s).1.solution (iterate a' p further s).2) := by
  induction further generalizing s with
  | zero =>
    have hstep := step_alike (p := p) h hs
    unfold iterate
    generalize step a p s = r at hstep ⊢
    generalize step a' p s = r' at hstep ⊢
    cases hstep with
    | next hs => exact ⟨rfl, rfl, rfl, hs.size_x, fun _ => ⟨rfl, hs.workspace⟩⟩
    | stop rule hs => exact ⟨rfl, rfl, rfl, hs.size_x, fun _ => ⟨rfl, hs.workspace⟩⟩
    | brokenOff hx hsize => exact ⟨hx, rfl, rfl, hsize, by rintro ⟨⟩⟩
  | succ further ih =>
    have hstep := step_alike (p := p) h hs
    unfold iterate
    generalize step a p s = r at hstep ⊢
    generalize step a' p s = r' at hstep ⊢
    cases hstep with
    | next hs => exact ih hs
    | stop rule hs => exact ⟨rfl, rfl, rfl, hs.size_x, fun _ => ⟨rfl, hs.workspace⟩⟩
    | brokenOff hx hsize => exact ⟨hx, rfl, rfl, hsize, by rintro ⟨⟩⟩

/-! ## Whole solves -/

section Solves

variable {w w' : Workspace α} {b x : Array α}

theorem firstBasis_alike (hzero : ((0 : α) == 0) = true) (h : Agree m n a a')
    (hw : w.Shaped m n) (hw' : w'.Shaped m n) (hb : b.size = m) (hx : x.size = n) :
    Outcome.Alike (fun g₁ g₂ => g₁ = g₂ ∧ g₁.u.size = m ∧ g₁.v.size = n) (fun _ _ => True)
      (firstBasis w a b x) (firstBasis w' a' b x) := by
  unfold firstBasis
  have hcall := h.apply (-1) x 1 b hx hb
  generalize LinearOperator.apply a (-1) x 1 b = r at hcall ⊢
  generalize LinearOperator.apply a' (-1) x 1 b = r' at hcall ⊢
  cases hcall with
  | brokenOff => exact .brokenOff trivial
  | @done residual _ hr =>
    obtain ⟨rfl, hr⟩ := hr
    have hunit : (Basis.unit residual).2.size = m := (Basis.size_unit residual).trans hr
    -- The old vectors enter through this product only, and its `beta` is zero.
    have hcall := h.applyTranspose 1 (Basis.unit residual).2 0 w.v w'.v hunit hw.v
      ⟨hw.v.trans hw'.v.symm, .inl hzero⟩
    simp only
    generalize LinearOperator.applyTranspose a 1 (Basis.unit residual).2 0 w.v = r at hcall ⊢
    generalize LinearOperator.applyTranspose a' 1 (Basis.unit residual).2 0 w'.v = r' at hcall ⊢
    cases hcall with
    | brokenOff => exact .brokenOff trivial
    | done hr =>
      obtain ⟨rfl, hr⟩ := hr
      exact .done ⟨rfl, hunit, (Basis.size_unit _).trans hr⟩

theorem solveFitting_alike (hzero : ((0 : α) == 0) = true) (h : Agree m n a a')
    (hw : w.Shaped m n) (hw' : w'.Shaped m n) (hb : b.size = m) (hx : x.size = n) :
    (solveFitting w a b x p).Alike m n (solveFitting w' a' b x p) := by
  have hcall := firstBasis_alike hzero h hw hw' hb hx
  unfold solveFitting
  generalize firstBasis w a b x = r at hcall ⊢
  generalize firstBasis w' a' b x = r' at hcall ⊢
  cases hcall with
  | brokenOff => exact ⟨rfl, rfl, rfl, hx, by rintro ⟨⟩⟩
  | @done g _ hg =>
    obtain ⟨rfl, hu, hv⟩ := hg
    have hinitial : State.initial w.hbar x g = State.initial w'.hbar x g := by
      have hbar : (w.hbar.map fun _ => (0 : α)) = w'.hbar.map fun _ => 0 := by
        apply Array.ext <;> simp [hw.hbar, hw'.hbar]
      rw [State.initial, State.initial, hbar]
    have hs : (State.initial w'.hbar x g).Shaped m n :=
      ⟨⟨hu, hv, hv, by simpa [State.initial, State.workspace] using hw'.hbar⟩, hx⟩
    simp only [hinitial]
    split
    · exact ⟨rfl, rfl, rfl, hx, fun _ => ⟨rfl, hs.workspace⟩⟩
    · exact iterate_alike h _ hs

/-- Solves over agreeing operators answer the same from any two workspaces of one shape. -/
theorem solve_alike (hzero : ((0 : α) == 0) = true)
    (h : Agree (LinearOperator.nrows a) (LinearOperator.ncols a) a a') (hw : w.Shaped m n)
    (hw' : w'.Shaped m n) (b x : Array α) (p : Params α) :
    (∃ e, solve w a b x p = .error e ∧ solve w' a' b x p = .error e) ∨
      ∃ sol sol', solve w a b x p = .ok sol ∧ solve w' a' b x p = .ok sol' ∧
        sol.Alike m n sol' := by
  have hagree : LinearOperator.shape a' = LinearOperator.shape a :=
    (Prod.ext h.nrows h.ncols).symm
  unfold solve
  simp only [Workspace.shape_eq hw, Workspace.shape_eq hw', Workspace.nrows, Workspace.ncols, hw.u,
    hw'.u, hw.v, hw'.v, hagree]
  split
  case isTrue => exact .inl ⟨_, rfl, rfl⟩
  case isFalse hshape =>
    obtain ⟨rfl, rfl⟩ := Prod.mk.inj (Decidable.not_not.1 hshape)
    split
    case isTrue => exact .inl ⟨_, rfl, rfl⟩
    case isFalse hb =>
      split
      case isTrue => exact .inl ⟨_, rfl, rfl⟩
      case isFalse hx =>
        exact .inr ⟨_, _, rfl, rfl,
          solveFitting_alike hzero h hw hw' (Decidable.not_not.1 hb) (Decidable.not_not.1 hx)⟩

end Solves

/-! ## Damped steps -/

namespace DampedStep

structure Shaped (m n : Nat) (s : DampedStep α) : Prop where
  workspace : s.workspace.Shaped (m + n) n
  diagonal : s.damping.diagonal.size = n
  normalization : s.damping.normalization.size = n
  scratch : s.damping.scratch.size = n
  rhs : s.rhs.size = m + n

theorem shaped_new (m n : Nat) (p : Params α) : (DampedStep.new m n p).Shaped m n := by
  constructor <;> simp [DampedStep.new, Damping.none, Vec.zeros, Workspace.shaped_new]

theorem Shaped.fits_iff {J : Type} [LinearOperator J α] {s : DampedStep α} {k l : Nat}
    (h : s.Shaped k l) : StepSolver.fits J s m n = true ↔ k = m ∧ l = n := by
  simp only [StepSolver.fits, Workspace.ncols, h.rhs, h.workspace.v, Bool.and_eq_true, beq_iff_eq]
  omega

/-- Two step solvers for one shape with the same parameters, whatever else they hold. -/
structure Alike (m n : Nat) (s s' : DampedStep α) : Prop where
  shaped : s.Shaped m n
  shaped' : s'.Shaped m n
  params : s.params = s'.params

theorem size_rightHandSide {residuals : Array α} {size : Nat} (h : residuals.size ≤ size) :
    (rightHandSide residuals size).size = size := by
  simp [rightHandSide, Vec.zeros]
  omega

theorem match_update {s s' : DampedStep α} (h : s.Alike m n s') (lambda : α) {dtd : Array α}
    (hdtd : dtd.size = n) :
    (s.damping.update lambda dtd).Match n (s'.damping.update lambda dtd) where
  diagonal := by
    simp only [Damping.update]
    rw [Vec.zipUpdate_overwrite _ (h.shaped.diagonal.trans hdtd.symm),
      Vec.zipUpdate_overwrite _ (h.shaped'.diagonal.trans hdtd.symm)]
  normalization := by
    simp only [Damping.update]
    rw [Vec.zipUpdate_overwrite _ (h.shaped.normalization.trans hdtd.symm),
      Vec.zipUpdate_overwrite _ (h.shaped'.normalization.trans hdtd.symm)]
  size_diagonal := (Vec.size_zipUpdate _ _ _).trans h.shaped.diagonal
  size_normalization := (Vec.size_zipUpdate _ _ _).trans h.shaped.normalization
  scratch := h.shaped.scratch
  scratch' := h.shaped'.scratch

variable {J J' : Type} [LinearOperator J α] [LinearOperator J' α] {j : J} {j' : J'}

theorem solve_alike (hzero : ((0 : α) == 0) = true) {s s' : DampedStep α} (h : s.Alike m n s')
    (hj : Agree (LinearOperator.nrows j) n j j') (f : Array α) {dtd : Array α} (lambda : α)
    {step step' : Array α} (hdtd : dtd.size = n) (hstep : step.size = n) (hstep' : step'.size = n) :
    Outcome.Alike (StepAnswer.Charted n id (Alike m n)) (fun r r' => r'.log = r.log)
      (s.solve j f dtd lambda step) (s'.solve j' f dtd lambda step') := by
  have hmatch := match_update h lambda hdtd
  have hzeros : (step.map fun _ => (0 : α)) = step'.map fun _ => 0 := by
    apply Array.ext <;> simp [hstep, hstep']
  unfold solve
  rw [h.shaped.rhs, h.shaped'.rhs, ← h.params, ← hzeros]
  split
  case isFalse => exact .brokenOff rfl
  case isTrue hf =>
    have hinner := solveFitting_alike (p := s.params) hzero
      (DampedOperator.agree hzero hj hmatch (m + n)) h.shaped.workspace h.shaped'.workspace
      (size_rightHandSide hf) (x := step.map fun _ => 0) (by simpa using hstep)
    dsimp only
    generalize solveFitting s.workspace (⟨j, s.damping.update lambda dtd⟩ : DampedOperator J α)
      (rightHandSide f (m + n)) (step.map fun _ => 0) s.params = sol at hinner ⊢
    generalize solveFitting s'.workspace (⟨j', s'.damping.update lambda dtd⟩ : DampedOperator J' α)
      (rightHandSide f (m + n)) (step.map fun _ => 0) s.params = sol' at hinner ⊢
    rw [← hinner.info]
    cases hinfo : sol.info with
    | none => exact .brokenOff hinner.log.symm
    | some info =>
      obtain ⟨hworkspace, hshaped⟩ := hinner.workspace (by simp [hinfo])
      have hunscale : (s.damping.update lambda dtd).unscale sol.x =
          (s'.damping.update lambda dtd).unscale sol'.x := by
        rw [Damping.unscale, Damping.unscale, hmatch.normalization, hinner.x]
      have hsize : ((s.damping.update lambda dtd).unscale sol.x).size = n :=
        (Vec.size_zipUpdate _ _ _).trans hinner.size_x
      refine .done ⟨⟨?_, ?_, rfl⟩, rfl, by rw [hinner.log], hsize, hunscale ▸ hsize,
        fun _ => hunscale.symm⟩
      · exact ⟨hshaped, hmatch.size_diagonal, hmatch.size_normalization, hmatch.scratch,
          size_rightHandSide hf⟩
      · exact ⟨hworkspace ▸ hshaped, hmatch.diagonal ▸ hmatch.size_diagonal,
          hmatch.normalization ▸ hmatch.size_normalization, hmatch.scratch', size_rightHandSide hf⟩

end DampedStep

end LeastSquares.Lsmr
