import LeastSquares.Lsmr.Solve
import LeastSquares.Proofs.Exact.Isometry
import LeastSquares.Proofs.Lsmr.LoopHead

/-!
# LSMR: two solves that differ by isometries

A solve combines vectors linearly and decides by their norms, so turning the parameters by one
isometry and the residuals by another turns its vectors and leaves every number as it was.  Two such
solves go through their iterations together and stop by the same rule at the same estimates.
-/

namespace LeastSquares.Lsmr

open Exact

variable {A A' : Type} [LinearOperator A ℝ] [LinearOperator A' ℝ] {a : A} {a' : A'} {m n : ℕ}
  {M M' : EuclideanSpace ℝ (Fin n) →ₗ[ℝ] EuclideanSpace ℝ (Fin m)}
  {E : EuclideanSpace ℝ (Fin n) ≃ₗᵢ[ℝ] EuclideanSpace ℝ (Fin n)}
  {F : EuclideanSpace ℝ (Fin m) ≃ₗᵢ[ℝ] EuclideanSpace ℝ (Fin m)} {p : Params ℝ}

/-! ## The basis -/

theorem Basis.unit_carries {k : ℕ} {G : EuclideanSpace ℝ (Fin k) ≃ₗᵢ[ℝ] EuclideanSpace ℝ (Fin k)}
    {w w' : Array ℝ} (h : Carries G w w') :
    (unit w').1 = (unit w).1 ∧ Carries G (unit w).2 (unit w').2 := by
  refine ⟨h.norm, ?_⟩
  rw [unit, unit, h.norm]
  exact h.normalize _

structure Basis.Turned (E : EuclideanSpace ℝ (Fin n) ≃ₗᵢ[ℝ] EuclideanSpace ℝ (Fin n))
    (F : EuclideanSpace ℝ (Fin m) ≃ₗᵢ[ℝ] EuclideanSpace ℝ (Fin m)) (g g' : Basis ℝ) : Prop where
  u : Carries F g.u g'.u
  v : Carries E g.v g'.v
  alpha : g'.alpha = g.alpha
  beta : g'.beta = g.beta

theorem turn?_congr {g g' : Basis ℝ} (h : g.Turned E F g') (damp : ℝ) (f : Factors ℝ) :
    turn? damp g' f = turn? damp g f := by
  simp only [turn?, h.alpha, h.beta]

section Products

variable (ha : Realizes a M) (ha' : Realizes a' M') (hM : ∀ v, M' (E v) = F (M v))

include ha ha' hM

theorem Basis.Turned.extend {g g' : Basis ℝ} (h : g.Turned E F g') :
    ∃ e e', g.extend a = .done e ∧ g'.extend a' = .done e' ∧ e.Turned E F e' := by
  obtain ⟨w, w', hw, hw', himage⟩ := ha.carries_apply ha' hM 1 (-g.alpha) h.v h.u
  obtain ⟨hbeta, hu⟩ := unit_carries himage
  unfold Basis.extend
  rw [h.alpha, hw, hw']
  dsimp only
  rw [hbeta]
  by_cases hpos : 0 < (unit w).1
  · obtain ⟨z, z', hz, hz', himage⟩ := ha.carries_applyTranspose ha' hM 1 (-(unit w).1) hu h.v.size
      h.v.size' (.inr h.v)
    obtain ⟨halpha, hv⟩ := unit_carries himage
    rw [if_pos hpos, if_pos hpos, hz, hz']
    exact ⟨_, _, rfl, rfl, hu, hv, halpha, rfl⟩
  · rw [if_neg hpos, if_neg hpos]
    exact ⟨_, _, rfl, rfl, hu, h.v, rfl, rfl⟩

theorem firstBasis_turned {w w' : Workspace ℝ} {b b' x x' : Array ℝ} (hw : w.Sized m n)
    (hw' : w'.Sized m n) (hb : Carries F b b') (hx : Carries E x x') :
    ∃ g g', firstBasis w a b x = .done g ∧ firstBasis w' a' b' x' = .done g' ∧
      g.Turned E F g' := by
  obtain ⟨y, y', hy, hy', hresidual⟩ := ha.carries_apply ha' hM (-1) 1 hx hb
  obtain ⟨hbeta, hu⟩ := Basis.unit_carries hresidual
  obtain ⟨z, z', hz, hz', himage⟩ :=
    ha.carries_applyTranspose ha' hM 1 0 hu hw.v hw'.v (.inl rfl)
  obtain ⟨halpha, hv⟩ := Basis.unit_carries himage
  refine ⟨⟨_, _, (Basis.unit z).1, (Basis.unit y).1⟩, ⟨_, _, (Basis.unit z').1, (Basis.unit y').1⟩,
    ?_, ?_, hu, hv, halpha, hbeta⟩
  · simp [firstBasis, hy, hz]
  · simp [firstBasis, hy', hz']

end Products

/-! ## One iteration -/

structure State.Turned (E : EuclideanSpace ℝ (Fin n) ≃ₗᵢ[ℝ] EuclideanSpace ℝ (Fin n))
    (F : EuclideanSpace ℝ (Fin m) ≃ₗᵢ[ℝ] EuclideanSpace ℝ (Fin m)) (s t : State ℝ) : Prop where
  numbers : t = { s with basis := t.basis, h := t.h, hbar := t.hbar, x := t.x }
  basis : s.basis.Turned E F t.basis
  h : Carries E s.h t.h
  hbar : Carries E s.hbar t.hbar
  x : Carries E s.x t.x

variable {s t : State ℝ}

theorem State.Turned.stopRule?_eq (h : s.Turned E F t) : t.stopRule? p = s.stopRule? p := by
  rw [h.numbers]
  rfl

theorem State.Turned.info_eq (h : s.Turned E F t) (rule : Stop) : t.info rule = s.info rule := by
  rw [h.numbers]
  rfl

theorem State.Turned.advance (hs : s.Turned E F t) (turn : Turn ℝ) :
    (s.advance turn).Turned E F (t.advance turn) := by
  obtain ⟨numbers, hbasis, hh, hhbar, hx⟩ := hs
  have hbar := hhbar.combination
    (a := -turn.thetabar * turn.rho / (s.factors.rho * s.factors.rhobar)) (b := 1)
    (f := fun old h => h + -turn.thetabar * turn.rho / (s.factors.rho * s.factors.rhobar) * old)
    (fun old h => by ring) hh
  have hmoved := hx.combination (a := 1) (b := turn.zeta / (turn.rho * turn.rhobar))
    (f := fun xi hb => xi + turn.zeta / (turn.rho * turn.rhobar) * hb) (fun xi hb => by ring) hbar
  have hnext := hh.combination (a := -turn.thetanew / turn.rho) (b := 1)
    (f := fun old v => v + -turn.thetanew / turn.rho * old) (fun old v => by ring) hbasis.v
  rw [numbers]
  refine ⟨?_, hbasis, hnext, hbar, hmoved⟩
  simp only [State.advance, OperatorEstimate.advance, hbasis.alpha, hbasis.beta, hmoved.norm]

/-- Both iterations end alike.  The products over exact scalars never break off. -/
inductive Step.Turned (E : EuclideanSpace ℝ (Fin n) ≃ₗᵢ[ℝ] EuclideanSpace ℝ (Fin n))
    (F : EuclideanSpace ℝ (Fin m) ≃ₗᵢ[ℝ] EuclideanSpace ℝ (Fin m)) : Step ℝ → Step ℝ → Prop
  | next {s t : State ℝ} (h : s.Turned E F t) : Turned E F (.next s) (.next t)
  | stop {s t : State ℝ} (rule : Stop) (h : s.Turned E F t) :
      Turned E F (.stop s rule) (.stop t rule)

section Solves

variable (ha : Realizes a M) (ha' : Realizes a' M') (hM : ∀ v, M' (E v) = F (M v))

include ha ha' hM

theorem step_turned (hs : s.Turned E F t) : Step.Turned E F (step a p s) (step a' p t) := by
  obtain ⟨e, e', he, he', hext⟩ := hs.basis.extend ha ha' hM
  have hextended : State.Turned E F { s with iteration := s.iteration + 1, basis := e }
      { t with iteration := t.iteration + 1, basis := e' } := by
    obtain ⟨numbers, -, hh, hhbar, hx⟩ := hs
    rw [numbers]
    exact ⟨rfl, hext, hh, hhbar, hx⟩
  have hturn : turn? p.damp e' t.factors = turn? p.damp e s.factors := by
    rw [turn?_congr hext, hs.numbers]
  unfold step
  dsimp only
  rw [he, he']
  dsimp only
  rw [hturn]
  cases turn? p.damp e s.factors with
  | none => exact .stop _ hextended
  | some turn =>
    have hadvanced := hextended.advance turn
    dsimp only
    rw [hadvanced.stopRule?_eq]
    split
    · exact .stop _ hadvanced
    · exact .next hadvanced

theorem iterate_turned (further : ℕ) (hs : s.Turned E F t) :
    ∃ s' t' rule, iterate a p further s = (s', some rule) ∧
      iterate a' p further t = (t', some rule) ∧ s'.Turned E F t' := by
  induction further generalizing s t with
  | zero =>
    have hstep := step_turned (p := p) ha ha' hM hs
    unfold iterate
    generalize step a p s = r at hstep ⊢
    generalize step a' p t = r' at hstep ⊢
    cases hstep with
    | next h => exact ⟨_, _, _, rfl, rfl, h⟩
    | stop rule h => exact ⟨_, _, _, rfl, rfl, h⟩
  | succ further ih =>
    have hstep := step_turned (p := p) ha ha' hM hs
    unfold iterate
    generalize step a p s = r at hstep ⊢
    generalize step a' p t = r' at hstep ⊢
    cases hstep with
    | next h => exact ih h
    | stop rule h => exact ⟨_, _, _, rfl, rfl, h⟩

end Solves

/-! ## Whole solves -/

theorem State.initial_turned {hbar hbar' x x' : Array ℝ} {g g' : Basis ℝ} (hg : g.Turned E F g')
    (hhbar : hbar.size = n) (hhbar' : hbar'.size = n) (hx : Carries E x x') :
    (State.initial hbar x g).Turned E F (State.initial hbar' x' g') where
  numbers := by simp only [State.initial, hg.alpha, hg.beta, hx.norm]
  basis := hg
  h := hg.v
  hbar := .map_zero hhbar hhbar'
  x := hx

theorem State.Turned.sized (h : s.Turned E F t) :
    s.workspace.Sized m n ∧ t.workspace.Sized m n :=
  ⟨⟨h.basis.u.size, h.basis.v.size, h.h.size, h.hbar.size⟩,
    ⟨h.basis.u.size', h.basis.v.size', h.h.size', h.hbar.size'⟩⟩

structure Solution.Turned (E : EuclideanSpace ℝ (Fin n) ≃ₗᵢ[ℝ] EuclideanSpace ℝ (Fin n)) (m : ℕ)
    (sol sol' : Solution ℝ) : Prop where
  x : Carries E sol.x sol'.x
  info : ∃ info, sol.info = some info ∧ sol'.info = some info
  log : sol'.log = sol.log
  sized : sol.workspace.Sized m n
  sized' : sol'.workspace.Sized m n

theorem State.Turned.solution (h : s.Turned E F t) (rule : Stop) :
    (s.solution (some rule)).Turned E m (t.solution (some rule)) where
  x := h.x
  info := ⟨s.info rule, rfl, congrArg some (h.info_eq rule)⟩
  log := by
    rw [h.numbers]
    rfl
  sized := h.sized.1
  sized' := h.sized.2

theorem solveFitting_turned {w w' : Workspace ℝ} {b b' x x' : Array ℝ} (ha : Realizes a M)
    (ha' : Realizes a' M') (hM : ∀ v, M' (E v) = F (M v)) (hw : w.Sized m n) (hw' : w'.Sized m n)
    (hb : Carries F b b') (hx : Carries E x x') :
    (solveFitting w a b x p).Turned E m (solveFitting w' a' b' x' p) := by
  obtain ⟨g, g', hg, hg', hturned⟩ := firstBasis_turned ha ha' hM hw hw' hb hx
  have hinitial := State.initial_turned hturned hw.hbar hw'.hbar hx
  have hnormAr : (State.initial w'.hbar x' g').normAr = (State.initial w.hbar x g).normAr := by
    rw [hinitial.numbers]
  unfold solveFitting
  rw [hg, hg']
  dsimp only
  rw [hnormAr]
  split
  · exact ⟨hx, ⟨_, rfl, by rw [hinitial.numbers]; rfl⟩, rfl, hinitial.sized.1, hinitial.sized.2⟩
  · obtain ⟨s, t, rule, hs, ht, h⟩ := iterate_turned (p := p) ha ha' hM (p.maxIters - 1) hinitial
    rw [hs, ht]
    exact h.solution rule

end LeastSquares.Lsmr
