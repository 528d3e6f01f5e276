import Mathlib
import LeastSquares.Proofs.Lsmr.Direction
import LeastSquares.Proofs.Lsmr.Exactness
import LeastSquares.Proofs.Lsmr.ResidualNorm
import LeastSquares.Proofs.Lsmr.Run

/-!
# LSMR: the reported residuals

An exact solve never recomputes a residual, yet both residual norms in its summary are the ones of
the `x` that it answers, whichever rule stops it and whatever the tolerances are.
-/

namespace LeastSquares.Lsmr

open Exact
open LinearMap (adjoint)

variable {A : Type} [LinearOperator A ℝ] {a : A} {m n : ℕ}
  {M : EuclideanSpace ℝ (Fin n) →ₗ[ℝ] EuclideanSpace ℝ (Fin m)} {damp : ℝ}
  {b : EuclideanSpace ℝ (Fin m)} {x₀ : EuclideanSpace ℝ (Fin n)} {s t : State ℝ} {p : Params ℝ}

/-- A state whose estimates are the quantities that they estimate. -/
structure State.Faithful (M : EuclideanSpace ℝ (Fin n) →ₗ[ℝ] EuclideanSpace ℝ (Fin m)) (damp : ℝ)
    (b : EuclideanSpace ℝ (Fin m)) (x₀ : EuclideanSpace ℝ (Fin n)) (s : State ℝ) : Prop where
  size_x : s.x.size = n
  normAr : s.normAr = ‖normalResidual M damp b x₀ (vec n s.x)‖
  normR_nonneg : 0 ≤ s.normR
  normR : s.normR ^ 2 = objective M damp b x₀ (vec n s.x)
  normX : s.normX = ‖vec n s.x‖
  normB : s.normB = ‖b - M x₀‖

structure State.Tracks (M : EuclideanSpace ℝ (Fin n) →ₗ[ℝ] EuclideanSpace ℝ (Fin m)) (damp : ℝ)
    (b : EuclideanSpace ℝ (Fin m)) (x₀ : EuclideanSpace ℝ (Fin n)) (s : State ℝ) : Prop where
  regular : s.Regular M damp b x₀
  directed : ∃ U V r, s.Directed M damp b x₀ U V r
  coupled : s.residual.Coupled s.factors
  squares : s.residual.squares s.factors.zeta = objective M damp b x₀ (vec n s.x)
  normAr : s.normAr = |s.factors.zetabar|
  faithful : s.Faithful M damp b x₀

theorem State.isSome_stopRule?_of_normAr (h : s.normAr = 0) : (s.stopRule? p).isSome = true := by
  unfold stopRule?
  simp only [h, zero_div, add_zero, le_refl, if_true]
  split_ifs <;> rfl

namespace State.Tracks

theorem zetabar_ne_zero (hs : s.Tracks M damp b x₀) : s.factors.zetabar ≠ 0 := by
  rw [hs.coupled.zetabar]
  exact mul_ne_zero (mul_ne_zero hs.regular.residual.betadd hs.regular.factors.alphabar.ne')
    hs.regular.factors.cbar.ne'

variable {g : Basis ℝ} {q : Turn ℝ} (hs : s.Tracks M damp b x₀)
  (hg : Basis.Extends M s.basis g) (ht : q.Rotates damp g s.factors) (hd : q.Damps s.factors)

include hs hg ht hd

theorem squares_turned :
    (s.turned g q).residual.squares q.zeta = objective M damp b x₀ (vec n (s.turned g q).x) := by
  obtain ⟨U, V, r, hr⟩ := hs.directed
  rw [hr.objective_turned hs.regular hg ht, ← hs.squares]
  exact ResidualEstimate.squares_advance hs.coupled ht hd hs.regular.residual

theorem faithful_turned : (s.turned g q).Faithful M damp b x₀ where
  size_x := (s.size_x_turned g q).trans hs.regular.size_x
  normAr := by
    obtain ⟨U, V, r, hr⟩ := hs.directed
    rw [hr.norm_normalResidual_turned hs.regular hg ht]
    rfl
  normR_nonneg := Real.sqrt_nonneg _
  normR := by
    rw [← hs.squares_turned hg ht hd]
    exact ResidualEstimate.sq_normR_advance _ _ _ hs.regular.residual.removed
  normX := norm_eq ((s.size_x_turned g q).trans hs.regular.size_x)
  normB := hs.faithful.normB

theorem turned (hne : q.zetabar ≠ 0) : (s.turned g q).Tracks M damp b x₀ where
  regular := hs.regular.regular_turned hg ht hne
  directed := by
    obtain ⟨U, V, r, hr⟩ := hs.directed
    have hsbar : q.sbar ≠ 0 := fun h => hne (by rw [ht.zetabar, h, neg_zero, zero_mul])
    exact ⟨_, _, _, hr.turned hs.regular hg ht hsbar⟩
  coupled := hs.coupled.advance ht hd hs.regular.residual
  squares := hs.squares_turned hg ht hd
  normAr := rfl
  faithful := hs.faithful_turned hg ht hd

omit hg hd in
theorem normAr_turned_le : (s.turned g q).normAr ≤ s.normAr := by
  have hsbar : |q.sbar| ≤ 1 := abs_le_one_iff_mul_self_le_one.2 (by nlinarith [ht.cbar_sq])
  calc (s.turned g q).normAr = |q.sbar| * |s.factors.zetabar| := by
        rw [← abs_mul, ← abs_neg (q.sbar * _), ← neg_mul, ← ht.zetabar]
        rfl
    _ ≤ 1 * |s.factors.zetabar| := mul_le_mul_of_nonneg_right hsbar (abs_nonneg _)
    _ = s.normAr := by rw [one_mul, hs.normAr]

omit hd in
theorem objective_turned_lt :
    objective M damp b x₀ (vec n (s.turned g q).x) < objective M damp b x₀ (vec n s.x) := by
  obtain ⟨U, V, r, hr⟩ := hs.directed
  have hcbar := ht.cbar_pos.ne'
  have hgain : 2 * q.zeta * s.factors.zetabar / q.cbar - q.zeta ^ 2 =
      (1 + q.sbar ^ 2) * s.factors.zetabar ^ 2 := by
    rw [ht.zeta]
    field_simp
    linear_combination (-s.factors.zetabar ^ 2) * ht.cbar_sq
  have hzetabar := hs.zetabar_ne_zero
  have hrhodold : (s.turned g q).residual.rhodold ≠ 0 :=
    ResidualEstimate.rhodold_advance_ne_zero hs.regular.residual ht s.factors.zeta
  rw [hr.objective_turned hs.regular hg ht, hgain]
  exact sub_lt_self _ (by positivity)

end State.Tracks

/-! ## The start -/

section Start

variable {g : Basis ℝ} {x hbar : Array ℝ} (hg : g.Starts M (b - M (vec n x))) (hx : x.size = n)

include hg

theorem Basis.Starts.beta_eq : g.beta = ‖b - M (vec n x)‖ := by
  rw [hg.residual, norm_smul, Real.norm_eq_abs, abs_of_nonneg hg.beta_nonneg]
  rcases hg.beta_nonneg.eq_or_lt with hzero | hpos
  · rw [← hzero, zero_mul]
  · rw [hg.norm_u hpos, mul_one]

theorem Basis.Starts.normalResidual_eq :
    normalResidual M damp b (vec n x) (vec n x) = (g.alpha * g.beta) • vec n g.v := by
  rw [normalResidual, hg.residual, map_smul, hg.parameter, sub_self, smul_zero, sub_zero, smul_smul,
    mul_comm]

theorem Basis.Starts.objective_eq :
    objective M damp b (vec n x) (vec n x) = g.beta ^ 2 := by
  rw [objective, norm_sub_rev, ← hg.beta_eq, sub_self, norm_zero]
  ring

theorem Basis.Starts.normAr_eq :
    (State.initial hbar x g).normAr = ‖adjoint M (b - M (vec n x))‖ := by
  have hnonneg := mul_nonneg hg.alpha_nonneg hg.beta_nonneg
  rw [hg.residual, map_smul, hg.parameter, smul_smul, mul_comm g.beta, norm_smul, Real.norm_eq_abs,
    abs_of_nonneg hnonneg]
  rcases hg.alpha_nonneg.eq_or_lt with hzero | hpos
  · simp [State.initial, ← hzero]
  · rw [hg.norm_v hpos, mul_one]
    rfl

include hx

theorem Basis.Starts.faithful : (State.initial hbar x g).Faithful M damp b (vec n x) where
  size_x := hx
  normAr := hg.normAr_eq.trans (by simp [State.initial, normalResidual])
  normR_nonneg := hg.beta_nonneg
  normR := hg.objective_eq.symm
  normX := norm_eq hx
  normB := hg.beta_eq

theorem Basis.Starts.tracks (hhbar : hbar.size = n) (halpha : 0 < g.alpha) (hbeta : 0 < g.beta) :
    (State.initial hbar x g).Tracks M damp b (vec n x) where
  regular := hg.regular damp hx hhbar halpha hbeta
  directed := by
    have hv := hg.norm_v halpha
    refine ⟨⊥, ⊥, vec n g.v, ?_⟩
    exact
      { bidiagonal := .first (hg.norm_u hbeta) hv hg.parameter
        mem_hbar := by simp [State.initial, vec_map_zero hhbar]
        mem_h := Submodule.mem_sup_right (Submodule.mem_span_singleton_self _)
        mem_r := Submodule.mem_sup_right (Submodule.mem_span_singleton_self _)
        norm_r := hv
        hbar := ⟨0, by simp [State.initial, vec_map_zero hhbar], by simp [State.initial]⟩
        normalResidual := hg.normalResidual_eq
        inner_h := by
          simp only [State.initial]
          rw [real_inner_self_eq_norm_sq, hv]
          norm_num
        inner_hbar := by simp [State.initial, vec_map_zero hhbar] }
  coupled := ⟨by simp [State.initial, mul_comm], by simp [State.initial, ResidualEstimate.gap]⟩
  squares := by
    refine Eq.trans ?_ hg.objective_eq.symm
    simp [State.initial, ResidualEstimate.squares, ResidualEstimate.gap]
  normAr := (abs_of_pos (mul_pos halpha hbeta)).symm
  faithful := hg.faithful hx

end Start

/-! ## The run -/

theorem State.Turns.damps {g : Basis ℝ} {q : Turn ℝ} (h : s.Turns a damp g q)
    (hs : s.Regular M damp b x₀) : q.Damps s.factors :=
  (h.rotates hs).damps hs.factors h.rotated

theorem step_tracks (ha : Realizes a M) (hs : s.Tracks M p.damp b x₀) :
    ∃ g q, Basis.Extends M s.basis g ∧ q.Rotates p.damp g s.factors ∧ q.Damps s.factors ∧
      (((s.turned g q).stopRule? p = none ∧ step a p s = .next (s.turned g q) ∧
          (s.turned g q).Tracks M p.damp b x₀) ∨
        ∃ rule, (s.turned g q).stopRule? p = some rule ∧
          step a p s = .stop (s.turned g q) rule) := by
  obtain ⟨g, q, hq⟩ := hs.regular.exists_turns ha
  have hg := hq.basis_extends ha hs.regular
  have ht := hq.rotates hs.regular
  have hd := hq.damps hs.regular
  refine ⟨g, q, hg, ht, hd, ?_⟩
  cases hrule : (s.turned g q).stopRule? p with
  | none =>
    refine .inl ⟨rfl, hq.step_eq_next hrule, hs.turned hg ht hd fun hzero => ?_⟩
    have hsome : ((s.turned g q).stopRule? p).isSome = true :=
      State.isSome_stopRule?_of_normAr (by simp [State.turned, State.advance, hzero])
    simp [hrule] at hsome
  | some rule => exact .inr ⟨rule, rfl, hq.step_eq_stop hrule⟩

theorem State.Tracks.next (ha : Realizes a M) (hs : s.Tracks M p.damp b x₀)
    (goes : Lsmr.step a p s = .next t) : t.Tracks M p.damp b x₀ := by
  obtain ⟨g, q, -, -, -, ⟨-, hstep, htracks⟩ | ⟨rule, -, hstep⟩⟩ := step_tracks ha hs
  · cases hstep.symm.trans goes
    exact htracks
  · cases hstep.symm.trans goes

theorem State.Tracks.isSome_step (ha : Realizes a M) (hs : s.Tracks M p.damp b x₀) :
    (Lsmr.step a p s).state?.isSome = true := by
  obtain ⟨g, q, -, -, -, ⟨-, hstep, -⟩ | ⟨rule, -, hstep⟩⟩ := step_tracks ha hs
  all_goals
    rw [hstep]
    rfl

theorem State.Tracks.step (ha : Realizes a M) (hs : s.Tracks M p.damp b x₀)
    (h : (step a p s).state? = some t) : t.Faithful M p.damp b x₀ ∧ t.normAr ≤ s.normAr := by
  obtain ⟨g, q, hg, ht, hd, ⟨-, hstep, -⟩ | ⟨rule, -, hstep⟩⟩ := step_tracks ha hs
  all_goals
    rw [hstep] at h
    cases h
    exact ⟨hs.faithful_turned hg ht hd, hs.normAr_turned_le ht⟩

section Run

variable {w : Workspace ℝ} {rhs x : Array ℝ} {rule : Stop} (ha : Realizes a M) (hw : w.Sized m n)
  (hrhs : rhs.size = m) (hx : x.size = n)

include ha hw hrhs hx

theorem initial_tracks {g : Basis ℝ} (starts : firstBasis w a rhs x = .done g)
    (moves : ((State.initial w.hbar x g).normAr == 0) = false) :
    (State.initial w.hbar x g).Tracks M damp (vec m rhs) (vec n x) := by
  obtain ⟨g', hfirst, hg⟩ := firstBasis_done ha hw hrhs hx
  obtain rfl : g = g' := Outcome.done.inj (starts.symm.trans hfirst)
  have hproduct : g.alpha * g.beta ≠ 0 := of_decide_eq_false moves
  exact hg.tracks hx hw.hbar (lt_of_le_of_ne hg.alpha_nonneg (left_ne_zero_of_mul hproduct).symm)
    (lt_of_le_of_ne hg.beta_nonneg (right_ne_zero_of_mul hproduct).symm)

theorem moves_of_gradient {g : Basis ℝ} (starts : firstBasis w a rhs x = .done g)
    (hne : adjoint M (vec m rhs - M (vec n x)) ≠ 0) :
    ((State.initial w.hbar x g).normAr == 0) = false := by
  obtain ⟨g', hfirst, hg⟩ := firstBasis_done ha hw hrhs hx
  cases starts.symm.trans hfirst
  refine decide_eq_false fun hzero => hne ?_
  rwa [hg.normAr_eq, norm_eq_zero] at hzero

theorem Head.tracks (head : Head w a rhs x p s) : s.Tracks M p.damp (vec m rhs) (vec n x) := by
  induction head with
  | first starts moves => exact initial_tracks ha hw hrhs hx starts moves
  | next _ goes _ ih =>
    exact ih.next ha goes

theorem Exit.faithful (h : Exit w a rhs x p t rule) :
    t.Faithful M p.damp (vec m rhs) (vec n x) := by
  cases h with
  | @rests g starts zero =>
    obtain ⟨_, hfirst, hg⟩ := firstBasis_done ha hw hrhs hx
    cases starts.symm.trans hfirst
    have hfaithful : (State.initial w.hbar x g).Faithful M p.damp (vec m rhs) (vec n x) :=
      hg.faithful hx
    exact ⟨hfaithful.size_x, hfaithful.normAr, hfaithful.normR_nonneg, hfaithful.normR,
      hfaithful.normX, hfaithful.normB⟩
  | stopped head stops =>
    exact ((head.tracks ha hw hrhs hx).step ha (by rw [stops]; rfl)).1
  | limit head goes => exact ((head.tracks ha hw hrhs hx).step ha (by rw [goes]; rfl)).1

theorem Exit.sized (h : Exit w a rhs x p t rule) : t.workspace.Sized m n := by
  cases h with
  | rests starts =>
    obtain ⟨_, hfirst, hg⟩ := firstBasis_done ha hw hrhs hx
    cases starts.symm.trans hfirst
    exact ⟨hg.sized.u, hg.sized.v, hg.sized.v, by
      simpa [State.initial, State.workspace] using hw.hbar⟩
  | stopped head stops =>
    have hs := head.tracks ha hw hrhs hx
    obtain ⟨g, q, hg, -, -, ⟨-, hstep, -⟩ | ⟨rule', -, hstep⟩⟩ := step_tracks ha hs
    all_goals
      cases hstep.symm.trans stops
    exact hs.regular.sized_turned hg
  | limit head goes =>
    have hs := head.tracks ha hw hrhs hx
    obtain ⟨g, q, hg, -, -, ⟨-, hstep, -⟩ | ⟨rule', -, hstep⟩⟩ := step_tracks ha hs
    all_goals
      cases hstep.symm.trans goes
    exact hs.regular.sized_turned hg

theorem solveFitting_ends (p : Params ℝ) : ∃ t rule, Exit w a rhs x p t rule ∧
    (solveFitting w a rhs x p).info = some (t.info rule) ∧
      (solveFitting w a rhs x p).x = t.x ∧
        (solveFitting w a rhs x p).workspace = t.workspace := by
  -- No iteration breaks off, so the budget brings the run to an end.
  have hinfo : ∃ info, (solveFitting w a rhs x p).info = some info := by
    obtain ⟨g, hfirst, -⟩ := firstBasis_done ha hw hrhs hx
    simp only [solveFitting, hfirst]
    cases hzero : ((State.initial w.hbar x g).normAr == 0) with
    | true => exact ⟨_, rfl⟩
    | false =>
      have ends : ∀ s : State ℝ, s.Tracks M p.damp (vec m rhs) (vec n x) →
          (step a p s).state?.isSome = true ∧
            ∀ t, step a p s = .next t → t.Tracks M p.damp (vec m rhs) (vec n x) :=
        fun s hs => ⟨hs.isSome_step ha, fun t goes => hs.next ha goes⟩
      obtain ⟨t, rule, hiterate⟩ := iterate_ends ends (p.maxIters - 1)
        (initial_tracks ha hw hrhs hx hfirst hzero)
      simp [hiterate, State.solution]
  obtain ⟨info, hinfo⟩ := hinfo
  obtain ⟨t, rule, hexit, rfl, hends⟩ := exit_of_info hinfo
  exact ⟨t, rule, hexit, hinfo, hends⟩

theorem solve_ends (p : Params ℝ) : ∃ sol t rule, solve w a rhs x p = .ok sol ∧
    Exit w a rhs x p t rule ∧ sol.info = some (t.info rule) ∧ sol.x = t.x := by
  obtain ⟨t, rule, hexit, hinfo, hx', -⟩ := solveFitting_ends ha hw hrhs hx p
  exact ⟨_, t, rule, solve_eq_ok ha hw hrhs hx p, hexit, hinfo, hx'⟩

end Run

/-! ## The summary -/

/-- The normal residual in the summary of an exact solve is the one of the answered `x`, and no
iteration raises it. -/
theorem solve_normAr (ha : Realizes a M) {w : Workspace ℝ} (hw : w.Sized m n) {rhs x : Array ℝ}
    (hrhs : rhs.size = m) (hx : x.size = n) (p : Params ℝ) :
    ∃ sol info, solve w a rhs x p = .ok sol ∧ sol.info = some info ∧ sol.x.size = n ∧
      info.normAr = ‖adjoint M (vec m rhs - M (vec n sol.x)) -
        p.damp ^ 2 • (vec n sol.x - vec n x)‖ ∧
      ∀ s t, Head w a rhs x p s → (step a p s).state? = some t → t.normAr ≤ s.normAr := by
  obtain ⟨sol, t, rule, hsolve, hexit, hinfo, ht⟩ := solve_ends ha hw hrhs hx p
  have hfaithful := hexit.faithful ha hw hrhs hx
  refine ⟨sol, _, hsolve, hinfo, ht ▸ hfaithful.size_x, ht ▸ hfaithful.normAr, ?_⟩
  intro s t head h
  exact ((head.tracks ha hw hrhs hx).step ha h).2

theorem solve_normAr_warm :
    let a : Dense.Matrix ℝ := .ofFn 2 3 fun row col => row + col
    Realizes a (linear 2 3 a) ∧ (Workspace.new 2 3 : Workspace ℝ).Sized 2 3 ∧
      ∃ sol info, solve (Workspace.new 2 3) a #[1, 2] #[3, 0, 1] ⟨0, 0, 0, 1, 2⟩ = .ok sol ∧
        sol.info = some info ∧
          info.normAr = ‖adjoint (linear 2 3 a) (vec 2 #[1, 2] - linear 2 3 a (vec 3 sol.x)) -
            (2 : ℝ) ^ 2 • (vec 3 sol.x - vec 3 #[3, 0, 1])‖ := by
  intro a
  have ha := realizes_ofFn 2 3 fun row col => (row + col : ℝ)
  have hrhs : (#[1, 2] : Array ℝ).size = 2 := rfl
  have hx : (#[3, 0, 1] : Array ℝ).size = 3 := rfl
  obtain ⟨sol, info, hsolve, hinfo, -, hnormAr, -⟩ :=
    solve_normAr ha (Workspace.sized_new 2 3) hrhs hx ⟨0, 0, 0, 1, 2⟩
  exact ⟨ha, Workspace.sized_new 2 3, sol, info, hsolve, hinfo, hnormAr⟩

/-- The residual norm in the summary of an exact solve is the one of the answered `x`, with the
damping. -/
theorem solve_normR (ha : Realizes a M) {w : Workspace ℝ} (hw : w.Sized m n) {rhs x : Array ℝ}
    (hrhs : rhs.size = m) (hx : x.size = n) (p : Params ℝ) :
    ∃ sol info, solve w a rhs x p = .ok sol ∧ sol.info = some info ∧ sol.x.size = n ∧
      0 ≤ info.normR ∧ info.normR ^ 2 = ‖vec m rhs - M (vec n sol.x)‖ ^ 2 +
        p.damp ^ 2 * ‖vec n sol.x - vec n x‖ ^ 2 := by
  obtain ⟨sol, t, rule, hsolve, hexit, hinfo, ht⟩ := solve_ends ha hw hrhs hx p
  have hfaithful := hexit.faithful ha hw hrhs hx
  refine ⟨sol, _, hsolve, hinfo, ht ▸ hfaithful.size_x, hfaithful.normR_nonneg, ?_⟩
  rw [norm_sub_rev (vec m rhs), ht]
  exact hfaithful.normR

theorem solve_normR_warm :
    let a : Dense.Matrix ℝ := .ofFn 2 3 fun row col => row + col
    Realizes a (linear 2 3 a) ∧ (Workspace.new 2 3 : Workspace ℝ).Sized 2 3 ∧
      ∃ sol info, solve (Workspace.new 2 3) a #[1, 2] #[3, 0, 1] ⟨0, 0, 0, 1, 2⟩ = .ok sol ∧
        sol.info = some info ∧
          info.normR ^ 2 = ‖vec 2 #[1, 2] - linear 2 3 a (vec 3 sol.x)‖ ^ 2 +
            2 ^ 2 * ‖vec 3 sol.x - vec 3 #[3, 0, 1]‖ ^ 2 := by
  intro a
  have ha := realizes_ofFn 2 3 fun row col => (row + col : ℝ)
  have hrhs : (#[1, 2] : Array ℝ).size = 2 := rfl
  have hx : (#[3, 0, 1] : Array ℝ).size = 3 := rfl
  obtain ⟨sol, info, hsolve, hinfo, -, -, hnormR⟩ :=
    solve_normR ha (Workspace.sized_new 2 3) hrhs hx ⟨0, 0, 0, 1, 2⟩
  exact ⟨ha, Workspace.sized_new 2 3, sol, info, hsolve, hinfo, hnormR⟩

end LeastSquares.Lsmr
