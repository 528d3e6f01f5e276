import Mathlib
import LeastSquares.Proofs.Lsmr.Residuals

/-!
# LSMR: what a stop certifies

The rules are tested against the norm of the residual at the start, which is the norm of the
right-hand side only for a cold start.  Against that norm every tolerance stop certifies its
inequality.  Against the right-hand side it does so exactly where the two norms agree, or where the
start has no normal residual and no tolerance is tested.
-/

namespace LeastSquares.Lsmr

open Exact
open LinearMap (adjoint)

namespace Info

variable (p : Params ℝ) (scale : ℝ) (info : Info ℝ)

def ResidualSmall : Prop := info.normR ≤ p.btol * scale + p.atol * info.normA * info.normX

def NormalResidualSmall : Prop := info.normAr ≤ p.atol * info.normA * info.normR

def ConditionLarge : Prop := 0 < p.conlim ∧ p.conlim ≤ info.condA

/-- The summary keeps what its stop says about the tolerances. -/
structure Certified : Prop where
  residual : info.stop = .residualTolerance → info.ResidualSmall p scale
  orthogonality : info.stop = .orthogonalityTolerance → info.NormalResidualSmall p
  condition : info.stop = .conditionLimit → info.ConditionLarge p
  limit : info.stop = .maxIterations →
    ¬ info.ResidualSmall p scale ∧ ¬ info.NormalResidualSmall p ∧ ¬ info.ConditionLarge p

theorem certified_of_exactFit (h : info.stop = .exactFit) : info.Certified p scale := by
  constructor <;> simp [h]

end Info

variable {A : Type} [LinearOperator A ℝ] {a : A} {m n : ℕ}
  {M : EuclideanSpace ℝ (Fin n) →ₗ[ℝ] EuclideanSpace ℝ (Fin m)} {damp : ℝ}
  {b : EuclideanSpace ℝ (Fin m)} {x₀ : EuclideanSpace ℝ (Fin n)} {s t : State ℝ} {p : Params ℝ}
  {rule : Stop}

/-! ## The tests -/

theorem State.stopRule?_cases (h : s.stopRule? p = some rule) :
    (rule = .residualTolerance ∧
        s.normR / s.normB ≤ p.btol + p.atol * s.normA * s.normX / s.normB) ∨
      (rule = .orthogonalityTolerance ∧ s.normAr / (s.normA * s.normR) ≤ p.atol) ∨
      (rule = .conditionLimit ∧ 1 / s.condA ≤ if 0 < p.conlim then 1 / p.conlim else 0) ∨
      (rule ≠ .residualTolerance ∧ rule ≠ .orthogonalityTolerance ∧ rule ≠ .conditionLimit ∧
        rule ≠ .maxIterations) := by
  unfold stopRule? at h
  dsimp only at h
  generalize (if 0 < p.conlim then 1 / p.conlim else 0) = ctol at h ⊢
  split at h
  case isTrue htest => exact .inl ⟨(Option.some.inj h).symm, htest⟩
  case isFalse =>
    split at h
    case isTrue htest => exact .inr (.inl ⟨(Option.some.inj h).symm, htest⟩)
    case isFalse =>
      split at h
      case isTrue htest => exact .inr (.inr (.inl ⟨(Option.some.inj h).symm, htest⟩))
      case isFalse =>
        split_ifs at h <;> cases h <;> simp

theorem State.tests_of_stopRule? (h : s.stopRule? p = none) :
    ¬ s.normR / s.normB ≤ p.btol + p.atol * s.normA * s.normX / s.normB ∧
      ¬ s.normAr / (s.normA * s.normR) ≤ p.atol ∧
      ¬ 1 / s.condA ≤ if 0 < p.conlim then 1 / p.conlim else 0 := by
  unfold stopRule? at h
  dsimp only at h
  generalize (if 0 < p.conlim then 1 / p.conlim else 0) = ctol at h ⊢
  split_ifs at h with hR hA hC
  exact ⟨hR, hA, hC⟩

/-- A state whose estimates can be divided by, or vanish together. -/
structure State.Measured (s : State ℝ) : Prop where
  normB : 0 < s.normB
  normA : 0 < s.normA
  condA : 0 < s.condA
  normR : 0 ≤ s.normR
  normAr : s.normR = 0 → s.normAr = 0

namespace State.Measured

variable (hs : s.Measured)

include hs

theorem residual_test_iff : s.normR / s.normB ≤ p.btol + p.atol * s.normA * s.normX / s.normB ↔
    (s.info rule).ResidualSmall p s.normB := by
  rw [div_le_iff₀ hs.normB, add_mul, div_mul_cancel₀ _ hs.normB.ne']
  rfl

theorem orthogonality_test_iff (hAr : s.normAr ≠ 0) :
    s.normAr / (s.normA * s.normR) ≤ p.atol ↔ (s.info rule).NormalResidualSmall p := by
  have hR : 0 < s.normR := lt_of_le_of_ne hs.normR fun h => hAr (hs.normAr h.symm)
  rw [div_le_iff₀ (mul_pos hs.normA hR), ← mul_assoc]
  rfl

theorem condition_test_iff : 1 / s.condA ≤ (if 0 < p.conlim then 1 / p.conlim else 0) ↔
    (s.info rule).ConditionLarge p := by
  unfold Info.ConditionLarge
  split
  case isTrue hpos =>
    rw [one_div_le_one_div hs.condA hpos, and_iff_right hpos]
    rfl
  case isFalse hneg =>
    rw [iff_false_right fun h => hneg h.1, not_le]
    exact one_div_pos.2 hs.condA

theorem normalResidualSmall_of_eq_zero (hAr : s.normAr = 0) (hatol : 0 ≤ p.atol) :
    (s.info rule).NormalResidualSmall p := by
  change s.normAr ≤ p.atol * s.normA * s.normR
  rw [hAr]
  exact mul_nonneg (mul_nonneg hatol hs.normA.le) hs.normR

theorem certified_of_rule (h : s.stopRule? p = some rule) :
    (s.info rule).Certified p s.normB := by
  rcases s.stopRule?_cases h with ⟨rfl, htest⟩ | ⟨rfl, htest⟩ | ⟨rfl, htest⟩ | ⟨hR, hA, hC, hL⟩
  · exact ⟨fun _ => hs.residual_test_iff.1 htest, by rintro ⟨⟩, by rintro ⟨⟩, by rintro ⟨⟩⟩
  · refine ⟨by rintro ⟨⟩, fun _ => ?_, by rintro ⟨⟩, by rintro ⟨⟩⟩
    by_cases hAr : s.normAr = 0
    · rw [hAr, zero_div] at htest
      exact hs.normalResidualSmall_of_eq_zero hAr htest
    · exact (hs.orthogonality_test_iff hAr).1 htest
  · exact ⟨by rintro ⟨⟩, by rintro ⟨⟩, fun _ => hs.condition_test_iff.1 htest, by rintro ⟨⟩⟩
  · exact ⟨(absurd · hR), (absurd · hA), (absurd · hC), (absurd · hL)⟩

theorem certified_of_limit (h : s.stopRule? p = none) :
    (s.info .maxIterations).Certified p s.normB := by
  have hAr : s.normAr ≠ 0 := by
    intro hzero
    have hsome := State.isSome_stopRule?_of_normAr (p := p) hzero
    simp [h] at hsome
  obtain ⟨hR, hA, hC⟩ := s.tests_of_stopRule? h
  refine ⟨by rintro ⟨⟩, by rintro ⟨⟩, by rintro ⟨⟩, fun _ => ⟨?_, ?_, ?_⟩⟩
  · exact fun hsmall => hR (hs.residual_test_iff.2 hsmall)
  · exact fun hsmall => hA ((hs.orthogonality_test_iff hAr).2 hsmall)
  · exact fun hlarge => hC (hs.condition_test_iff.2 hlarge)

end State.Measured

/-! ## The run -/

theorem State.Tracks.measured_turned {g : Basis ℝ} {q : Turn ℝ} (hs : s.Tracks M damp b x₀)
    (hg : Basis.Extends M s.basis g) (ht : q.Rotates damp g s.factors)
    (hd : q.Damps s.factors) : (s.turned g q).Measured := by
  have hrhotemp : 0 < q.rhotemp := ht.rhotemp ▸ mul_pos hs.regular.factors.cbar ht.rho_pos
  obtain ⟨-, hnormA, hcond⟩ :=
    hs.regular.operator.advance (s.iteration + 1) g hs.regular.factors.rhobar hrhotemp
  have hfaithful := hs.faithful_turned hg ht hd
  refine ⟨hs.regular.normB, hnormA, hcond, hfaithful.normR_nonneg, fun hzero => ?_⟩
  have hobjective := hfaithful.normR
  rw [hzero, zero_pow two_ne_zero] at hobjective
  rw [hfaithful.normAr, normalResidual_eq_zero hobjective.symm, norm_zero]

section Run

variable {w : Workspace ℝ} {rhs x : Array ℝ} (ha : Realizes a M) (hw : w.Sized m n)
  (hrhs : rhs.size = m) (hx : x.size = n)

include ha hw hrhs hx

theorem Exit.certified (h : Exit w a rhs x p t rule) :
    (t.info rule).Certified p ‖vec m rhs - M (vec n x)‖ := by
  rw [← (h.faithful ha hw hrhs hx).normB]
  cases h with
  | rests => exact Info.certified_of_exactFit _ _ _ rfl
  | stopped head stops =>
    have hs := head.tracks ha hw hrhs hx
    obtain ⟨g, q, hg, ht, hd, ⟨-, hstep, -⟩ | ⟨rule', hrule, hstep⟩⟩ := step_tracks ha hs
    · cases hstep.symm.trans stops
    · cases hstep.symm.trans stops
      exact (hs.measured_turned hg ht hd).certified_of_rule hrule
  | limit head goes =>
    have hs := head.tracks ha hw hrhs hx
    obtain ⟨g, q, hg, ht, hd, ⟨hrule, hstep, -⟩ | ⟨rule', -, hstep⟩⟩ := step_tracks ha hs
    · cases hstep.symm.trans goes
      exact (hs.measured_turned hg ht hd).certified_of_limit hrule
    · cases hstep.symm.trans goes

/-- The first iteration of a solve with the given damping. -/
theorem first_iteration (damp : ℝ) (hne : adjoint M (vec m rhs - M (vec n x)) ≠ 0) :
    ∃ t : State ℝ, t.Faithful M damp (vec m rhs) (vec n x) ∧ t.Measured ∧
      (1 < min m n ∨ t.normAr = 0) ∧
      objective M damp (vec m rhs) (vec n x) (vec n t.x) ≤ ‖vec m rhs - M (vec n x)‖ ^ 2 ∧
      ∀ p rule, p.damp = damp → t.stopRule? p = some rule →
        solve w a rhs x p = .ok (t.solution (some rule)) := by
  obtain ⟨g, hfirst, hg⟩ := firstBasis_done ha hw hrhs hx
  have moves := moves_of_gradient ha hw hrhs hx hfirst hne
  have hs : (State.initial w.hbar x g).Tracks M damp (vec m rhs) (vec n x) :=
    initial_tracks ha hw hrhs hx hfirst moves
  obtain ⟨g', q, hq⟩ := hs.regular.exists_turns ha
  have hg' := hq.basis_extends ha hs.regular
  have ht := hq.rotates hs.regular
  have hd := hq.damps hs.regular
  have hle := (hs.objective_turned_lt hg' ht).le
  have hstart : objective M damp (vec m rhs) (vec n x) (vec n x) =
      ‖vec m rhs - M (vec n x)‖ ^ 2 := by
    rw [hg.objective_eq, hg.beta_eq]
  refine ⟨_, hs.faithful_turned hg' ht hd, hs.measured_turned hg' ht hd, ?_,
    hle.trans_eq hstart, ?_⟩
  · by_cases hzero : q.zetabar = 0
    · exact .inr (abs_eq_zero.2 hzero)
    · exact .inl (hs.regular.regular_turned hg' ht hzero).iteration_lt
  rintro p rule rfl hrule
  rw [solve_eq_ok ha hw hrhs hx, solveFitting_of_first_stop hfirst moves (hq.step_eq_stop hrule)]

/-- Against any other norm than the one at the start, some tolerances stop a solve with a warm start
whose residual is not small. -/
theorem exists_not_certified {scale : ℝ} (hne : adjoint M (vec m rhs - M (vec n x)) ≠ 0)
    (hwarm : vec n x ≠ 0) (hscale : ‖vec m rhs - M (vec n x)‖ ≠ scale) :
    ∃ p sol info, solve w a rhs x p = .ok sol ∧ sol.info = some info ∧
      ¬ info.Certified p scale := by
  -- The damping keeps the first iteration so close to the start that it does not reach zero.
  have hpos : 0 < ‖vec n x‖ := norm_pos_iff.2 hwarm
  obtain ⟨t, hfaithful, hmeasured, -, hle, hstop⟩ :=
    first_iteration ha hw hrhs hx (‖vec m rhs - M (vec n x)‖ / ‖vec n x‖ + 1) hne
  have hbound : ‖vec n t.x - vec n x‖ < ‖vec n x‖ := by
    have hstart := norm_nonneg (vec m rhs - M (vec n x))
    generalize ‖vec m rhs - M (vec n x)‖ = start at hle hstart
    have hmove : (start / ‖vec n x‖ + 1) * ‖vec n t.x - vec n x‖ ≤ start := by
      refine le_of_sq_le_sq ?_ hstart
      rw [mul_pow]
      exact (le_add_of_nonneg_left (by positivity)).trans hle
    refine lt_of_mul_lt_mul_left (a := start / ‖vec n x‖ + 1) ?_ (by positivity)
    rw [add_mul _ _ ‖vec n x‖, div_mul_cancel₀ _ hpos.ne', one_mul]
    linarith
  have hnormX : 0 < t.normX := by
    rw [hfaithful.normX]
    refine norm_pos_iff.2 fun hzero => ?_
    rw [hzero, zero_sub, norm_neg] at hbound
    exact lt_irrefl _ hbound
  generalize hdamp : ‖vec m rhs - M (vec n x)‖ / ‖vec n x‖ + 1 = damp at *
  have hnormB := hfaithful.normB
  generalize ‖vec m rhs - M (vec n x)‖ = start at *
  have hsize : 0 < t.normA * t.normX := mul_pos hmeasured.normA hnormX
  let p : Params ℝ :=
    { atol := (t.normR - (start - scale) * start) / (t.normA * t.normX)
      btol := start - scale
      conlim := 0
      maxIters := 1
      damp := damp }
  have hmodel : p.atol * t.normA * t.normX = t.normR - (start - scale) * start := by
    rw [mul_assoc]
    exact div_mul_cancel₀ _ hsize.ne'
  -- The test holds with equality against `start`, hence not against any other scale.
  have hsmall : (t.info .residualTolerance).ResidualSmall p t.normB := by
    change t.normR ≤ (start - scale) * t.normB + p.atol * t.normA * t.normX
    rw [hmodel, hnormB]
    linarith
  have hrule : t.stopRule? p = some .residualTolerance :=
    if_pos (hmeasured.residual_test_iff.2 hsmall)
  refine ⟨p, _, _, hstop p _ rfl hrule, rfl, fun hcertified => ?_⟩
  have hresidual : t.normR ≤ (start - scale) * scale + p.atol * t.normA * t.normX :=
    hcertified.residual rfl
  rw [hmodel] at hresidual
  exact hscale (sub_eq_zero.1 (pow_eq_zero_iff two_ne_zero |>.1
    (le_antisymm (by linarith) (sq_nonneg (start - scale)))))

end Run

/-! ## The solve -/

/-- A solve over exact scalars certifies what its stop says against the norm of the residual at the
start.  Against the norm of the right-hand side it does so with every tolerance exactly where the
two norms agree or the start has no normal residual. -/
theorem solve_certified (ha : Realizes a M) {w : Workspace ℝ} (hw : w.Sized m n)
    {rhs x : Array ℝ} (hrhs : rhs.size = m) (hx : x.size = n) :
    (∀ p, ∃ sol info, solve w a rhs x p = .ok sol ∧ sol.info = some info ∧
      info.Certified p ‖vec m rhs - M (vec n x)‖) ∧
    ((∀ p, ∃ sol info, solve w a rhs x p = .ok sol ∧ sol.info = some info ∧
        info.Certified p ‖vec m rhs‖) ↔
      adjoint M (vec m rhs - M (vec n x)) = 0 ∨ ‖vec m rhs - M (vec n x)‖ = ‖vec m rhs‖) := by
  have hstart : ∀ p, ∃ sol info, solve w a rhs x p = .ok sol ∧ sol.info = some info ∧
      info.Certified p ‖vec m rhs - M (vec n x)‖ := by
    intro p
    obtain ⟨sol, t, rule, hsolve, hexit, hinfo, -⟩ := solve_ends ha hw hrhs hx p
    exact ⟨sol, _, hsolve, hinfo, hexit.certified ha hw hrhs hx⟩
  refine ⟨hstart, ?_, ?_⟩
  · intro hall
    by_contra hneither
    obtain ⟨hne, hnorm⟩ := not_or.1 hneither
    have hwarm : vec n x ≠ 0 := fun hzero => hnorm (by rw [hzero, map_zero, sub_zero])
    obtain ⟨p, sol, info, hsolve, hinfo, hnot⟩ := exists_not_certified ha hw hrhs hx hne hwarm hnorm
    obtain ⟨sol', info', hsolve', hinfo', hcertified⟩ := hall p
    cases hsolve.symm.trans hsolve'
    cases hinfo.symm.trans hinfo'
    exact hnot hcertified
  · rintro (hzero | hnorm)
    · intro p
      obtain ⟨sol, t, rule, hsolve, hexit, hinfo, -⟩ := solve_ends ha hw hrhs hx p
      obtain ⟨g, hfirst, hg⟩ := firstBasis_done ha hw hrhs hx
      have hrests : (State.initial w.hbar x g).normAr = 0 := by
        rw [hg.normAr_eq, hzero, norm_zero]
      obtain ⟨-, rfl⟩ := hexit.eq_rest hfirst (decide_eq_true hrests)
      exact ⟨sol, _, hsolve, hinfo, Info.certified_of_exactFit _ _ _ rfl⟩
    · exact hnorm ▸ hstart

theorem solve_certified_cold :
    let a : Dense.Matrix ℝ := .ofFn 2 1 fun row _ => if row = 0 then 1 else 0
    Realizes a (linear 2 1 a) ∧ (Workspace.new 2 1 : Workspace ℝ).Sized 2 1 ∧
      ∀ p, ∃ sol info, solve (Workspace.new 2 1) a #[0, 9] (Vec.zeros 1) p = .ok sol ∧
        sol.info = some info ∧ info.Certified p ‖vec 2 #[0, 9]‖ := by
  intro a
  have ha := realizes_ofFn 2 1 fun row _ => if row = 0 then 1 else 0
  refine ⟨ha, Workspace.sized_new 2 1, ?_⟩
  refine (solve_certified ha (Workspace.sized_new 2 1) rfl (by simp [Vec.zeros])).2.2 (.inr ?_)
  rw [vec_zeros, map_zero, sub_zero]

/-- A warm start far from the solution passes for one with a small residual: the residual is the
right-hand side itself. -/
theorem solve_not_certified_warm :
    let a : Dense.Matrix ℝ := .ofFn 2 1 fun row _ => if row = 0 then 1 else 0
    let p : Params ℝ := { Params.default with btol := 1 / 4 }
    ∃ sol info, solve (Workspace.new 2 1) a #[0, 9] #[40] p = .ok sol ∧ sol.info = some info ∧
      info.stop = .residualTolerance ∧ ¬ info.Certified p ‖vec 2 #[0, 9]‖ := by
  intro a p
  have ha := realizes_ofFn 2 1 fun row _ => if row = 0 then (1 : ℝ) else 0
  have hM : ∀ y, linear 2 1 a y = vec 2 #[y 0, 0] := by
    intro y
    ext i
    fin_cases i <;> simp [a, linear_apply, entries, Dense.Matrix.row, Dense.Matrix.ofFn]
  have hadjoint : ∀ y, adjoint (linear 2 1 a) y 0 = y 0 := by
    intro y
    simp [a, adjoint_linear_apply, entries, Dense.Matrix.row, Dense.Matrix.ofFn]
  have hne : adjoint (linear 2 1 a) (vec 2 #[0, 9] - linear 2 1 a (vec 1 #[40])) ≠ 0 := by
    intro hzero
    have hentry := hadjoint (vec 2 #[0, 9] - linear 2 1 a (vec 1 #[40]))
    rw [hzero, hM] at hentry
    norm_num at hentry
  obtain ⟨t, hfaithful, hmeasured, hlt | hAr, -, hstop⟩ :=
    first_iteration ha (Workspace.sized_new 2 1) rfl rfl 0 hne
  · norm_num at hlt
  have hx : vec 1 t.x = 0 := by
    have hresidual := norm_eq_zero.1 (hfaithful.normAr.symm.trans hAr)
    ext j
    fin_cases j
    have hentry := hadjoint (vec 2 #[0, 9] - linear 2 1 a (vec 1 t.x))
    rw [normalResidual, zero_pow two_ne_zero, zero_smul, sub_zero] at hresidual
    rw [hresidual, hM] at hentry
    simpa using hentry
  have hb : ‖vec 2 #[0, 9]‖ = 9 := by
    rw [EuclideanSpace.norm_eq, Fin.sum_univ_two]
    norm_num
  have hnormR : t.normR = 9 := by
    have hsq := hfaithful.normR
    rw [objective, hx, map_zero, zero_sub, norm_neg, hb] at hsq
    exact (pow_left_inj₀ hmeasured.normR (by norm_num) two_ne_zero).1 (by linarith)
  have hnormB : t.normB = 41 := by
    rw [hfaithful.normB, hM, EuclideanSpace.norm_eq, Fin.sum_univ_two, Real.sqrt_eq_iff_mul_self_eq]
      <;> norm_num
  have hnormX : t.normX = 0 := by rw [hfaithful.normX, hx, norm_zero]
  have hsmall : (t.info .residualTolerance).ResidualSmall p t.normB := by
    change t.normR ≤ 1 / 4 * t.normB + p.atol * t.normA * t.normX
    rw [hnormR, hnormB, hnormX]
    norm_num
  have hrule : t.stopRule? p = some .residualTolerance :=
    if_pos (hmeasured.residual_test_iff.2 hsmall)
  refine ⟨_, _, hstop p _ (by simp [p, Params.default]) hrule, rfl, rfl, fun hcertified => ?_⟩
  have hresidual : t.normR ≤ 1 / 4 * ‖vec 2 #[0, 9]‖ + p.atol * t.normA * t.normX :=
    hcertified.residual rfl
  rw [hnormR, hb, hnormX] at hresidual
  norm_num at hresidual

end LeastSquares.Lsmr
