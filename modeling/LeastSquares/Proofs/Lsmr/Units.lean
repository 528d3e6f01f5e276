import Mathlib
import LeastSquares.Proofs.Lsmr.FirstPivot

/-!
# LSMR: the units of the operator

The estimate of the condition number divides the largest `rhobar` by the smallest one.  The largest
one starts from a seed that does not scale, so two solves in different units part where the seed is
larger than every pivot; the first pivot tells that it is not.
-/

namespace LeastSquares.Lsmr

open Exact
open LinearMap (adjoint)

variable {A A' : Type} [LinearOperator A ℝ] [LinearOperator A' ℝ] {a : A} {a' : A'} {m n : ℕ}
  {M : EuclideanSpace ℝ (Fin n) →ₗ[ℝ] EuclideanSpace ℝ (Fin m)} {r : Rescaling}
  {w w' : Workspace ℝ} {rhs rhs' x x' : Array ℝ} {p p' : Params ℝ} {s s' : State ℝ}

section Condition

theorem State.Scaled.condA_eq (h : s.Scaled r m n s') (g g' : Basis ℝ) (q : Turn ℝ)
    (hlargest' : r.operator ≤ max s'.largest (r.operator * q.rhotemp))
    (hlargest : 1 ≤ r.operator * max s.largest q.rhotemp)
    (hsmallest' : min s'.smallest (r.operator * q.rhotemp) ≤ r.operator * 1e100)
    (hsmallest : r.operator * min s.smallest q.rhotemp ≤ 1e100) :
    (s'.turned g' (q.scaled r)).condA = (s.turned g q).condA := by
  have hmax := h.max_largest q.rhotemp
  have hmin := h.min_smallest q.rhotemp
  rw [max_eq_right hlargest', max_eq_right hlargest] at hmax
  rw [min_eq_right hsmallest', min_eq_right hsmallest] at hmin
  rw [State.condA_turned, State.condA_turned]
  exact (congrArg₂ (· / ·) hmax hmin).trans (mul_div_mul_left _ _ r.operator_pos.ne')

variable (hr : r.Relates M w w' a a' rhs rhs' x x' p p')

include hr

theorem Rescaling.Relates.gradient_eq :
    adjoint (r.operator • M) (vec m rhs' - (r.operator • M) (vec n x')) =
      (r.operator * (r.sign * r.data)) • adjoint M (vec m rhs - M (vec n x)) := by
  have hresidual : vec m rhs' - (r.operator • M) (vec n x') =
      (r.sign * r.data) • (vec m rhs - M (vec n x)) := by
    rw [hr.rhs, hr.x, LinearMap.smul_apply, M.map_smul, smul_smul, r.operator_mul_solution,
      smul_sub]
  rw [hresidual, adjoint_smul, LinearMap.map_smul, smul_smul]

theorem Rescaling.Relates.gradient_ne_zero (h : adjoint M (vec m rhs - M (vec n x)) ≠ 0) :
    adjoint (r.operator • M) (vec m rhs' - (r.operator • M) (vec n x')) ≠ 0 := by
  rw [hr.gradient_eq]
  exact smul_ne_zero r.gradient_factor_ne_zero h

theorem Rescaling.Relates.pivot_eq :
    stretch (r.operator • M) p'.damp
        (adjoint (r.operator • M) (vec m rhs' - (r.operator • M) (vec n x'))) =
      r.operator * stretch M p.damp (adjoint M (vec m rhs - M (vec n x))) := by
  rw [hr.gradient_eq, stretch_smul r.gradient_factor_ne_zero, hr.params,
    stretch_operator r.operator_pos]

theorem Rescaling.Relates.seeded' (head' : Head w' a' rhs' x' p' s') :
    s'.Seeded (r.operator • M) p'.damp
      (r.operator * stretch M p.damp (adjoint M (vec m rhs - M (vec n x)))) := by
  rw [← hr.pivot_eq]
  exact head'.seeded hr.realizes' hr.sized' hr.size_rhs' hr.size_x'

theorem Rescaling.Relates.sameCondition_of_operator (hone : r.operator = 1) :
    SameCondition w w' a a' rhs rhs' x x' p p' := by
  intro s s' g g' q q' head head' hcount hq hq'
  have hscaled := head.scaled hr head' hcount
  obtain ⟨rfl, -⟩ := hscaled.turns hr head head' hq hq'
  have hseeded := head.seeded hr.realizes hr.sized hr.size_rhs hr.size_x
  have hseeded' := hr.seeded' head'
  refine hscaled.condA_eq g g' q ?_ ?_ ?_ ?_
  · exact hone.trans_le (le_max_of_le_left hseeded'.one_le_largest)
  · rw [hone, one_mul]
    exact le_max_of_le_left hseeded.one_le_largest
  · rw [hone, one_mul, one_mul]
    exact min_le_of_left_le hseeded'.smallest_le
  · rw [hone, one_mul]
    exact min_le_of_left_le hseeded.smallest_le

/-- Where no seed shows in the first pivots, the condition numbers agree. -/
theorem Rescaling.Relates.sameCondition_of_seeds
    (hpivot : 1 ≤ stretch M p.damp (adjoint M (vec m rhs - M (vec n x))))
    (hpivot' : 1 ≤ r.operator * stretch M p.damp (adjoint M (vec m rhs - M (vec n x))))
    (hbound : ∀ y, stretch M p.damp y ≤ 1e100 ∧ r.operator * stretch M p.damp y ≤ 1e100) :
    SameCondition w w' a a' rhs rhs' x x' p p' := by
  have hmu := r.operator_pos
  intro s s' g g' q q' head head' hcount hq hq'
  have hscaled := head.scaled hr head' hcount
  obtain ⟨rfl, -⟩ := hscaled.turns hr head head' hq hq'
  have hs := (hr.head_tracks head).regular
  have hs' := (hr.head_tracks' head').regular
  have hg := hq.basis_extends hr.realizes hs
  have hg' := hq'.basis_extends hr.realizes' hs'
  have hseeded := head.seeded hr.realizes hr.sized hr.size_rhs hr.size_x
  have hseeded' := hr.seeded' head'
  have hle := hseeded.rhotemp_le hs hg (hq.rotates hs)
  refine hscaled.condA_eq g g' q ?_ ?_ ?_ ?_
  · exact (le_mul_of_one_le_right hmu.le hpivot).trans
      (hseeded'.pivot_le hs' hg' (hq'.rotates hs'))
  · exact hpivot'.trans
      (mul_le_mul_of_nonneg_left (hseeded.pivot_le hs hg (hq.rotates hs)) hmu.le)
  · exact min_le_of_right_le (mul_le_mul_of_nonneg_left (hle.trans (hbound _).1) hmu.le)
  · exact (mul_le_mul_of_nonneg_left (min_le_of_right_le hle) hmu.le).trans (hbound _).2

end Condition

theorem seeds_of_condition_eq {c pivot : ℝ} (hc : 0 < c) (hpivot : 0 < pivot)
    (h : max 1 (c * pivot) / (c * pivot) = max 1 pivot / pivot) :
    c = 1 ∨ 1 ≤ pivot ∧ 1 ≤ c * pivot := by
  have hcross : max 1 (c * pivot) = c * max 1 pivot := by
    rw [div_eq_div_iff (mul_pos hc hpivot).ne' hpivot.ne'] at h
    exact mul_right_cancel₀ hpivot.ne' (h.trans (by ring))
  rcases le_total 1 pivot with hge | hle
  · rw [max_eq_right hge] at hcross
    exact .inr ⟨hge, max_eq_right_iff.1 hcross⟩
  · rw [max_eq_left hle, mul_one] at hcross
    rcases le_total 1 (c * pivot) with hge' | hle'
    · rw [max_eq_right hge', mul_eq_left₀ hc.ne'] at hcross
      exact .inr ⟨hcross.ge, hge'⟩
    · exact .inl (hcross.symm.trans (max_eq_left hle'))

/-! ## The solve -/

/-- With `c` on the operator a solve makes as many iterations, stops for the same reason, estimates
the same condition number and residual, and answers the same `x` in its unit. -/
def UnitFree (w w' : Workspace ℝ) (a : A) (a' : A') (rhs x : Array ℝ) (c : ℝ) (p : Params ℝ) :
    Prop :=
  ∃ sol sol' info info', solve w a rhs x p = .ok sol ∧
    solve w' a' rhs (Vec.scale c⁻¹ x) { p with damp := p.damp * c } = .ok sol' ∧
    sol.info = some info ∧ sol'.info = some info' ∧ info'.iterations = info.iterations ∧
    info'.stop = info.stop ∧ info'.condA = info.condA ∧ info'.normR = info.normR ∧
    sol'.x = Vec.scale c⁻¹ sol.x

section Solve

variable {c : ℝ}

theorem eq_scale_of_vec (hc : 0 < c) {y y' : Array ℝ} (hy : y.size = n) (hy' : y'.size = n)
    (h : vec n y' = (Rescaling.ofOperator c hc).solution • vec n y) : y' = Vec.scale c⁻¹ y := by
  refine vec_injective hy' (by simpa [Vec.scale] using hy) (h.trans ?_)
  simp [Rescaling.ofOperator, Rescaling.solution, vec_scale _ hy]

variable (hc : 0 < c) (ha : Realizes a M) (ha' : Realizes a' (c • M)) (hw : w.Sized m n)
  (hw' : w'.Sized m n) (hrhs : rhs.size = m) (hx : x.size = n)

include ha ha' hw hw' hrhs hx

theorem relates_ofOperator (p : Params ℝ) : (Rescaling.ofOperator c hc).Relates M w w' a a' rhs rhs
    x (Vec.scale c⁻¹ x) p { p with damp := p.damp * c } where
  realizes := ha
  realizes' := ha'
  sized := hw
  sized' := hw'
  size_rhs := hrhs
  size_rhs' := hrhs
  size_x := hx
  size_x' := by simpa [Vec.scale] using hx
  rhs := by simp [Rescaling.ofOperator]
  x := by simp [Rescaling.ofOperator, Rescaling.solution, vec_scale _ hx]
  params := by
    rw [mul_comm]
    rfl

include hc

theorem solve_pair_ends (p : Params ℝ) : ∃ sol sol' t t' rule rule',
    solve w a rhs x p = .ok sol ∧
      solve w' a' rhs (Vec.scale c⁻¹ x) { p with damp := p.damp * c } = .ok sol' ∧
      sol.info = some (t.info rule) ∧ sol'.info = some (t'.info rule') ∧
      Exit w a rhs x p t rule ∧
      Exit w' a' rhs (Vec.scale c⁻¹ x) { p with damp := p.damp * c } t' rule' ∧
      (vec n t'.x = (Rescaling.ofOperator c hc).solution • vec n t.x →
        sol'.x = Vec.scale c⁻¹ sol.x) := by
  have hx' : (Vec.scale c⁻¹ x).size = n := by simpa [Vec.scale] using hx
  obtain ⟨sol, t, rule, hsolve, exit, hinfo, hsol⟩ := solve_ends ha hw hrhs hx p
  obtain ⟨sol', t', rule', hsolve', exit', hinfo', hsol'⟩ :=
    solve_ends ha' hw' hrhs hx' { p with damp := p.damp * c }
  refine ⟨sol, sol', t, t', rule, rule', hsolve, hsolve', hinfo, hinfo', exit, exit', ?_⟩
  intro h
  rw [hsol, hsol']
  exact eq_scale_of_vec hc (exit.faithful ha hw hrhs hx).size_x
    (exit'.faithful ha' hw' hrhs hx').size_x h

theorem unitFree_of_sameCondition (hsame : SameCondition w w' a a' rhs rhs x (Vec.scale c⁻¹ x) p
    { p with damp := p.damp * c }) : UnitFree w w' a a' rhs x c p := by
  have hr := relates_ofOperator hc ha ha' hw hw' hrhs hx p
  obtain ⟨sol, sol', t, t', rule, rule', hsolve, hsolve', hinfo, hinfo', exit, exit', hsol⟩ :=
    solve_pair_ends hc ha ha' hw hw' hrhs hx p
  rcases exit.scaled hr exit' with ⟨hscaled, hvec, hcond⟩ | ⟨hne, -⟩
  · exact ⟨sol, sol', _, _, hsolve, hsolve', hinfo, hinfo', hscaled.iterations, hscaled.stop,
      hcond hsame, hscaled.normR.trans (one_mul _), hsol hvec⟩
  · exact absurd hsame hne

/-- Where the second solve makes one iteration, the seeds would show in its condition number. -/
theorem seeds_of_unitFree (hne : adjoint M (vec m rhs - M (vec n x)) ≠ 0)
    (hbound : stretch M p.damp (adjoint M (vec m rhs - M (vec n x))) ≤ 1e100 ∧
      c * stretch M p.damp (adjoint M (vec m rhs - M (vec n x))) ≤ 1e100)
    (hfirst : ∀ t' rule', Exit w' a' rhs (Vec.scale c⁻¹ x) { p with damp := p.damp * c } t' rule' →
      t'.iteration = 1)
    (h : UnitFree w w' a a' rhs x c p) :
    c = 1 ∨ 1 ≤ stretch M p.damp (adjoint M (vec m rhs - M (vec n x))) ∧
      1 ≤ c * stretch M p.damp (adjoint M (vec m rhs - M (vec n x))) := by
  have hr := relates_ofOperator hc ha ha' hw hw' hrhs hx p
  have hpivot : stretch (c • M) (p.damp * c)
      (adjoint (c • M) (vec m rhs - (c • M) (vec n (Vec.scale c⁻¹ x)))) =
        c * stretch M p.damp (adjoint M (vec m rhs - M (vec n x))) := hr.pivot_eq
  obtain ⟨sol, sol', t, t', rule, rule', hsolve, hsolve', hinfo, hinfo', exit, exit', -⟩ :=
    solve_pair_ends hc ha ha' hw hw' hrhs hx p
  obtain ⟨_, _, _, _, hsol, hsol', hsome, hsome', hiterations, -, hcond, -⟩ := h
  cases hsolve.symm.trans hsol
  cases hsolve'.symm.trans hsol'
  cases hinfo.symm.trans hsome
  cases hinfo'.symm.trans hsome'
  have hcount' := hfirst t' rule' exit'
  have hfirst := exit.condA_first ha hw hrhs hx hne (hiterations.symm.trans hcount')
  have hfirst' := exit'.condA_first ha' hw' hrhs hr.size_x' (hr.gradient_ne_zero hne) hcount'
  have hequal : t'.condA = t.condA := hcond
  rw [hfirst, hfirst', hpivot, min_eq_right hbound.1, min_eq_right hbound.2] at hequal
  exact seeds_of_condition_eq hc (stretch_adjoint_pos p.damp hne) hequal

end Solve

/-- A solve over exact scalars does not depend on the unit of the operator, up to the condition
number, unless one of the two solves stops first at the limit on it.  As long as no vector is
stretched beyond the bound from which the smallest pivot starts, the condition number is free of the
unit too, with all tolerances and limits, exactly where the first pivot is at least as large as the
seed of the largest one in both units. -/
theorem solve_rescaled {c : ℝ} (hc : 0 < c) (ha : Realizes a M) (ha' : Realizes a' (c • M))
    (hw : w.Sized m n) (hw' : w'.Sized m n) (hrhs : rhs.size = m) (hx : x.size = n) :
    (∀ p, ∃ sol sol' info info', solve w a rhs x p = .ok sol ∧
      solve w' a' rhs (Vec.scale c⁻¹ x) { p with damp := p.damp * c } = .ok sol' ∧
      sol.info = some info ∧ sol'.info = some info' ∧
      (info.Scaled (.ofOperator c hc) info' ∧ sol'.x = Vec.scale c⁻¹ sol.x ∨
        info.stop = .conditionLimit ∧ info.iterations ≤ info'.iterations ∨
        info'.stop = .conditionLimit ∧ info'.iterations ≤ info.iterations)) ∧
    ∀ damp, (∀ y, stretch M damp y ≤ 1e100 ∧ c * stretch M damp y ≤ 1e100) →
      ((∀ p, p.damp = damp → UnitFree w w' a a' rhs x c p) ↔
        adjoint M (vec m rhs - M (vec n x)) = 0 ∨ c = 1 ∨
          1 ≤ stretch M damp (adjoint M (vec m rhs - M (vec n x))) ∧
            1 ≤ c * stretch M damp (adjoint M (vec m rhs - M (vec n x)))) := by
  refine ⟨fun p => ?_, fun damp hbound => ⟨fun hall => ?_, ?_⟩⟩
  · obtain ⟨sol, sol', t, t', rule, rule', hsolve, hsolve', hinfo, hinfo', exit, exit', hsol⟩ :=
      solve_pair_ends hc ha ha' hw hw' hrhs hx p
    refine ⟨sol, sol', _, _, hsolve, hsolve', hinfo, hinfo', ?_⟩
    exact (exit.scaled (relates_ofOperator hc ha ha' hw hw' hrhs hx p) exit').imp
      (fun h => ⟨h.1, hsol h.2.1⟩) And.right
  · refine or_iff_not_imp_left.2 fun hne => ?_
    let p : Params ℝ := ⟨0, 0, 0, 1, damp⟩
    have hr := relates_ofOperator hc ha ha' hw hw' hrhs hx p
    refine seeds_of_unitFree (p := p) hc ha ha' hw hw' hrhs hx hne (hbound _) ?_ (hall p rfl)
    intro t' rule' exit'
    exact exit'.iteration_eq_one ha' hw' hrhs hr.size_x' (hr.gradient_ne_zero hne) (.inl le_rfl)
  · rintro hcases p rfl
    have hr := relates_ofOperator hc ha ha' hw hw' hrhs hx p
    refine unitFree_of_sameCondition hc ha ha' hw hw' hrhs hx ?_
    rcases hcases with hzero | hone | ⟨hpivot, hpivot'⟩
    · intro s s' g g' q q' head
      obtain ⟨g₀, starts, hg⟩ := firstBasis_done ha hw hrhs hx
      have hrests : (State.initial w.hbar x g₀).normAr = 0 := by
        rw [hg.normAr_eq, hzero, norm_zero]
      exact absurd hrests (of_decide_eq_false (head.moves starts))
    · exact hr.sameCondition_of_operator hone
    · exact hr.sameCondition_of_seeds hpivot hpivot' hbound

/-! ## A diagonal operator -/

noncomputable def gradedEntry (row col : ℕ) : ℝ := if row = col then row + 1 else 0

section Graded

variable (y : EuclideanSpace ℝ (Fin 2))

theorem linear_graded : linear 2 2 (.ofFn 2 2 gradedEntry) y = vec 2 #[y 0, 2 * y 1] := by
  ext i
  fin_cases i
  · simp [linear_apply, entries_ofFn, gradedEntry]
  · simp [linear_apply, entries_ofFn, gradedEntry]
    norm_num

theorem adjoint_linear_graded :
    adjoint (linear 2 2 (.ofFn 2 2 gradedEntry)) y = vec 2 #[y 0, 2 * y 1] := by
  ext i
  fin_cases i
  · simp [adjoint_linear_apply, entries_ofFn, gradedEntry]
  · simp [adjoint_linear_apply, entries_ofFn, gradedEntry]
    norm_num

theorem norm_sq_graded :
    ‖linear 2 2 (.ofFn 2 2 gradedEntry) y‖ ^ 2 = ‖y‖ ^ 2 + 3 * y 1 ^ 2 := by
  rw [linear_graded, EuclideanSpace.norm_sq_eq, EuclideanSpace.norm_sq_eq, Fin.sum_univ_two,
    Fin.sum_univ_two]
  simp only [Real.norm_eq_abs, sq_abs]
  simp
  ring

theorem stretch_graded_le : stretch (linear 2 2 (.ofFn 2 2 gradedEntry)) 0 y ≤ 2 := by
  refine stretch_le zero_le_two ?_
  have hnorm : ‖y‖ ^ 2 = y 0 ^ 2 + y 1 ^ 2 := by
    simp [EuclideanSpace.norm_sq_eq, Fin.sum_univ_two]
  rw [norm_sq_graded, hnorm]
  linarith [sq_nonneg (y 0)]

theorem one_le_stretch_graded (h : y ≠ 0) :
    1 ≤ stretch (linear 2 2 (.ofFn 2 2 gradedEntry)) 0 y := by
  rw [stretch, one_le_div (norm_pos_iff.2 h), norm_sq_graded]
  exact Real.le_sqrt_of_sq_le (by linarith [sq_nonneg (y 1)])

end Graded

theorem gradient_graded_ne_zero : adjoint (linear 2 2 (.ofFn 2 2 gradedEntry))
    (vec 2 #[1, 1] - linear 2 2 (.ofFn 2 2 gradedEntry) (vec 2 #[0, 0])) ≠ 0 := by
  intro hzero
  have hentry := congrArg (fun y : EuclideanSpace ℝ (Fin 2) => y 0) hzero
  simp [adjoint_linear_graded, linear_graded] at hentry

theorem solve_rescaled_graded :
    let a : Dense.Matrix ℝ := .ofFn 2 2 gradedEntry
    let a' : Dense.Matrix ℝ := .ofFn 2 2 fun row col => 4 * gradedEntry row col
    Realizes a (linear 2 2 a) ∧ Realizes a' ((4 : ℝ) • linear 2 2 a) ∧
      ∀ p : Params ℝ, p.damp = 0 →
        UnitFree (Workspace.new 2 2) (Workspace.new 2 2) a a' #[1, 1] #[0, 0] 4 p := by
  intro a a'
  have ha : Realizes a (linear 2 2 a) := realizes_ofFn 2 2 gradedEntry
  have ha' : Realizes a' ((4 : ℝ) • linear 2 2 a) := realizes_ofFn_smul 2 2 4 gradedEntry
  have hsized := Workspace.sized_new 2 2
  refine ⟨ha, ha', ((solve_rescaled four_pos ha ha' hsized hsized rfl rfl).2 0 fun y => ?_).2 ?_⟩
  · have hle := stretch_graded_le y
    constructor <;> norm_num <;> linarith
  · have hge := one_le_stretch_graded _ gradient_graded_ne_zero
    exact .inr (.inr ⟨hge, by linarith⟩)

/-- A well-conditioned operator in a small unit passes for a singular one with the default
parameters: the seed is the largest `rhobar`, and the limit on the condition number stops the first
iteration. -/
theorem solve_not_unitFree_graded :
    let a : Dense.Matrix ℝ := .ofFn 2 2 gradedEntry
    let a' : Dense.Matrix ℝ := .ofFn 2 2 fun row col => 1 / 2 ^ 40 * gradedEntry row col
    ¬ UnitFree (Workspace.new 2 2) (Workspace.new 2 2) a a' #[1, 1] #[0, 0] (1 / 2 ^ 40)
      Params.default := by
  intro a a' h
  have ha : Realizes a (linear 2 2 a) := realizes_ofFn 2 2 gradedEntry
  have ha' : Realizes a' ((1 / 2 ^ 40 : ℝ) • linear 2 2 a) :=
    realizes_ofFn_smul 2 2 (1 / 2 ^ 40) gradedEntry
  have hc : (0 : ℝ) < 1 / 2 ^ 40 := by positivity
  have hsized := Workspace.sized_new 2 2
  have hne := gradient_graded_ne_zero
  have hrhs : (#[1, 1] : Array ℝ).size = 2 := rfl
  have hx : (#[0, 0] : Array ℝ).size = 2 := rfl
  have hr := relates_ofOperator hc ha ha' hsized hsized hrhs hx Params.default
  -- In the small unit the first pivot is far below the seed.
  obtain ⟨pivot, hpivot⟩ : ∃ pivot, stretch (linear 2 2 a) Params.default.damp
      (adjoint (linear 2 2 a) (vec 2 #[1, 1] - linear 2 2 a (vec 2 #[0, 0]))) = pivot := ⟨_, rfl⟩
  have hge : 1 ≤ pivot := hpivot ▸ one_le_stretch_graded _ hne
  have hle : pivot ≤ 2 := hpivot ▸ stretch_graded_le _
  have hsmall : 1 / 2 ^ 40 * pivot ≤ 1 / 2 ^ 39 := by
    refine (mul_le_mul_of_nonneg_left hle hc.le).trans ?_
    norm_num
  have hsmall_lt : 1 / 2 ^ 40 * pivot < 1 := hsmall.trans_lt (by norm_num)
  have hlimit : 1e10 ≤ max 1 (1 / 2 ^ 40 * pivot) / min 1e100 (1 / 2 ^ 40 * pivot) := by
    rw [max_eq_left hsmall_lt.le, min_eq_right (hsmall_lt.le.trans (by norm_num)),
      le_div_iff₀ (by positivity)]
    refine (mul_le_mul_of_nonneg_left hsmall (by norm_num)).trans ?_
    norm_num
  have hseeds := seeds_of_unitFree hc ha ha' hsized hsized hrhs hx hne ?_ ?_ h
  · rw [hpivot] at hseeds
    rcases hseeds with hone | ⟨-, hlarge⟩
    · norm_num at hone
    · exact absurd hlarge (not_le.2 hsmall_lt)
  · rw [hpivot]
    constructor
    · exact hle.trans (by norm_num)
    · exact hsmall_lt.le.trans (by norm_num)
  · intro t' rule' exit'
    have hpivot' := hr.pivot_eq
    rw [hpivot] at hpivot'
    refine exit'.iteration_eq_one ha' hsized hrhs hr.size_x' (hr.gradient_ne_zero hne) (.inr ?_)
    refine ⟨by norm_num [Params.default], ?_⟩
    exact hlimit.trans_eq (congrArg (fun y => max 1 y / min 1e100 y) hpivot'.symm)

end LeastSquares.Lsmr
