import Mathlib
import LeastSquares.Proofs.Exact.Division
import LeastSquares.Proofs.Lsmr.Units

/-!
# LSMR: what an iteration divides by

Every pivot of an exact iteration is a hypotenuse over one that was positive before it, and every
estimate is at least the part of it that is positive already.  The one divisor that can vanish is
the residual norm, in the test of the normal residual.  It vanishes only in the last iteration, and
that iteration ends the solve whatever the test makes of it.
-/

namespace LeastSquares.Lsmr

open Exact
open LinearMap (adjoint)

variable {A : Type} [LinearOperator A ℝ] {a : A} {m n : ℕ}
  {M : EuclideanSpace ℝ (Fin n) →ₗ[ℝ] EuclideanSpace ℝ (Fin m)} {damp : ℝ}
  {b : EuclideanSpace ℝ (Fin m)} {x₀ : EuclideanSpace ℝ (Fin n)} {s t : State ℝ} {p : Params ℝ}
  {g : Basis ℝ} {f : Factors ℝ} {q : Turn ℝ} {rule : Stop} {atZero : ℝ → ℝ}

/-! ## Positive divisors -/

structure State.Pivots (s : State ℝ) (g : Basis ℝ) (q : Turn ℝ) : Prop where
  rho : 0 < q.rho
  rhobar : 0 < q.rhobar
  rhotemp : 0 < q.rhotemp
  cbar : 0 < q.cbar
  rhoold : 0 < s.factors.rho
  rhobarold : 0 < s.factors.rhobar
  rhodold : 0 < s.residual.rhodold
  rhotildeold : 0 < Scalar.hypot s.residual.rhodold q.thetabar
  rhodold_turned : 0 < (s.turned g q).residual.rhodold
  condA : 0 < (s.turned g q).condA
  normA : 0 < (s.turned g q).normA
  normB : 0 < (s.turned g q).normB

theorem State.Tracks.pivots (hs : s.Tracks M damp b x₀) (hg : Basis.Extends M s.basis g)
    (ht : q.Rotates damp g s.factors) (hd : q.Damps s.factors) : s.Pivots g q where
  rho := ht.rho_pos
  rhobar := ht.rhobar_pos
  rhotemp := ht.rhotemp ▸ mul_pos hs.regular.factors.cbar ht.rho_pos
  cbar := ht.cbar_pos
  rhoold := hs.regular.factors.rho
  rhobarold := hs.regular.factors.rhobar
  rhodold := hs.regular.residual.rhodold
  rhotildeold := hypot_pos_left hs.regular.residual.rhodold.ne' _
  rhodold_turned :=
    mul_pos (div_pos hs.regular.residual.rhodold
      (hypot_pos_left hs.regular.residual.rhodold.ne' _)) ht.rhobar_pos
  condA := (hs.measured_turned hg ht hd).condA
  normA := (hs.measured_turned hg ht hd).normA
  normB := (hs.measured_turned hg ht hd).normB

theorem Turn.Rotates.zetabar_of_breakdown (ht : q.Rotates damp g s.factors)
    (hg : Basis.Extends M s.basis g) (halpha : 0 ≤ s.basis.alpha)
    (hbreakdown : g.beta = 0 ∨ g.alpha = 0) : q.zetabar = 0 := by
  have hsbar : q.sbar = 0 := by
    by_contra hne
    obtain ⟨hbeta, halpha'⟩ := ht.further hg halpha hne
    exact hbreakdown.elim hbeta.ne' halpha'.ne'
  rw [ht.zetabar, hsbar, neg_zero, zero_mul]

theorem State.stopRule?_ne_exactFit (p : Params ℝ) (s : State ℝ) :
    s.stopRule? p ≠ some .exactFit := by
  unfold stopRule?
  dsimp only
  split_ifs <;> nofun

/-! ## One iteration with arbitrary quotients by zero -/

theorem normalize_dividing (length : ℝ) (xs : Array ℝ) :
    @Vec.normalize ℝ (dividing atZero) length xs = Vec.normalize length xs := by
  unfold Vec.normalize
  by_cases h : 0 < length
  · simp only [dividing_div _ h.ne']
    unfold dividing
    rfl
  · unfold dividing
    exact (if_neg h).trans (if_neg h).symm

theorem Basis.unit_dividing (w : Array ℝ) : @unit ℝ (dividing atZero) w = unit w := by
  refine Prod.ext ?_ ((normalize_dividing _ _).trans ?_)
  all_goals
    unfold dividing
    rfl

theorem Basis.extend_dividing (g : Basis ℝ) :
    @extend ℝ (dividing atZero) A _ a g = g.extend a := by
  unfold extend
  simp only [unit_dividing]
  unfold dividing
  rfl

theorem turn?_dividing (hf : f.Regular) :
    @turn? ℝ (dividing atZero) damp g f = turn? damp g f := by
  have halphahat : 0 < Scalar.hypot f.alphabar damp := hypot_pos_left hf.alphabar.ne' damp
  have hrho : 0 < Scalar.hypot (Scalar.hypot f.alphabar damp) g.beta :=
    hypot_pos_left halphahat.ne' g.beta
  have hrhobar := hypot_pos_left (mul_pos hf.cbar hrho).ne'
    (g.beta / Scalar.hypot (Scalar.hypot f.alphabar damp) g.beta * g.alpha)
  unfold turn?
  simp only [dividing_hypot, dividing_mul, dividing_div _ halphahat.ne', dividing_div _ hrho.ne',
    dividing_div _ hrhobar.ne']
  unfold dividing
  rfl

theorem ResidualEstimate.advance_dividing {e : ResidualEstimate ℝ} (he : e.Regular)
    (ht : q.Rotates damp g f) (zetaold : ℝ) :
    @advance ℝ (dividing atZero) e zetaold q = e.advance zetaold q := by
  have hrhotilde : 0 < Scalar.hypot e.rhodold q.thetabar := hypot_pos_left he.rhodold.ne' _
  have hrhodold : e.rhodold / Scalar.hypot e.rhodold q.thetabar * q.rhobar ≠ 0 :=
    rhodold_advance_ne_zero he ht zetaold
  unfold advance
  simp only [dividing_hypot, dividing_mul, dividing_div _ hrhotilde.ne', dividing_div _ hrhodold]
  unfold dividing
  rfl

theorem OperatorEstimate.advance_dividing {e : OperatorEstimate ℝ} (he : e.Regular)
    (iteration : ℕ) (g : Basis ℝ) {rhobarold rhotemp : ℝ} (hrhobar : 0 < rhobarold)
    (hrhotemp : 0 < rhotemp) :
    @advance ℝ (dividing atZero) e iteration g rhobarold rhotemp =
      e.advance iteration g rhobarold rhotemp := by
  have hminrbar := (he.advance iteration g hrhobar hrhotemp).1.minrbar
  simp only [advance] at hminrbar
  have hlast : 0 < Scalar.min
      (if 1 < iteration then Scalar.min e.minrbar rhobarold else e.minrbar) rhotemp := by
    rw [min_eq]
    exact lt_min hminrbar hrhotemp
  unfold advance
  simp only [dividing_min, dividing_div _ hlast.ne']
  unfold dividing
  rfl

theorem State.Regular.turned_dividing (hs : s.Regular M damp b x₀)
    (ht : q.Rotates damp g s.factors) :
    @State.advance ℝ (dividing atZero) { s with iteration := s.iteration + 1, basis := g } q =
      s.turned g q := by
  have hrhotemp : 0 < q.rhotemp := ht.rhotemp ▸ mul_pos hs.factors.cbar ht.rho_pos
  have hold := (mul_pos hs.factors.rho hs.factors.rhobar).ne'
  have hnew := (mul_pos ht.rho_pos ht.rhobar_pos).ne'
  unfold State.turned State.advance
  simp only [dividing_mul, dividing_div _ hold, dividing_div _ hnew, dividing_div _ ht.rho_pos.ne',
    ResidualEstimate.advance_dividing hs.residual ht,
    OperatorEstimate.advance_dividing hs.operator _ _ hs.factors.rhobar hrhotemp]
  unfold dividing
  rfl

/-! ## The rules -/

namespace State.Measured

variable (hs : s.Measured) (hX : 0 ≤ s.normX)

include hs hX

theorem growth_ne_zero : 1 + s.normA * s.normX / s.normB ≠ 0 :=
  (add_pos_of_pos_of_nonneg one_pos
    (div_nonneg (mul_nonneg hs.normA.le hX) hs.normB.le)).ne'

theorem stopRule?_dividing (atZero : ℝ → ℝ) (p : Params ℝ) (hR : s.normR ≠ 0) :
    @stopRule? ℝ (dividing atZero) p s = s.stopRule? p := by
  have hB := hs.normB.ne'
  have hcond := hs.condA.ne'
  have hAR := mul_ne_zero hs.normA.ne' hR
  have hgrowth := hs.growth_ne_zero hX
  unfold stopRule?
  by_cases hlimit : 0 < p.conlim
  · simp only [dividing_zero, dividing_one, dividing_add, dividing_mul, dividing_lt, dividing_le,
      dividing_div _ hB, dividing_div _ hcond, dividing_div _ hAR, dividing_div _ hgrowth,
      dividing_div _ hlimit.ne']
  · simp only [dividing_zero, dividing_one, dividing_add, dividing_mul, dividing_lt, dividing_le,
      dividing_div _ hB, dividing_div _ hcond, dividing_div _ hAR, dividing_div _ hgrowth,
      if_neg hlimit]

theorem isSome_stopRule?_dividing (atZero : ℝ → ℝ) (p : Params ℝ) (hR : s.normR = 0) :
    (@stopRule? ℝ (dividing atZero) p s).isSome = true := by
  have htest : s.normR / s.normB / (1 + s.normA * s.normX / s.normB) = 0 := by
    rw [hR, zero_div, zero_div]
  unfold stopRule?
  simp only [dividing_zero, dividing_one, dividing_add, dividing_mul, dividing_lt, dividing_le,
    dividing_div _ hs.normB.ne', dividing_div _ (hs.growth_ne_zero hX), htest, add_zero, le_refl,
    if_true]
  split_ifs <;> rfl

end State.Measured

namespace State.Turns

variable (hq : s.Turns a p.damp g q)

include hq

theorem stops_of_normAr (hAr : (s.turned g q).normAr = 0) :
    ∃ rule, step a p s = .stop (s.turned g q) rule := by
  obtain ⟨rule, hrule⟩ :=
    Option.isSome_iff_exists.1 (State.isSome_stopRule?_of_normAr (p := p) hAr)
  exact ⟨rule, hq.step_eq_stop hrule⟩

variable (hs : s.Tracks M p.damp b x₀)

include hs

theorem step_dividing : @step ℝ (dividing atZero) A _ a p s =
    (@State.stopRule? ℝ (dividing atZero) p (s.turned g q)).elim (.next (s.turned g q))
      (.stop (s.turned g q)) := by
  unfold step
  simp only [Basis.extend_dividing, hq.extended, turn?_dividing hs.regular.factors, hq.rotated,
    hs.regular.turned_dividing (hq.rotates hs.regular)]
  cases @State.stopRule? ℝ (dividing atZero) p (s.turned g q) <;> rfl

variable (ha : Realizes a M)

include ha

theorem stops (h : g.beta = 0 ∨ g.alpha = 0 ∨ (s.turned g q).normR = 0) :
    ∃ rule, step a p s = .stop (s.turned g q) rule := by
  refine hq.stops_of_normAr ?_
  rcases or_assoc.2 h with hbreakdown | hR
  · exact abs_eq_zero.2 ((hq.rotates hs.regular).zetabar_of_breakdown
      (hq.basis_extends ha hs.regular) hs.regular.alpha.le hbreakdown)
  · exact (hq.measured ha hs).normAr hR

theorem step_dividing_eq (atZero : ℝ → ℝ) (hR : (s.turned g q).normR ≠ 0) :
    @step ℝ (dividing atZero) A _ a p s = step a p s := by
  have hsame := (hq.measured ha hs).stopRule?_dividing (Real.sqrt_nonneg _) atZero p hR
  cases hrule : (s.turned g q).stopRule? p with
  | none =>
    rw [hq.step_eq_next hrule, hq.step_dividing hs, hsame, hrule, Option.elim_none]
  | some rule =>
    rw [hq.step_eq_stop hrule, hq.step_dividing hs, hsame, hrule, Option.elim_some]

theorem stops_dividing (atZero : ℝ → ℝ) (hR : (s.turned g q).normR = 0) :
    ∃ rule, @step ℝ (dividing atZero) A _ a p s = .stop (s.turned g q) rule := by
  have hsome := (hq.measured ha hs).isSome_stopRule?_dividing (Real.sqrt_nonneg _) atZero p hR
  obtain ⟨rule, hrule⟩ := Option.isSome_iff_exists.1 hsome
  exact ⟨rule, by rw [hq.step_dividing hs, hrule, Option.elim_some]⟩

end State.Turns

theorem State.Tracks.step_dividing (atZero : ℝ → ℝ) (ha : Realizes a M)
    (hs : s.Tracks M p.damp b x₀) :
    (∃ t, t.Tracks M p.damp b x₀ ∧ Lsmr.step a p s = .next t ∧
        @Lsmr.step ℝ (dividing atZero) A _ a p s = .next t) ∨
      ∃ t rule rule', Lsmr.step a p s = .stop t rule ∧
        @Lsmr.step ℝ (dividing atZero) A _ a p s = .stop t rule' ∧
        (t.normR ≠ 0 → rule' = rule) := by
  obtain ⟨g, q, hq⟩ := hs.regular.exists_turns ha
  by_cases hR : (s.turned g q).normR = 0
  · obtain ⟨rule, hstop⟩ := hq.stops hs ha (.inr (.inr hR))
    obtain ⟨rule', hstop'⟩ := hq.stops_dividing hs ha atZero hR
    exact .inr ⟨_, rule, rule', hstop, hstop', (absurd hR ·)⟩
  · have hsame := hq.step_dividing_eq hs ha atZero hR
    cases hrule : (s.turned g q).stopRule? p with
    | none =>
      have hnext := hq.step_eq_next hrule
      exact .inl ⟨_, hs.next ha hnext, hnext, hsame.trans hnext⟩
    | some rule =>
      have hstop := hq.step_eq_stop hrule
      exact .inr ⟨_, rule, rule, hstop, hsame.trans hstop, fun _ => rfl⟩

/-! ## The run -/

/-- Two answers of one solve that differ at most in the rule, and in that only where no residual is
left. -/
structure Solution.SameEnd (sol sol' : Solution ℝ) : Prop where
  workspace : sol'.workspace = sol.workspace
  x : sol'.x = sol.x
  info : ∀ info, sol.info = some info → ∃ rule, sol'.info = some { info with stop := rule }
  eq_of_normR : ∀ info, sol.info = some info → info.normR ≠ 0 → sol' = sol

theorem Solution.SameEnd.refl (sol : Solution ℝ) : sol.SameEnd sol :=
  ⟨rfl, rfl, fun info hinfo => ⟨info.stop, hinfo⟩, fun _ _ _ => rfl⟩

theorem State.sameEnd_solution (t : State ℝ) {rule rule' : Stop}
    (h : t.normR ≠ 0 → rule' = rule) :
    (t.solution (some rule)).SameEnd (t.solution (some rule')) where
  workspace := rfl
  x := rfl
  info := by
    rintro _ ⟨⟩
    exact ⟨rule', rfl⟩
  eq_of_normR := by
    rintro _ ⟨⟩ hR
    rw [h hR]

theorem iterate_dividing (atZero : ℝ → ℝ) (ha : Realizes a M) (further : ℕ)
    (hs : s.Tracks M p.damp b x₀) :
    ∃ t rule rule', iterate a p further s = (t, some rule) ∧
      @iterate ℝ (dividing atZero) A _ a p further s = (t, some rule') ∧
      (t.normR ≠ 0 → rule' = rule) := by
  induction further generalizing s with
  | zero =>
    rcases hs.step_dividing atZero ha with
      ⟨t, -, hnext, hnext'⟩ | ⟨t, rule, rule', hstop, hstop', hsame⟩
    · exact ⟨t, .maxIterations, .maxIterations, by simp only [iterate, hnext],
        by simp only [iterate, hnext'], fun _ => rfl⟩
    · exact ⟨t, rule, rule', by simp only [iterate, hstop], by simp only [iterate, hstop'], hsame⟩
  | succ further ih =>
    rcases hs.step_dividing atZero ha with
      ⟨t, ht, hnext, hnext'⟩ | ⟨t, rule, rule', hstop, hstop', hsame⟩
    · obtain ⟨last, rule, rule', hrun, hrun', hsame⟩ := ih ht
      exact ⟨last, rule, rule', by simp only [iterate, hnext, hrun],
        by simp only [iterate, hnext', hrun'], hsame⟩
    · exact ⟨t, rule, rule', by simp only [iterate, hstop], by simp only [iterate, hstop'], hsame⟩

section Run

variable {w : Workspace ℝ} {rhs x : Array ℝ} (ha : Realizes a M) (hw : w.Sized m n)
  (hrhs : rhs.size = m) (hx : x.size = n)

theorem firstBasis_dividing (atZero : ℝ → ℝ) :
    @firstBasis ℝ (dividing atZero) A _ w a rhs x = firstBasis w a rhs x := by
  unfold firstBasis
  simp only [Basis.unit_dividing]
  unfold dividing
  rfl

include ha hw hrhs hx

/-- For every choice of the quotients by zero a solve ends in the same state. -/
theorem solveFitting_dividing (atZero : ℝ → ℝ) : (solveFitting w a rhs x p).SameEnd
    (@solveFitting ℝ (dividing atZero) A _ w a rhs x p) := by
  obtain ⟨g, hfirst, -⟩ := firstBasis_done ha hw hrhs hx
  have hfirst' := (firstBasis_dividing atZero).trans hfirst
  have hinitial : @State.initial ℝ (dividing atZero) w.hbar x g = State.initial w.hbar x g := by
    unfold dividing
    rfl
  have hbeq : ∀ y : ℝ, @BEq.beq ℝ (dividing atZero).toBEq y
      (@OfNat.ofNat ℝ 0 (@Zero.toOfNat0 ℝ (dividing atZero).toZero)) = (y == 0) := by
    intro y
    unfold dividing
    rfl
  unfold solveFitting
  simp only [hfirst, hfirst', hinitial, hbeq]
  cases hzero : ((State.initial w.hbar x g).normAr == 0) with
  | true => exact .refl _
  | false =>
    have hs : (State.initial w.hbar x g).Tracks M p.damp (vec m rhs) (vec n x) :=
      initial_tracks ha hw hrhs hx hfirst hzero
    obtain ⟨t, rule, rule', hrun, hrun', hsame⟩ :=
      iterate_dividing atZero ha (p.maxIters - 1) hs
    simp only [Bool.false_eq_true, if_false, hrun, hrun']
    exact State.sameEnd_solution t hsame

theorem solve_dividing (atZero : ℝ → ℝ) : @solve ℝ (dividing atZero) A _ w a rhs x p =
    .ok (@solveFitting ℝ (dividing atZero) A _ w a rhs x p) := by
  have hok := solve_eq_ok ha hw hrhs hx p
  unfold solve at hok ⊢
  split_ifs at hok with hshape hlength hparameters
  rw [if_neg hshape, if_neg hlength, if_neg hparameters]

theorem Exit.exactFit_iff (exit : Exit w a rhs x p t rule) :
    rule = .exactFit ↔ adjoint M (vec m rhs - M (vec n x)) = 0 := by
  obtain ⟨g, starts, hg⟩ := firstBasis_done ha hw hrhs hx
  have hnormAr : (State.initial w.hbar x g).normAr = ‖adjoint M (vec m rhs - M (vec n x))‖ :=
    hg.normAr_eq
  constructor
  · rintro rfl
    cases exit with
    | rests starts' zero =>
      cases starts.symm.trans starts'
      exact norm_eq_zero.1 (hnormAr.symm.trans (of_decide_eq_true zero))
    | @stopped s _ _ head stops =>
      obtain ⟨g, q, hq⟩ := (head.tracks ha hw hrhs hx).regular.exists_turns ha
      exact absurd (hq.of_stop stops).2 (State.stopRule?_ne_exactFit p _)
  · intro hzero
    exact (exit.eq_rest starts (decide_eq_true (by rw [hnormAr, hzero, norm_zero]))).2

theorem Exit.x_of_exactFit (exit : Exit w a rhs x p t .exactFit) : t.x = x := by
  cases exit with
  | rests => rfl
  | @stopped s _ _ head stops =>
    obtain ⟨g, q, hq⟩ := (head.tracks ha hw hrhs hx).regular.exists_turns ha
    exact absurd (hq.of_stop stops).2 (State.stopRule?_ne_exactFit p _)

end Run

/-! ## The solve -/

/-- In a solve over exact scalars every pivot and every estimate that an iteration divides by is
positive, but for the residual norm.  The iteration in which the bidiagonalization breaks down or
the residual norm vanishes is the last, and the rule that ends it is all that a quotient by zero can
have a say in.  The exact fit is found only at the start, where `x` solves the problem already. -/
theorem solve_divisors (ha : Realizes a M) {w : Workspace ℝ} (hw : w.Sized m n) {rhs x : Array ℝ}
    (hrhs : rhs.size = m) (hx : x.size = n) (p : Params ℝ) :
    (∀ s, Head w a rhs x p s → ∃ g q, s.Turns a p.damp g q ∧ s.Pivots g q ∧
      (g.beta = 0 ∨ g.alpha = 0 ∨ (s.turned g q).normR = 0 →
        ∃ rule, step a p s = .stop (s.turned g q) rule) ∧
      ∀ atZero, ((s.turned g q).normR ≠ 0 →
          @step ℝ (dividing atZero) A _ a p s = step a p s) ∧
        ((s.turned g q).normR = 0 →
          ∃ rule, @step ℝ (dividing atZero) A _ a p s = .stop (s.turned g q) rule)) ∧
    ∃ sol info, solve w a rhs x p = .ok sol ∧ sol.info = some info ∧
      (∀ atZero, ∃ sol', @solve ℝ (dividing atZero) A _ w a rhs x p = .ok sol' ∧
        sol.SameEnd sol') ∧
      (info.stop = .exactFit ↔ adjoint M (vec m rhs - M (vec n x)) = 0) ∧
      (info.stop = .exactFit → sol.x = x) := by
  constructor
  · intro s head
    have hs := head.tracks ha hw hrhs hx
    obtain ⟨g, q, hq⟩ := hs.regular.exists_turns ha
    exact ⟨g, q, hq,
      hs.pivots (hq.basis_extends ha hs.regular) (hq.rotates hs.regular) (hq.damps hs.regular),
      hq.stops hs ha,
      fun atZero => ⟨hq.step_dividing_eq hs ha atZero, hq.stops_dividing hs ha atZero⟩⟩
  · obtain ⟨t, rule, exit, hinfo, hsol, -⟩ := solveFitting_ends ha hw hrhs hx p
    refine ⟨_, _, solve_eq_ok ha hw hrhs hx p, hinfo, fun atZero => ?_,
      exit.exactFit_iff ha hw hrhs hx, ?_⟩
    · exact ⟨_, solve_dividing ha hw hrhs hx atZero, solveFitting_dividing ha hw hrhs hx atZero⟩
    · rintro ⟨⟩
      exact hsol.trans (exit.x_of_exactFit ha hw hrhs hx)

/-- A solve with negative tolerances, which no test passes before the residual vanishes. -/
theorem solve_divisors_graded :
    let a : Dense.Matrix ℝ := .ofFn 2 2 gradedEntry
    let p : Params ℝ := ⟨-1, -1, 0, 5, 0⟩
    Realizes a (linear 2 2 a) ∧
      (∃ s g q, Head (Workspace.new 2 2) a #[1, 1] #[0, 0] p s ∧ s.Turns a p.damp g q ∧
        s.Pivots g q) ∧
      ∃ sol info, solve (Workspace.new 2 2) a #[1, 1] #[0, 0] p = .ok sol ∧
        sol.info = some info ∧ info.stop ≠ .exactFit := by
  intro a p
  have ha : Realizes a (linear 2 2 a) := realizes_ofFn 2 2 gradedEntry
  have hsized := Workspace.sized_new 2 2
  have hrhs : (#[1, 1] : Array ℝ).size = 2 := rfl
  have hx : (#[0, 0] : Array ℝ).size = 2 := rfl
  obtain ⟨hheads, sol, info, hsolve, hinfo, -, hfit, -⟩ := solve_divisors ha hsized hrhs hx p
  obtain ⟨g₀, starts, -⟩ := firstBasis_done ha hsized hrhs hx
  have head := Head.first (p := p) starts
    (moves_of_gradient ha hsized hrhs hx starts gradient_graded_ne_zero)
  obtain ⟨g, q, hq, hpivots, -⟩ := hheads _ head
  exact ⟨ha, ⟨_, g, q, head, hq, hpivots⟩, sol, info, hsolve, hinfo,
    fun hstop => gradient_graded_ne_zero (hfit.1 hstop)⟩

end LeastSquares.Lsmr
