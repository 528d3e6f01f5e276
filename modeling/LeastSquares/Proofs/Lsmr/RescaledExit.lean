import Mathlib
import LeastSquares.Proofs.Lsmr.Rescaling
import LeastSquares.Proofs.Lsmr.Stopping

/-!
# LSMR: how two solves in different units end

Every rule but the one on the condition number compares quantities whose units cancel.  So the two
solves end in the same iteration by the same rule, unless an estimate of the condition number parts
them.
-/

namespace LeastSquares.Lsmr

open Exact
open LinearMap (adjoint)

variable {A A' : Type} [LinearOperator A ℝ] [LinearOperator A' ℝ] {a : A} {a' : A'} {m n : ℕ}
  {M : EuclideanSpace ℝ (Fin n) →ₗ[ℝ] EuclideanSpace ℝ (Fin m)} {r : Rescaling}
  {w w' : Workspace ℝ} {rhs rhs' x x' : Array ℝ} {p p' : Params ℝ} {s s' t t' : State ℝ}
  {g g' : Basis ℝ} {q q' : Turn ℝ} {rule rule' : Stop}

/-! ## The rules -/

noncomputable def State.ends? (p : Params ℝ) (s : State ℝ) : Option Stop :=
  (s.stopRule? p).or (if p.maxIters ≤ s.iteration then some .maxIterations else none)

theorem State.Scaled.tests (h : t.Scaled r m n t') :
    t'.normR / t'.normB = t.normR / t.normB ∧
      t'.normAr / (t'.normA * t'.normR) = t.normAr / (t.normA * t.normR) ∧
      ∀ y, y * t'.normA * t'.normX / t'.normB = y * t.normA * t.normX / t.normB := by
  have hmu := r.operator_pos.ne'
  have hkappa := r.data_pos.ne'
  refine ⟨?_, ?_, fun y => ?_⟩
  · rw [h.normR, h.normB, mul_div_mul_left _ _ hkappa]
  · rw [h.normAr, h.normA, h.normR, mul_mul_mul_comm, mul_div_mul_left _ _ (mul_ne_zero hmu hkappa)]
  · rw [h.normA, h.normX, h.normB]
    field_simp

/-- The rules fire alike but where one of the two condition numbers exceeds the limit. -/
theorem State.Scaled.stopRule? (h : t.Scaled r m n t') (ht : t.Measured) (ht' : t'.Measured)
    (hp : p' = { p with damp := r.operator * p.damp }) :
    t'.stopRule? p' = t.stopRule? p ∨ t'.condA ≠ t.condA ∧
      (t.stopRule? p = some .conditionLimit ∨ t'.stopRule? p' = some .conditionLimit) := by
  obtain ⟨hresidual, hnormal, hmodel⟩ := h.tests
  have hsize : t'.normA * t'.normX / t'.normB = t.normA * t.normX / t.normB := by
    simpa using hmodel 1
  -- The condition number is positive, so the last of the rules does not fire.
  have hstagnates : ¬ 1 + 1 / t.condA ≤ 1 := by simpa using ht.condA
  have hstagnates' : ¬ 1 + 1 / t'.condA ≤ 1 := by simpa using ht'.condA
  subst hp
  unfold State.stopRule?
  dsimp only
  rw [hresidual, hnormal, hmodel, hsize, if_neg hstagnates, if_neg hstagnates']
  generalize (if 0 < p.conlim then 1 / p.conlim else 0) = ctol
  by_cases hR : t.normR / t.normB ≤ p.btol + p.atol * t.normA * t.normX / t.normB
  · left
    rw [if_pos hR, if_pos hR]
  by_cases hA : t.normAr / (t.normA * t.normR) ≤ p.atol
  · left
    rw [if_neg hR, if_neg hR, if_pos hA, if_pos hA]
  simp only [if_neg hR, if_neg hA]
  by_cases hC : 1 / t.condA ≤ ctol <;> by_cases hC' : 1 / t'.condA ≤ ctol
  · exact .inl (by rw [if_pos hC, if_pos hC'])
  · exact .inr ⟨fun heq => hC' (heq ▸ hC), .inl (if_pos hC)⟩
  · exact .inr ⟨fun heq => hC (heq ▸ hC'), .inr (if_pos hC')⟩
  · exact .inl (by rw [if_neg hC, if_neg hC'])

theorem State.Scaled.ends? (h : t.Scaled r m n t') (ht : t.Measured) (ht' : t'.Measured)
    (hp : p' = { p with damp := r.operator * p.damp }) :
    t'.ends? p' = t.ends? p ∨ t'.condA ≠ t.condA ∧
      (t.ends? p = some .conditionLimit ∨ t'.ends? p' = some .conditionLimit) := by
  have hlimit : p'.maxIters = p.maxIters := by rw [hp]
  unfold State.ends?
  rw [h.iteration, hlimit]
  rcases h.stopRule? ht ht' hp with heq | ⟨hne, hrule | hrule⟩
  · exact .inl (by rw [heq])
  · exact .inr ⟨hne, .inl (by rw [hrule, Option.some_or])⟩
  · exact .inr ⟨hne, .inr (by rw [hrule, Option.some_or])⟩

/-! ## The exits -/

theorem State.Turns.measured {b : EuclideanSpace ℝ (Fin m)} {x₀ : EuclideanSpace ℝ (Fin n)}
    (h : s.Turns a p.damp g q) (ha : Realizes a M) (hs : s.Tracks M p.damp b x₀) :
    (s.turned g q).Measured :=
  have ht := h.rotates hs.regular
  hs.measured_turned (h.basis_extends ha hs.regular) ht (h.damps hs.regular)

section Last

variable (ha : Realizes a M) (hw : w.Sized m n) (hrhs : rhs.size = m) (hx : x.size = n)

include ha hw hrhs hx

theorem Exit.last (exit : Exit w a rhs x p t rule) (starts : firstBasis w a rhs x = .done g)
    (moves : ((State.initial w.hbar x g).normAr == 0) = false) :
    ∃ s g q, Head w a rhs x p s ∧ s.Turns a p.damp g q ∧ t = s.turned g q ∧
      t.ends? p = some rule := by
  cases exit with
  | rests starts' zero =>
    cases starts.symm.trans starts'
    simp [moves] at zero
  | @stopped s _ _ head stops =>
    obtain ⟨g, q, hq⟩ := (head.tracks ha hw hrhs hx).regular.exists_turns ha
    obtain ⟨ht, hrule⟩ := hq.of_stop stops
    exact ⟨s, g, q, head, hq, ht, by rw [State.ends?, hrule, Option.some_or]⟩
  | @limit s _ head goes full =>
    obtain ⟨g, q, hq⟩ := (head.tracks ha hw hrhs hx).regular.exists_turns ha
    obtain ⟨ht, hrule⟩ := hq.of_next goes
    exact ⟨s, g, q, head, hq, ht, by rw [State.ends?, hrule, Option.none_or, if_pos full]⟩

theorem Head.passed {k : ℕ} (head : Head w a rhs x p t) (hk : k < t.iteration) :
    ∃ s g q, Head w a rhs x p s ∧ s.iteration = k ∧ s.Turns a p.damp g q ∧
      (s.turned g q).ends? p = none := by
  induction head with
  | first => exact absurd hk (Nat.not_lt_zero k)
  | @next s t head goes more ih =>
    have hcount := iteration_of_next goes
    rcases Nat.lt_succ_iff_lt_or_eq.1 (hcount ▸ hk) with hlt | hlast
    · exact ih hlt
    · obtain ⟨g, q, hq⟩ := (head.tracks ha hw hrhs hx).regular.exists_turns ha
      obtain ⟨rfl, hrule⟩ := hq.of_next goes
      refine ⟨s, g, q, head, hlast.symm, hq, ?_⟩
      rw [State.ends?, hrule, Option.none_or, if_neg (not_le.2 more)]

end Last

structure Info.Scaled (r : Rescaling) (info info' : Info ℝ) : Prop where
  iterations : info'.iterations = info.iterations
  stop : info'.stop = info.stop
  normR : info'.normR = r.data * info.normR
  normAr : info'.normAr = r.operator * r.data * info.normAr
  normA : info'.normA = r.operator * info.normA
  normX : info'.normX = r.data / r.operator * info.normX

theorem State.Scaled.info (h : t.Scaled r m n t') (rule : Stop) :
    (t.info rule).Scaled r (t'.info rule) :=
  ⟨h.iteration, rfl, h.normR, h.normAr, h.normA, h.normX⟩

/-- Two solves estimate the same condition number in every iteration that both of them make. -/
def SameCondition (w w' : Workspace ℝ) (a : A) (a' : A') (rhs rhs' x x' : Array ℝ)
    (p p' : Params ℝ) : Prop :=
  ∀ s s' g g' q q', Head w a rhs x p s → Head w' a' rhs' x' p' s' → s'.iteration = s.iteration →
    s.Turns a p.damp g q → s'.Turns a' p'.damp g' q' → (s'.turned g' q').condA = (s.turned g q).condA

section Exits

variable (hr : r.Relates M w w' a a' rhs rhs' x x' p p')

include hr

theorem Rescaling.Relates.ends? (head : Head w a rhs x p s) (head' : Head w' a' rhs' x' p' s')
    (h : s'.iteration = s.iteration) (hq : s.Turns a p.damp g q) (hq' : s'.Turns a' p'.damp g' q') :
    (s'.turned g' q').ends? p' = (s.turned g q).ends? p ∨
      ¬ SameCondition w w' a a' rhs rhs' x x' p p' ∧
        ((s.turned g q).ends? p = some .conditionLimit ∨
          (s'.turned g' q').ends? p' = some .conditionLimit) := by
  have hscaled := ((head.scaled hr head' h).turns hr head head' hq hq').2
  refine (hscaled.ends? (hq.measured hr.realizes (hr.head_tracks head))
    (hq'.measured hr.realizes' (hr.head_tracks' head')) hr.params).imp_right ?_
  rintro ⟨hne, hlimit⟩
  exact ⟨fun hsame => hne (hsame s s' g g' q q' head head' h hq hq'), hlimit⟩

/-- Two solves that differ by their units end alike, unless one of them stops first at the limit on
its condition number. -/
theorem Exit.scaled (exit : Exit w a rhs x p t rule) (exit' : Exit w' a' rhs' x' p' t' rule') :
    ((t.info rule).Scaled r (t'.info rule') ∧ vec n t'.x = r.solution • vec n t.x ∧
        (SameCondition w w' a a' rhs rhs' x x' p p' → t'.condA = t.condA)) ∨
      ¬ SameCondition w w' a a' rhs rhs' x x' p p' ∧
        (rule = .conditionLimit ∧ t.iteration ≤ t'.iteration ∨
          rule' = .conditionLimit ∧ t'.iteration ≤ t.iteration) := by
  obtain ⟨g, g', starts, starts', hg, hbeta⟩ :=
    firstBasis_scaled hr.realizes hr.realizes' hr.sized hr.sized' hr.size_rhs hr.size_rhs'
      hr.size_x hr.size_x' hr.rhs hr.x
  have hinitial : (State.initial w.hbar x g).Scaled r m n (State.initial w'.hbar x' g') :=
    State.scaled_initial hg hbeta hr.sized.hbar hr.sized'.hbar hr.size_x hr.size_x' hr.x
  have hzero : ((State.initial w'.hbar x' g').normAr == 0) =
      ((State.initial w.hbar x g).normAr == 0) := by
    rw [hinitial.normAr]
    exact decide_eq_decide.2
      (mul_eq_zero_iff_left (mul_pos r.operator_pos r.data_pos).ne')
  cases hmoves : (State.initial w.hbar x g).normAr == 0 with
  | true =>
    obtain ⟨rfl, rfl⟩ := exit.eq_rest starts hmoves
    obtain ⟨rfl, rfl⟩ := exit'.eq_rest starts' (hzero.trans hmoves)
    exact .inl ⟨⟨rfl, rfl, hinitial.normR, hinitial.normAr, hinitial.normA, hinitial.normX⟩,
      hinitial.x, fun _ => rfl⟩
  | false =>
    obtain ⟨s, g, q, head, hq, rfl, hrule⟩ :=
      exit.last hr.realizes hr.sized hr.size_rhs hr.size_x starts hmoves
    obtain ⟨s', g', q', head', hq', rfl, hrule'⟩ :=
      exit'.last hr.realizes' hr.sized' hr.size_rhs' hr.size_x' starts' (hzero.trans hmoves)
    rcases lt_trichotomy s.iteration s'.iteration with hlt | heq | hgt
    -- Where one solve has passed the last iteration of the other, a condition number stopped it.
    · obtain ⟨s₀, g₀, q₀, head₀, hcount, hq₀, hpassed⟩ :=
        head'.passed hr.realizes' hr.sized' hr.size_rhs' hr.size_x' hlt
      have hends := hr.ends? head head₀ hcount hq hq₀
      rw [hrule, hpassed] at hends
      obtain ⟨hsame, hlimit⟩ : _ ∧ rule = .conditionLimit := by simpa using hends
      exact .inr ⟨hsame, .inl ⟨hlimit, Nat.succ_le_succ hlt.le⟩⟩
    · have hscaled := ((head.scaled hr head' heq.symm).turns hr head head' hq hq').2
      rcases hr.ends? head head' heq.symm hq hq' with hends | ⟨hsame, hends⟩
      · rw [hrule, hrule', Option.some.injEq] at hends
        subst hends
        exact .inl ⟨hscaled.info rule', hscaled.x,
          fun hsame => hsame s s' g g' q q' head head' heq.symm hq hq'⟩
      · rw [hrule, hrule', Option.some.injEq, Option.some.injEq] at hends
        exact .inr ⟨hsame, hends.imp (fun hlimit => ⟨hlimit, Nat.succ_le_succ heq.le⟩)
          fun hlimit => ⟨hlimit, Nat.succ_le_succ heq.ge⟩⟩
    · obtain ⟨s₀, g₀, q₀, head₀, hcount, hq₀, hpassed⟩ :=
        head.passed hr.realizes hr.sized hr.size_rhs hr.size_x hgt
      have hends := hr.ends? head₀ head' hcount.symm hq₀ hq'
      rw [hrule', hpassed] at hends
      obtain ⟨hsame, hlimit⟩ : _ ∧ rule' = .conditionLimit := by simpa using hends
      exact .inr ⟨hsame, .inr ⟨hlimit, Nat.succ_le_succ hgt.le⟩⟩

end Exits

end LeastSquares.Lsmr
