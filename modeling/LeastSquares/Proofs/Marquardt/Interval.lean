import LeastSquares.Proofs.Exact.Extended
import LeastSquares.Proofs.Marquardt.History

/-!
# Levenberg–Marquardt: the interval of the damping

Every question to the step solver, every report and the statistics tell the damping of their time,
and only a reported iteration changes it.  So the events of a solve, also of one that breaks off, say
all about the damping.  Each change applies one of the two bounds and relies on the other, which the
change before it left in force.
-/

namespace LeastSquares.Marquardt

open Exact

variable {α S J P : Type}

def Event.report? : Event α → Option (IterationReport α)
  | .report r => some r
  | _ => none

def reports (events : List (Event α)) : List (IterationReport α) := events.filterMap Event.report?

variable [Scalar α]

/-- The events lead from one damping to another, and each tells the one of its time. -/
def Tells (o : Options α) : α → List (Event α) → α → Prop
  | a, [], b => a = b
  | a, e :: rest, b => (∀ l ∈ e.lambda?, l = a) ∧ Tells o (e.damping o a) rest b

theorem tells_append {o : Options α} {a c : α} {es es' : List (Event α)} :
    Tells o a (es ++ es') c ↔ ∃ b, Tells o a es b ∧ Tells o b es' c := by
  induction es generalizing a with
  | nil => exact ⟨fun h => ⟨a, rfl, h⟩, fun ⟨_, hb, h⟩ => hb ▸ h⟩
  | cons e es ih =>
    simp only [List.cons_append, Tells, ih, and_assoc, exists_and_left]

theorem lasting_tells (o : Options α) (first : α) :
    Lasting o fun events lambda => Tells o first events.toList lambda := by
  intro events lambda h e he
  rw [Array.toList_push]
  exact tells_append.2 ⟨lambda, h, he, rfl⟩

section Solves

variable [LinearOperator J α] [StepSolver S J α] {solver : Solver α S} {problem : Problem α J P}
  {o : Options α} {p : P} {jacobian : J} {x : Array α}

theorem tells_solve : ∃ last, Tells o (State.clamped o o.lambdaInit)
    (solver.solve problem o p jacobian x).events.toList last := by
  cases fits : solver.misfit? jacobian x with
  | some e => exact ⟨State.clamped o o.lambdaInit, by simp [Solver.solve, fits, Tells]⟩
  | none =>
    have hlasting := lasting_tells o (State.clamped o o.lambdaInit)
    have hbegin : (solver.begin o p jacobian x).Upholds fun events lambda =>
        Tells o (State.clamped o o.lambdaInit) events.toList lambda := ⟨by rintro _ ⟨⟩, rfl⟩
    exact hlasting.solve fits (hlasting.start hbegin)

theorem finished_mem_events {stats : Stats α}
    (h : (solver.solve problem o p jacobian x).ending = .finished stats) :
    .finished stats ∈ (solver.solve problem o p jacobian x).events := by
  obtain ⟨t, status, -, -, hrun⟩ := exit_of_finished h
  rw [hrun]
  exact Array.mem_push_self

end Solves

/-! ## Exact dampings -/

/-- The bounds and the factor of the damping are reals, with the bounds in order and a factor that
does not shrink. -/
structure Options.Bounded (real : ℝ → α) (lo hi factor : ℝ) (o : Options α) : Prop where
  lambdaMin : o.lambdaMin = real lo
  lambdaMax : o.lambdaMax = real hi
  lambdaFactor : o.lambdaFactor = real factor
  nonneg : 0 ≤ lo
  le : lo ≤ hi
  one_le : 1 ≤ factor

section Exactly

variable {real : ℝ → α} (hreal : Embeds real) {lo hi factor : ℝ} {o : Options α}
  (ho : o.Bounded real lo hi factor)

include hreal ho

theorem State.exists_clamped (lambda : α) : ∃ a ∈ Set.Icc lo hi, clamped o lambda = real a := by
  rw [clamped, ho.lambdaMin, ho.lambdaMax]
  exact hreal.exists_clamp ho.le lambda

theorem State.raised_real (a : ℝ) : raised o (real a) = real (min (a * factor) hi) := by
  rw [raised, ho.lambdaFactor, ho.lambdaMax, hreal.mul, hreal.min_eq]

theorem State.lowered_real (a : ℝ) : lowered o (real a) = real (max (a / factor) lo) := by
  have hfactor : factor ≠ 0 := (zero_lt_one.trans_le ho.one_le).ne'
  rw [lowered, ho.lambdaFactor, ho.lambdaMin, hreal.div _ _ hfactor, hreal.max_eq]

omit [Scalar α] hreal in
theorem Options.Bounded.le_raised {a : ℝ} (ha : a ∈ Set.Icc lo hi) : a ≤ min (a * factor) hi :=
  le_min (le_mul_of_one_le_right (ho.nonneg.trans ha.1) ho.one_le) ha.2

omit [Scalar α] hreal in
theorem Options.Bounded.lowered_le {a : ℝ} (ha : a ∈ Set.Icc lo hi) : max (a / factor) lo ≤ a :=
  max_le (div_le_self (ho.nonneg.trans ha.1) ho.one_le) ha.1

theorem IterationReport.exists_standing {r : IterationReport α} {a : ℝ} (hr : r.lambda = real a)
    (ha : a ∈ Set.Icc lo hi) :
    ∃ b ∈ Set.Icc lo hi, (r.standing o).lambda = real b ∧
      (r.accepted = false → b = min (a * factor) hi) ∧ (r.accepted = true → b ≤ a) := by
  simp only [standing, hr]
  cases r.accepted with
  | false =>
    refine ⟨min (a * factor) hi, ⟨ha.1.trans (ho.le_raised ha), min_le_right _ _⟩, ?_,
      fun _ => rfl, by simp⟩
    exact State.raised_real hreal ho a
  | true =>
    have hle := ho.lowered_le ha
    by_cases hgood : o.goodStepQuality < r.rho
    · refine ⟨max (a / factor) lo, ⟨le_max_right _ _, hle.trans ha.2⟩, ?_, by simp, fun _ => hle⟩
      rw [if_pos rfl, if_pos hgood]
      exact State.lowered_real hreal ho a
    · refine ⟨a, ha, ?_, by simp, fun _ => le_rfl⟩
      rw [if_pos rfl, if_neg hgood]

omit [Scalar α] hreal in
theorem Options.Bounded.min_raised (a : ℝ) (j : ℕ) :
    min (min (a * factor) hi * factor ^ j) hi = min (a * factor ^ (j + 1)) hi := by
  have hpow : 1 ≤ factor ^ j := one_le_pow₀ ho.one_le
  have hhi : hi ≤ hi * factor ^ j := le_mul_of_one_le_right (ho.nonneg.trans ho.le) hpow
  have hassoc : a * factor ^ (j + 1) = a * factor * factor ^ j := by ring
  rw [hassoc, min_mul_of_nonneg _ _ (zero_le_one.trans hpow), min_assoc, min_eq_right hhi]

/-- From a damping in the interval the events lead to one in it: by a power of the factor where the
reports among them are rejections, and no higher where they are acceptances. -/
theorem Tells.exists_real {es : List (Event α)} {a : ℝ} {last : α} (h : Tells o (real a) es last)
    (ha : a ∈ Set.Icc lo hi) :
    ∃ b ∈ Set.Icc lo hi, last = real b ∧
      ((∀ r ∈ reports es, r.accepted = false) → b = min (a * factor ^ (reports es).length) hi) ∧
      ((∀ r ∈ reports es, r.accepted = true) → b ≤ a) := by
  induction es generalizing a with
  | nil => exact ⟨a, ha, h.symm, fun _ => by simp [reports, ha.2], fun _ => le_rfl⟩
  | cons e es ih =>
    obtain ⟨htells, hrest⟩ := h
    cases e with
    | report r =>
      obtain ⟨b, hb, hstanding, hrejected, haccepted⟩ :=
        IterationReport.exists_standing hreal ho (htells r.lambda rfl) ha
      rw [Event.damping, hstanding] at hrest
      obtain ⟨c, hc, hlast, hrejections, hacceptances⟩ := ih hrest hb
      have hreports : reports (.report r :: es) = r :: reports es := rfl
      rw [hreports]
      refine ⟨c, hc, hlast, fun hall => ?_, fun hall => ?_⟩
      · rw [hrejections fun r' hr' => hall r' (.tail r hr'), hrejected (hall r (.head _)),
          ho.min_raised, List.length_cons]
      · exact (hacceptances fun r' hr' => hall r' (.tail r hr')).trans
          (haccepted (hall r (.head _)))
    | residuals | jacobian | step | record | finished => exact ih hrest ha

end Exactly

/-- The damping of a solve stays between its bounds, whatever its problem and its step solver answer
and wherever it starts.  From one event that tells the damping to a later one, iterations that are
rejected or have no step raise it by the factor each, up to the bound, and accepted ones do not
raise it. -/
theorem lambda_mem_interval [LinearOperator J α] [StepSolver S J α] {real : ℝ → α}
    (hreal : Embeds real) {lo hi factor : ℝ} {o : Options α} (ho : o.Bounded real lo hi factor)
    (solver : Solver α S) (problem : Problem α J P) (p : P) (jacobian : J) (x : Array α) :
    let run := solver.solve problem o p jacobian x
    (∀ e ∈ run.events, ∀ l ∈ e.lambda?, ∃ a ∈ Set.Icc lo hi, l = real a) ∧
      (∀ stats, run.ending = .finished stats → ∃ a ∈ Set.Icc lo hi, stats.lambda = real a) ∧
      ∀ before e between e' after,
        run.events.toList = before ++ (e :: between) ++ (e' :: after) →
        ∀ l ∈ e.lambda?, ∀ l' ∈ e'.lambda?, ∃ a ∈ Set.Icc lo hi, ∃ a' ∈ Set.Icc lo hi,
          l = real a ∧ l' = real a' ∧
          ((∀ r ∈ reports (e :: between), r.accepted = false) →
            a ≤ a' ∧ a' = min (a * factor ^ (reports (e :: between)).length) hi) ∧
          ((∀ r ∈ reports (e :: between), r.accepted = true) → a' ≤ a) := by
  intro run
  obtain ⟨last, htells⟩ : ∃ last, Tells o (State.clamped o o.lambdaInit) run.events.toList last :=
    tells_solve
  obtain ⟨start, hstart, hclamped⟩ := State.exists_clamped hreal ho o.lambdaInit
  rw [hclamped] at htells
  have hevents : ∀ e ∈ run.events, ∀ l ∈ e.lambda?, ∃ a ∈ Set.Icc lo hi, l = real a := by
    intro e he l hl
    obtain ⟨before, after, hsplit⟩ := List.append_of_mem (Array.mem_toList_iff.2 he)
    rw [hsplit] at htells
    obtain ⟨b, hbefore, he, -⟩ := tells_append.1 htells
    obtain ⟨a, ha, rfl, -⟩ := Tells.exists_real hreal ho hbefore hstart
    exact ⟨a, ha, he l hl⟩
  refine ⟨hevents, fun stats hstats => ?_, ?_⟩
  · exact hevents _ (finished_mem_events hstats) stats.lambda rfl
  · intro before e between e' after hsplit l hl l' hl'
    rw [hsplit] at htells
    obtain ⟨c', hfirst, he', -⟩ := tells_append.1 htells
    obtain ⟨c, hbefore, hbetween⟩ := tells_append.1 hfirst
    obtain ⟨a, ha, rfl, -⟩ := Tells.exists_real hreal ho hbefore hstart
    obtain ⟨a', ha', rfl, hrejected, haccepted⟩ := Tells.exists_real hreal ho hbetween ha
    refine ⟨a, ha, a', ha', hbetween.1 l hl, he' l' hl', fun hall => ?_, haccepted⟩
    have hpow : 1 ≤ factor ^ (reports (e :: between)).length := one_le_pow₀ ho.one_le
    have ha' := hrejected hall
    exact ⟨ha' ▸ le_min (le_mul_of_one_le_right (ho.nonneg.trans ha.1) hpow) ha.2, ha'⟩

/-- A start above all bounds, and trial points at which the residuals are no numbers. -/
theorem lambda_mem_interval_extended :
    let problem : Problem Extended (Dense.Matrix Extended) Bool :=
      ⟨fun asked x _ => .done (true, if asked then #[.nan] else x), fun asked _ j => .done (asked, j)⟩
    let solver := Script.solver 1 1 [some (#[.real 1], 1), none, some (#[.infinite false], 1)]
    let o : Options Extended :=
      { Options.default with
        lambdaInit := .infinite true
        lambdaMin := .real 1
        lambdaMax := .real 1000
        lambdaFactor := .real 10 }
    let run := solver.solve problem o false (.ofFn 1 1 fun _ _ => .real 1) #[.real 3]
    Embeds Extended.real ∧ o.Bounded Extended.real 1 1000 10 ∧
      (∀ e ∈ run.events, ∀ l ∈ e.lambda?, ∃ a ∈ Set.Icc (1 : ℝ) 1000, l = .real a) ∧
      ∀ stats, run.ending = .finished stats →
        ∃ a ∈ Set.Icc (1 : ℝ) 1000, stats.lambda = .real a := by
  intro problem solver o run
  have ho : o.Bounded Extended.real 1 1000 10 :=
    ⟨rfl, rfl, rfl, zero_le_one, by norm_num, by norm_num⟩
  obtain ⟨hevents, hstats, -⟩ := lambda_mem_interval Extended.embeds_real ho solver problem false
    (.ofFn 1 1 fun _ _ => .real 1) #[.real 3]
  exact ⟨Extended.embeds_real, ho, hevents, hstats⟩

end LeastSquares.Marquardt
