import LeastSquares.Proofs.Marquardt.Freshness

/-!
# Levenberg–Marquardt: what a solve holds on to

The callbacks, the products and the step solver keep the lengths of what they write, so the buffers
of a solve keep theirs.  Along with the lengths go a property of the step solver that its answers
keep and a property of every Jacobian that the problem evaluates: each question to the step solver
is posed with both.
-/

namespace LeastSquares.Marquardt

variable {α S J P : Type} [Scalar α] [LinearOperator J α] [StepSolver S J α]

/-- The residuals and the column norms are written over a buffer, whose length stays. -/
structure Problem.InPlace (m n : Nat) (problem : Problem α J P) : Prop where
  residuals : ∀ p x out p' r, x.size = n → out.size = m →
    problem.residuals p x out = .done (p', r) → r.size = m
  columnSquares : ∀ (j : J) (out squares : Array α), out.size = n →
    LinearOperator.columnSquares j out = .done squares → squares.size = n

omit [LinearOperator J α] [StepSolver S J α] in
/-- A problem over dense matrices whose residuals are a function of the parameters. -/
theorem Problem.inPlace_of_size {m n : Nat} {F : Array α → Array α}
    {jacobian : P → Array α → Dense.Matrix α → Outcome (P × Dense.Matrix α)}
    (hF : ∀ y, (F y).size = m) :
    (⟨fun p y _ => .done (p, F y), jacobian⟩ : Problem α (Dense.Matrix α) P).InPlace m n where
  residuals p y out p' r _ _ h := by
    cases h
    exact hF y
  columnSquares j out squares hout h := (Outcome.size_fill h).trans hout

/-- What is written keeps its length, and a good step solver stays good over Jacobians with the
property `K`. -/
structure Sustains (m n : Nat) (Good : S → Prop) (K : J → Prop) (problem : Problem α J P) :
    Prop where
  inPlace : problem.InPlace m n
  apply : ∀ (j : J) (v out r : Array α), K j → v.size = n → out.size = m →
    LinearOperator.apply j 1 v 1 out = .done r → r.size = m
  solveStep : ∀ (s : S) (j : J) (f dtd : Array α) (lambda : α) (step : Array α) a, Good s → K j →
    f.size = m → dtd.size = n → step.size = n →
      StepSolver.solveStep s j f dtd lambda step = .done a → Good a.solver ∧ a.step.size = n

def Evaluated (K : J → Prop) (solver : Solver α S) (problem : Problem α J P) (o : Options α) (p : P)
    (jacobian : J) (x : Array α) : Prop :=
  ∀ k s, Head solver problem o p jacobian x k s → s.stale = true →
    ∀ p' j, problem.jacobian s.problem s.x s.jacobian = .done (p', j) → K j

/-- What is true of the one Jacobian of a problem is true wherever it is evaluated. -/
theorem evaluated_of_constant {K : J → Prop} {solver : Solver α S}
    {residuals : P → Array α → Array α → Outcome (P × Array α)} {o : Options α} {p : P}
    {jacobian j : J} {x : Array α} (hj : K j) :
    Evaluated K solver ⟨residuals, fun p _ _ => .done (p, j)⟩ o p jacobian x := by
  rintro k s - - p' j' h
  cases h
  exact hj

structure Question.Posed (m n : Nat) (Good : S → Prop) (K : J → Prop) (q : Question α S J) :
    Prop where
  good : Good q.stepSolver
  jacobian : K q.jacobian
  residuals : q.residuals.size = m
  dtd : q.dtd.size = n
  buffer : q.buffer.size = n
  answer : StepSolver.solveStep q.stepSolver q.jacobian q.residuals q.dtd q.lambda q.buffer =
    .done q.answer

structure State.Sound (m n : Nat) (Good : S → Prop) (K : J → Prop) (s : State α S J P) : Prop where
  buffers : s.buffers.Sized m n
  size_x : s.x.size = n
  residual : s.residual = Vec.dot s.buffers.residuals s.buffers.residuals
  good : Good s.stepSolver
  jacobian : s.stale = false → K s.jacobian

variable {m n : Nat} {Good : S → Prop} {K : J → Prop} {problem : Problem α J P} {o : Options α}
  {s t a r : State α S J P}

namespace State.Sound

variable (hK : Sustains m n Good K problem) (hs : s.Sound m n Good K)
  (hj : s.stale = true → ∀ p' j, problem.jacobian s.problem s.x s.jacobian = .done (p', j) → K j)

include hK hs hj

theorem refresh (hr : ({ s with outer := s.outer + 1 }).refresh problem o = .done r) :
    r.Sound m n Good K ∧ r.stale = false ∧ r.x = s.x := by
  rcases State.refresh_done hr with
    ⟨hstale, rfl⟩ | ⟨hstale, p, j, squares, hevaluates, hsquares, rfl⟩
  · exact ⟨⟨hs.buffers, hs.size_x, hs.residual, hs.good, hs.jacobian⟩, hstale, rfl⟩
  · have hkj : K j := hj hstale p j hevaluates
    have hsize : squares.size = n := hK.inPlace.columnSquares j _ squares hs.buffers.dtd hsquares
    exact ⟨⟨{ hs.buffers with dtd := by simpa using hsize }, hs.size_x, hs.residual, hs.good,
      fun _ => hkj⟩, rfl, rfl⟩

theorem asks {inner : Option Nat} (h : Asks problem o s a inner) :
    a.Sound m n Good K ∧ a.stale = false ∧ a.x = s.x ∧ ∃ q : Question α S J,
      q.Posed m n Good K ∧ q.answer.inner = inner ∧ a.jacobian = q.jacobian ∧
        a.buffers.residuals = q.residuals ∧ a.buffers.step = q.answer.step := by
  obtain ⟨r, hr, ha⟩ := h
  obtain ⟨hsound, hstale, hx⟩ := hs.refresh hK hj hr
  obtain ⟨answer, hanswer, rfl, rfl⟩ := State.askStep_done ha
  have hkj := hsound.jacobian hstale
  obtain ⟨hgood, hsize⟩ := hK.solveStep _ _ _ _ _ _ _ hsound.good hkj hsound.buffers.residuals
    hsound.buffers.dtd hsound.buffers.step hanswer
  refine ⟨⟨{ hsound.buffers with step := hsize }, hsound.size_x, hsound.residual, hgood,
    fun _ => hkj⟩, hstale, hx, ⟨r.stepSolver, r.jacobian, r.buffers.residuals, r.buffers.dtd,
      r.lambda, r.buffers.step, answer⟩, ?_, rfl, rfl, rfl, rfl⟩
  exact ⟨hsound.good, hkj, hsound.buffers.residuals, hsound.buffers.dtd, hsound.buffers.step,
    hanswer⟩

/-- A judged iteration compares the residuals and the prediction of one question. -/
theorem judges {inner : Nat} (h : Judges problem o s inner t) :
    t.Sound m n Good K ∧ t.stale = false ∧ t.x = s.x ∧ ∃ q : Question α S J,
      q.Posed m n Good K ∧ q.answer.inner = some inner ∧
        q.answer.step.all (· == 0) = false ∧ t.buffers.step = q.answer.step ∧
        t.buffers.trialPoint = Array.zipWith (· + ·) s.x q.answer.step ∧
        t.residual = Vec.dot q.residuals q.residuals ∧
        LinearOperator.apply q.jacobian 1 q.answer.step 1 q.residuals =
          .done t.buffers.predicted := by
  obtain ⟨a, asks, moves, ht⟩ := h.evaluates
  obtain ⟨hsound, hstale, hx, q, hq, hinner, hjacobian, hresiduals, hstep⟩ := hs.asks hK hj asks
  have hcandidate : a.candidate.size = n := a.size_candidate.trans hsound.buffers.trialPoint
  have htrial : a.candidate = Array.zipWith (· + ·) s.x q.answer.step := by
    rw [State.candidate_eq_zipWith hsound.size_x hsound.buffers.step hsound.buffers.trialPoint, hx,
      hstep]
  have hpredicts : LinearOperator.apply q.jacobian 1 q.answer.step 1 q.residuals =
      .done t.buffers.predicted := by
    rw [← hjacobian, ← hstep, ← hresiduals]
    exact ht.predicts
  refine ⟨⟨⟨?_, ?_, ?_, ?_, ?_, ?_⟩, ?_, ?_, ?_, ?_⟩, ht.stale.trans hstale, ht.x.trans hx, q, hq,
    hinner, hstep ▸ moves, ht.step.trans hstep, ht.trialPoint.trans htrial, ?_, hpredicts⟩
  · exact ht.residuals ▸ hsound.buffers.residuals
  · exact hK.inPlace.residuals _ _ _ _ _ hcandidate hsound.buffers.trialResiduals ht.tries
  · exact hK.apply _ _ _ _ hq.jacobian (hstep ▸ hsound.buffers.step) hq.residuals hpredicts
  · exact ht.dtd ▸ hsound.buffers.dtd
  · exact ht.step ▸ hsound.buffers.step
  · exact ht.trialPoint ▸ hcandidate
  · exact ht.x ▸ hsound.size_x
  · rw [ht.residual, ht.residuals, hsound.residual]
  · exact ht.stepSolver ▸ hsound.good
  · exact fun _ => ht.jacobian ▸ hsound.jacobian hstale
  · rw [ht.residual, hsound.residual, hresiduals]

theorem iterate (h : (s.iterate problem o).state? = some t) :
    t.Sound m n Good K ∧ (t.x = s.x ∨ ∃ q : Question α S J, q.Posed m n Good K ∧
      q.answer.inner.isSome = true ∧ t.x = Array.zipWith (· + ·) s.x q.answer.step) := by
  rcases of_iterate h with ⟨a, asks, rfl⟩ | ⟨a, inner, asks, -, rfl⟩ | ⟨inner, c, judges, -, rfl⟩ |
    ⟨inner, c, judges, -, rfl⟩
  · obtain ⟨ha, -, hx, -⟩ := hs.asks hK hj asks
    exact ⟨⟨ha.buffers, ha.size_x, ha.residual, ha.good, ha.jacobian⟩, .inl hx⟩
  · obtain ⟨ha, -, hx, -⟩ := hs.asks hK hj asks
    exact ⟨⟨ha.buffers, ha.size_x, ha.residual, ha.good, ha.jacobian⟩, .inl hx⟩
  · obtain ⟨hc, -, -, q, hq, hinner, -, -, htrial, -, -⟩ := hs.judges hK hj judges
    refine ⟨⟨⟨hc.buffers.trialResiduals, hc.buffers.residuals, hc.buffers.predicted,
      hc.buffers.dtd, hc.buffers.step, hc.buffers.trialPoint⟩, hc.buffers.trialPoint, rfl,
      hc.good, Bool.noConfusion⟩, .inr ⟨q, hq, by rw [hinner]; rfl, htrial⟩⟩
  · obtain ⟨hc, -, hx, -⟩ := hs.judges hK hj judges
    exact ⟨⟨hc.buffers, hc.size_x, hc.residual, hc.good, hc.jacobian⟩, .inl hx⟩

end State.Sound

section Solves

variable {solver : Solver α S} {p : P} {jacobian : J} {x : Array α}
  (hK : Sustains solver.nrows solver.ncols Good K problem)
  (hsolver : solver.buffers.Sized solver.nrows solver.ncols) (hgood : Good solver.stepSolver)
  (hj : Evaluated K solver problem o p jacobian x)

include hK hsolver hgood hj

theorem sound_of_head {k : Nat} (head : Head solver problem o p jacobian x k s) :
    s.Sound solver.nrows solver.ncols Good K := by
  induction head with
  | first fits evaluates =>
    have hx := (Solver.misfit?_eq_none_iff.1 fits).1
    have hsize := hK.inPlace.residuals _ _ _ _ _ hx hsolver.residuals evaluates
    exact ⟨{ hsolver with residuals := hsize }, hx, rfl, hgood, nofun⟩
  | next head _ _ goes ih => exact (ih.iterate hK (hj _ _ head) (congrArg Step.state? goes)).1

theorem kept_of_head {I : Array α → Prop}
    (hI : ∀ y (q : Question α S J), y.size = solver.ncols → I y →
      q.Posed solver.nrows solver.ncols Good K → q.answer.inner.isSome = true →
        I (Array.zipWith (· + ·) y q.answer.step))
    (hx : I x) {k : Nat} (head : Head solver problem o p jacobian x k s) : I s.x := by
  induction head with
  | first => exact hx
  | next head _ _ goes ih =>
    have hs := sound_of_head hK hsolver hgood hj head
    rcases (hs.iterate hK (hj _ _ head) (congrArg Step.state? goes)).2 with h | ⟨q, hq, hsome, h⟩
    · exact h ▸ ih
    · exact h ▸ hI _ q hs.size_x ih hq hsome

theorem kept_of_exit {I : Array α → Prop}
    (hI : ∀ y (q : Question α S J), y.size = solver.ncols → I y →
      q.Posed solver.nrows solver.ncols Good K → q.answer.inner.isSome = true →
        I (Array.zipWith (· + ·) y q.answer.step))
    (hx : I x) {status : Status} (exit : Exit solver problem o p jacobian x t status) : I t.x := by
  cases exit with
  | failure => exact hx
  | limit head => exact kept_of_head hK hsolver hgood hj hI hx head
  | zero head => exact kept_of_head hK hsolver hgood hj hI hx head
  | stopped head _ _ stops =>
    have hs := sound_of_head hK hsolver hgood hj head
    have hkept := kept_of_head hK hsolver hgood hj hI hx head
    rcases (hs.iterate hK (hj _ _ head) (congrArg Step.state? stops)).2 with h | ⟨q, hq, hsome, h⟩
    · exact h ▸ hkept
    · exact h ▸ hI _ q hs.size_x hkept hq hsome

end Solves

end LeastSquares.Marquardt
