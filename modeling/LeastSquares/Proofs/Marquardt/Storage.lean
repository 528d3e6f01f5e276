import LeastSquares.Proofs.Exact.Sparse
import LeastSquares.Proofs.Lsmr.Completion
import LeastSquares.Proofs.Marquardt.Parallel

/-!
# Levenberg–Marquardt: dense and sparse Jacobians

A dense and a sparse matrix with the same entries compute one matrix, so in exact arithmetic nothing
that only asks for products and column norms can tell them apart.  LSMR answers the same over both,
and iterative solves whose callbacks keep the two equal show the same from their first to their last
event.
-/

namespace LeastSquares.Marquardt

open Exact (Computes entries sparseEntries computes_entries computes_sparseEntries)
open LinearOperator (Agree shape)

variable {P P' : Type} {m n : ℕ}

/-- A dense and a sparse matrix of one shape with the same entries, whichever zeros are stored. -/
structure SameEntries {α : Type} [Scalar α] (J : Dense.Matrix α) (S : Sparse.Matrix α) : Prop where
  shape_eq : shape J = shape S
  read : ∀ row < J.nrows, ∀ col < J.ncols, J.read? row col = some (S.get row col)

theorem SameEntries.entries_eq {J : Dense.Matrix ℝ} {S : Sparse.Matrix ℝ} (h : SameEntries J S)
    (hshape : shape J = (m, n)) : entries m n J = sparseEntries m n S := by
  obtain ⟨hm, hn⟩ : J.nrows = m ∧ J.ncols = n := Prod.mk.inj hshape
  ext i j
  have hread := h.read i (hm.symm ▸ i.isLt) j (hn.symm ▸ j.isLt)
  obtain ⟨column, hcolumn, hvalue⟩ := Option.bind_eq_some_iff.1 hread
  rw [Exact.entries_eq hn]
  simp [hcolumn, hvalue, sparseEntries]

theorem SameEntries.agree {J : Dense.Matrix ℝ} {S : Sparse.Matrix ℝ} (h : SameEntries J S)
    (hshape : shape J = (m, n)) : Agree m n J S := by
  obtain ⟨hm, hn⟩ := Prod.mk.inj hshape
  obtain ⟨hm', hn'⟩ := Prod.mk.inj (h.shape_eq.symm.trans hshape)
  have hcomputes : Computes J (sparseEntries m n S) :=
    h.entries_eq hshape ▸ computes_entries hm hn
  exact hcomputes.agree (computes_sparseEntries hm' hn')

section Lsmr

open Lsmr (Params Workspace)

variable {J : Dense.Matrix ℝ} {S : Sparse.Matrix ℝ} {w w' : Workspace ℝ}

theorem SameEntries.lsmr_solve (h : SameEntries J S) (hw : w.Shaped m n) (hw' : w'.Shaped m n)
    {b x : Array ℝ} (p : Params ℝ) (hshape : shape J = (m, n)) (hb : b.size = m)
    (hx : x.size = n) :
    ∃ sol sol' info, Lsmr.solve w J b x p = .ok sol ∧ Lsmr.solve w' S b x p = .ok sol' ∧
      sol.x = sol'.x ∧ sol.info = some info ∧ sol'.info = some info := by
  have hcompletes : LinearOperator.Completes m n J := by
    obtain ⟨rfl, rfl⟩ := Prod.mk.inj hshape
    exact J.completes
  obtain ⟨info, hinfo, -⟩ := Lsmr.solveFitting_completes (p := p) hcompletes hw hb hx
  have halike := Lsmr.solveFitting_alike (p := p) Exact.zero_beq_zero (h.agree hshape) hw hw' hb hx
  refine ⟨_, _, info, ?_, ?_, halike.x, hinfo, halike.info.symm.trans hinfo⟩
  · rw [Lsmr.solve_eq hw, if_neg (not_not_intro hshape.symm), if_neg (not_not_intro hb),
      if_neg (not_not_intro hx)]
  · rw [Lsmr.solve_eq hw', ← h.shape_eq, if_neg (not_not_intro hshape.symm),
      if_neg (not_not_intro hb), if_neg (not_not_intro hx)]

theorem SameEntries.lsmr_error (h : SameEntries J S) (hw : w.Shaped m n) (hw' : w'.Shaped m n)
    {b x : Array ℝ} (p : Params ℝ) (hmisfit : ¬(shape J = (m, n) ∧ b.size = m ∧ x.size = n)) :
    ∃ e, Lsmr.solve w J b x p = .error e ∧ Lsmr.solve w' S b x p = .error e := by
  rw [Lsmr.solve_eq hw, Lsmr.solve_eq hw', ← h.shape_eq]
  by_cases hshape : shape J = (m, n)
  · rw [if_neg (not_not_intro hshape.symm), if_neg (not_not_intro hshape.symm)]
    by_cases hb : b.size = m
    · have hx : x.size ≠ n := fun hx => hmisfit ⟨hshape, hb, hx⟩
      rw [if_neg (not_not_intro hb), if_neg (not_not_intro hb), if_pos hx, if_pos hx]
      exact ⟨_, rfl, rfl⟩
    · rw [if_pos hb, if_pos hb]
      exact ⟨_, rfl, rfl⟩
  · rw [if_pos (Ne.symm hshape), if_pos (Ne.symm hshape)]
    exact ⟨_, rfl, rfl⟩

end Lsmr

/-- Problems with `m` residuals and `n` parameters, one with a dense and one with a sparse Jacobian.
From related states the callbacks answer alike, and leave Jacobians with the same entries.  They may
rely on a layout of the Jacobians that they keep, such as a pattern, and the residuals may look at
what their buffer held. -/
structure Mirrored (m n : ℕ) (Related : P → P' → Prop)
    (Layout : Dense.Matrix ℝ → Sparse.Matrix ℝ → Prop) (looks : Prop)
    (problem : Problem ℝ (Dense.Matrix ℝ) P) (problem' : Problem ℝ (Sparse.Matrix ℝ) P') :
    Prop where
  residuals : ∀ {p q} (y out out' : Array ℝ), Related p q → y.size = n → out.size = m →
    out'.size = m → (looks → out = out') →
    Outcome.Alike (fun a b => Related a.1 b.1 ∧ a.2 = b.2 ∧ a.2.size = m) (fun _ _ => True)
      (problem.residuals p y out) (problem'.residuals q y out')
  jacobian : ∀ {p q} (y : Array ℝ) {J S}, Related p q → y.size = n → Layout J S →
    shape J = (m, n) → shape S = (m, n) →
    Outcome.Alike
      (fun a b => Related a.1 b.1 ∧ Layout a.2 b.2 ∧ SameEntries a.2 b.2 ∧ shape a.2 = (m, n))
      (fun _ _ => True) (problem.jacobian p y J) (problem'.jacobian q y S)

namespace Mirrored

def pairing (m n k l : ℕ) (Related : P → P' → Prop)
    (Layout : Dense.Matrix ℝ → Sparse.Matrix ℝ → Prop) (looks : Prop) :
    Pairing ℝ (Lsmr.DampedStep ℝ) (Lsmr.DampedStep ℝ) (Dense.Matrix ℝ) (Sparse.Matrix ℝ) P P' where
  stepSolver := Lsmr.DampedStep.Alike k l
  layout J S := Layout J S ∧ shape J = (m, n) ∧ shape S = (m, n)
  written J S := Layout J S ∧ SameEntries J S ∧ shape J = (m, n)
  problem := Related
  looks := looks

variable {Related : P → P' → Prop} {Layout : Dense.Matrix ℝ → Sparse.Matrix ℝ → Prop} {looks : Prop}
  {problem : Problem ℝ (Dense.Matrix ℝ) P} {problem' : Problem ℝ (Sparse.Matrix ℝ) P'}

theorem sideBySide (h : Mirrored m n Related Layout looks problem problem') :
    SideBySide m n (pairing m n m n Related Layout looks) problem problem' where
  residuals := h.residuals
  jacobian := by
    rintro p q y J S hp hy ⟨hlayout, hJ, hS⟩
    exact h.jacobian y hp hy hlayout hJ hS
  layout := by
    rintro J S ⟨hlayout, hsame, hJ⟩
    exact ⟨hlayout, hJ, hsame.shape_eq.symm.trans hJ⟩
  agree := by
    rintro J S ⟨-, hsame, hJ⟩
    exact hsame.agree hJ
  damping _ := trivial
  diagonal _ := trivial
  solveStep := by
    rintro s s' J S f dtd lambda step step' hs ⟨-, hsame, hJ⟩ - hdtd hstep hstep'
    have hagree : Agree (LinearOperator.nrows J) n J S := by
      rw [(Prod.mk.inj hJ).1]
      exact hsame.agree hJ
    exact Lsmr.DampedStep.solve_alike Exact.zero_beq_zero hs hagree f lambda hdtd hstep hstep'

theorem solve_alike {k l : ℕ} {solver solver' : Solver ℝ (Lsmr.DampedStep ℝ)}
    (h : Mirrored m n Related Layout looks problem problem')
    (hsolver : solver.Alike m n (Lsmr.DampedStep.Alike k l) solver')
    (hlooks : looks → solver.buffers.residuals = solver'.buffers.residuals ∧
      solver.buffers.trialResiduals = solver'.buffers.trialResiduals)
    {p : P} {q : P'} (hp : Related p q) {J : Dense.Matrix ℝ} {S : Sparse.Matrix ℝ}
    (hlayout : Layout J S) (hshape : shape J = shape S) (o : Options ℝ) (x : Array ℝ) :
    (solver.solve problem o p J x).Alike m n (Lsmr.DampedStep.Alike k l)
      (solver'.solve problem' o q S x) := by
  obtain ⟨hs, hs', -⟩ := hsolver.stepSolver
  refine Marquardt.solve_alike (ρ := pairing m n k l Related Layout looks)
    (Bool.eq_iff_iff.2 (hs.fits_iff.trans hs'.fits_iff.symm)) (fun hfits => ?_) hsolver hlooks hp
    (fun hJ => ⟨hlayout, hJ, hshape.symm.trans hJ⟩) hshape
  obtain ⟨rfl, rfl⟩ := hs.fits_iff.1 hfits
  exact h.sideBySide

end Mirrored

/-- The storage of the Jacobian is no matter.  Over a dense and a sparse matrix with the same
entries LSMR has the same solution and summary, or the same error.  Two iterative solves, one over
dense and one over sparse Jacobians that the callbacks keep equal, have the same events, the same
ending and the same parameters, and leave solvers that are alike again. -/
theorem storage_irrelevant :
    (∀ {J : Dense.Matrix ℝ} {S : Sparse.Matrix ℝ}, SameEntries J S →
      ∀ {m n : ℕ} {w w' : Lsmr.Workspace ℝ}, w.Shaped m n → w'.Shaped m n →
      ∀ (b x : Array ℝ) (p : Lsmr.Params ℝ),
        (shape J = (m, n) ∧ b.size = m ∧ x.size = n →
          ∃ sol sol' info, Lsmr.solve w J b x p = .ok sol ∧ Lsmr.solve w' S b x p = .ok sol' ∧
            sol.x = sol'.x ∧ sol.info = some info ∧ sol'.info = some info) ∧
        (¬(shape J = (m, n) ∧ b.size = m ∧ x.size = n) →
          ∃ e, Lsmr.solve w J b x p = .error e ∧ Lsmr.solve w' S b x p = .error e)) ∧
    ∀ {P P' : Type} {m n : ℕ} {Related : P → P' → Prop}
      {Layout : Dense.Matrix ℝ → Sparse.Matrix ℝ → Prop} {looks : Prop}
      {problem : Problem ℝ (Dense.Matrix ℝ) P} {problem' : Problem ℝ (Sparse.Matrix ℝ) P'},
      Mirrored m n Related Layout looks problem problem' →
      ∀ {k l : ℕ} {solver solver' : Solver ℝ (Lsmr.DampedStep ℝ)},
      solver.Alike m n (Lsmr.DampedStep.Alike k l) solver' →
      (looks → solver.buffers.residuals = solver'.buffers.residuals ∧
        solver.buffers.trialResiduals = solver'.buffers.trialResiduals) →
      ∀ {p : P} {q : P'}, Related p q → ∀ {J : Dense.Matrix ℝ} {S : Sparse.Matrix ℝ}, Layout J S →
      shape J = shape S → ∀ (o : Options ℝ) (x : Array ℝ),
        (solver.solve problem o p J x).Alike m n (Lsmr.DampedStep.Alike k l)
          (solver'.solve problem' o q S x) := by
  constructor
  · intro J S h m n w w' hw hw' b x p
    refine ⟨?_, h.lsmr_error hw hw' p⟩
    rintro ⟨hshape, hb, hx⟩
    exact h.lsmr_solve hw hw' p hshape hb hx
  · intro P P' m n Related Layout looks problem problem' h k l solver solver' hsolver hlooks p q hp
      J S hlayout hshape o x
    exact h.solve_alike hsolver hlooks hp hlayout hshape o x

/-- Two residuals `y₀ - 1` and `2 y₁ - 2`, and a zero that the sparse Jacobian stores. -/
theorem storage_irrelevant_stored_zero :
    let entry : ℕ → ℕ → ℝ := fun row col => if row ≠ col then 0 else if row = 0 then 1 else 2
    let J : Dense.Matrix ℝ := .ofFn 2 2 entry
    let pattern : Sparse.Pattern :=
      ⟨2, 2, #[0, 2, 3], #[0, 1, 1], (Sparse.violation?_eq_none_iff 2 2 _ _).1 (by decide)⟩
    let S : Sparse.Matrix ℝ := ⟨pattern, #[1, 0, 2], rfl⟩
    let residuals (p : Unit) (y _out : Array ℝ) : Outcome (Unit × Array ℝ) :=
      .done (p, #[y.getD 0 0 - 1, 2 * y.getD 1 0 - 2])
    let problem : Problem ℝ (Dense.Matrix ℝ) Unit := ⟨residuals, fun p _ _ => .done (p, J)⟩
    let problem' : Problem ℝ (Sparse.Matrix ℝ) Unit := ⟨residuals, fun p _ _ => .done (p, S)⟩
    let solver : Solver ℝ (Lsmr.DampedStep ℝ) := ⟨2, 2, .new 2 2 .default, .new 2 2⟩
    let run := solver.solve problem .default () (.zeros 2 2) #[3, 3]
    let run' := solver.solve problem' .default () (.zeros pattern) #[3, 3]
    (SameEntries J S ∧ pattern.nnz = 3) ∧
      Mirrored 2 2 (fun _ _ => True) (fun _ _ => True) False problem problem' ∧
      (∃ sol sol' info, Lsmr.solve (.new 2 2) J #[1, 2] #[0, 0] .default = .ok sol ∧
        Lsmr.solve (.new 2 2) S #[1, 2] #[0, 0] .default = .ok sol' ∧ sol.x = sol'.x ∧
          sol.info = some info ∧ sol'.info = some info) ∧
      run.x = run'.x ∧ run.ending = run'.ending ∧ run.events = run'.events := by
  intro entry J pattern S residuals problem problem' solver run run'
  have hshape (entry : ℕ → ℕ → ℝ) : shape (Dense.Matrix.ofFn 2 2 entry) = (2, 2) := by
    simp [shape, LinearOperator.nrows, LinearOperator.ncols, Dense.Matrix.ncols, Dense.Matrix.ofFn]
  have hsame : SameEntries J S := by
    refine ⟨hshape entry, fun row hrow col hcol => ?_⟩
    replace hrow : row < 2 := hrow
    replace hcol : col < 2 := (Prod.mk.inj (hshape entry)).2 ▸ hcol
    have hread : J.read? row col = some (entry row col) := by
      simp [J, Dense.Matrix.read?, Dense.Matrix.ofFn, hrow, hcol]
    rw [hread, Option.some_inj]
    interval_cases row <;> interval_cases col <;> rfl
  have hmirrored : Mirrored 2 2 (fun _ _ => True) (fun _ _ => True) False problem problem' :=
    { residuals := fun _ _ _ _ _ _ _ _ => .done ⟨trivial, rfl, rfl⟩
      jacobian := fun _ _ _ _ _ _ _ _ => .done ⟨trivial, trivial, hsame, hshape entry⟩ }
  have hsolver : solver.Alike 2 2 (Lsmr.DampedStep.Alike 2 2) solver :=
    ⟨rfl, rfl, rfl, rfl, Buffers.sized_new 2 2, Buffers.sized_new 2 2,
      Lsmr.DampedStep.shaped_new 2 2 .default, Lsmr.DampedStep.shaped_new 2 2 .default, rfl⟩
  have hworkspace := Lsmr.Workspace.shaped_new (α := ℝ) 2 2
  have hanswers := (storage_irrelevant.1 hsame hworkspace hworkspace #[1, 2] #[0, 0] .default).1
    ⟨hshape entry, rfl, rfl⟩
  have halike := storage_irrelevant.2 hmirrored hsolver False.elim (p := ()) (q := ()) trivial
    (J := .zeros 2 2) (S := .zeros pattern) trivial (hshape _) .default #[3, 3]
  exact ⟨⟨hsame, rfl⟩, hmirrored, hanswers, halike.x, halike.ending, halike.events⟩

end LeastSquares.Marquardt
