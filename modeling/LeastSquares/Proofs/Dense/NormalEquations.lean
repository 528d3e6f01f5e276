import Mathlib
import LeastSquares.Proofs.Dense.Cholesky
import LeastSquares.Proofs.Exact.Step

/-!
# Exact normal equations

The triangle of the damped normal equations is `Jᵀ J + lambda² diag dtd`.  Where every parameter
is damped it is positive definite, so the direct step solver always answers, and it answers the
step.
-/

namespace LeastSquares.Dense

open Exact
open LinearMap (adjoint)

variable {m n : ℕ}

noncomputable def combination (m : ℕ) (columns : List (Array ℝ)) (x : List ℝ) :
    EuclideanSpace ℝ (Fin m) :=
  (List.zipWith (fun xi c => xi • vec m c) x columns).sum

@[simp] theorem combination_cons (c : Array ℝ) (columns : List (Array ℝ)) (t : ℝ) (x : List ℝ) :
    combination m (c :: columns) (t :: x) = t • vec m c + combination m columns x := by
  simp [combination]

namespace NormalEquations

open Triangle

theorem inner_map_dot {c : Array ℝ} (hc : c.size = m) {columns : List (Array ℝ)}
    (hcolumns : ∀ d ∈ columns, d.size = m) {x : List ℝ} (hx : x.length = columns.length) :
    Triangle.inner (columns.map fun d => Vec.dot d c) x =
      inner ℝ (vec m c) (combination m columns x) := by
  induction columns generalizing x with
  | nil => simp [inner_eq_sum, combination]
  | cons d columns ih =>
    obtain ⟨t, x, rfl⟩ := List.exists_cons_of_length_eq_add_one hx
    simp only [List.length_cons, Nat.add_right_cancel_iff] at hx
    rw [List.map_cons, inner_cons, combination_cons, inner_add_right, inner_smul_right,
      ih (fun e he => hcolumns e (List.mem_cons_of_mem _ he)) hx,
      dot_eq_inner (hcolumns d List.mem_cons_self) hc, real_inner_comm]
    ring

theorem mul_gram {columns : List (Array ℝ)} (hcolumns : ∀ d ∈ columns, d.size = m) {x : List ℝ}
    (hx : x.length = columns.length) :
    mul (gram columns) x =
      columns.map fun c => inner ℝ (vec m c) (combination m columns x) := by
  induction columns generalizing x with
  | nil => simp [gram, mul]
  | cons c columns ih =>
    obtain ⟨t, x, rfl⟩ := List.exists_cons_of_length_eq_add_one hx
    simp only [List.length_cons, Nat.add_right_cancel_iff] at hx
    have hc := hcolumns c List.mem_cons_self
    have hrest : ∀ d ∈ columns, d.size = m := fun d hd => hcolumns d (List.mem_cons_of_mem _ hd)
    rw [gram, List.map_cons, mul, inner_map_dot hc hrest hx, ih hrest hx, List.map_cons,
      combination_cons, inner_add_right, inner_smul_right, dot_eq_inner hc hc]
    congr 1
    · ring
    · rw [List.zipWith_map_left, List.zipWith_map_right, List.zipWith_self]
      refine List.map_congr_left fun d hd => ?_
      rw [inner_add_right, inner_smul_right, dot_eq_inner (hrest d hd) hc]
      ring

theorem mul_addDiagonal {T : Triangle ℝ} (hT : Shaped n T) (factor : ℝ) {squares x : List ℝ}
    (hsquares : squares.length = n) (hx : x.length = n) :
    mul (addDiagonal factor squares T) x =
      List.zipWith (· + ·) (mul T x) (List.zipWith (fun d t => factor * d * t) squares x) := by
  induction hT generalizing squares x with
  | nil => simp [List.length_eq_zero_iff.1 hsquares, addDiagonal, mul]
  | cons hbelow hrest ih =>
    obtain ⟨square, squares, rfl⟩ := List.exists_cons_of_length_eq_add_one hsquares
    obtain ⟨t, x, rfl⟩ := List.exists_cons_of_length_eq_add_one hx
    simp only [List.length_cons, Nat.add_right_cancel_iff] at hsquares hx
    have hlength := length_mul hrest hx
    simp only [addDiagonal, mul, List.zipWith_cons_cons, ih hsquares hx]
    congr 1
    · ring
    · apply List.ext_getElem
      · simp [hbelow, hlength, hsquares, hx]
      · intro i _ _
        simp only [List.getElem_zipWith]
        ring

theorem inner_map_inner {columns : List (Array ℝ)} (w : EuclideanSpace ℝ (Fin m)) {x : List ℝ}
    (hx : x.length = columns.length) :
    Triangle.inner x (columns.map fun c => inner ℝ (vec m c) w) =
      inner ℝ (combination m columns x) w := by
  induction columns generalizing x with
  | nil => simp [List.length_eq_zero_iff.1 hx, inner_eq_sum, combination]
  | cons c columns ih =>
    obtain ⟨t, x, rfl⟩ := List.exists_cons_of_length_eq_add_one hx
    simp only [List.length_cons, Nat.add_right_cancel_iff] at hx
    rw [List.map_cons, inner_cons, combination_cons, inner_add_left, real_inner_smul_left, ih hx]

/-! ## The damped normal matrix -/

variable {J : Matrix ℝ} {f dtd step : Array ℝ} {lambda : ℝ}

theorem combination_columns (hn : J.ncols = n) {x : List ℝ} (hx : x.length = n) :
    combination m J.columns.toList x = linear m n J (vec n x.toArray) := by
  have hcolumns : J.columns.size = n := hn
  have hlist : List.zipWith (fun xi c => xi • vec m c) x J.columns.toList =
      List.ofFn fun j : Fin n => vec n x.toArray j • vec m (J.columns.getD j #[]) := by
    apply List.ext_getElem
    · simp [hx, hcolumns]
    · intro i hi _
      have hi' : i < n := by simpa [hx, hcolumns] using hi
      simp [hx, hcolumns]
  ext i
  rw [combination, hlist, List.sum_ofFn, linear_apply, WithLp.ofLp_sum, Finset.sum_apply]
  refine Finset.sum_congr rfl fun j _ => ?_
  rw [entries_eq hn]
  simp [mul_comm]

theorem size_of_mem_columns (hm : J.nrows = m) : ∀ c ∈ J.columns.toList, c.size = m :=
  fun c hc => (J.size_column c (Array.mem_toList_iff.1 hc)).trans hm

theorem mul_dampedNormal (hm : J.nrows = m) (hn : J.ncols = n) (hdtd : dtd.size = n) {x : List ℝ}
    (hx : x.length = n) :
    mul (dampedNormal J dtd lambda) x =
      List.zipWith (· + ·)
        (J.columns.toList.map fun c => inner ℝ (vec m c) (linear m n J (vec n x.toArray)))
        (List.zipWith (fun d t => lambda * lambda * d * t) dtd.toList x) := by
  have hcolumns : J.columns.toList.length = n := hn
  rw [dampedNormal, mul_addDiagonal (hcolumns ▸ shaped_gram _) _ (by simpa) hx,
    mul_gram (size_of_mem_columns hm) (hx.trans hcolumns.symm), combination_columns hn hx]

theorem inner_mul_dampedNormal (hm : J.nrows = m) (hn : J.ncols = n) (hdtd : dtd.size = n)
    {x : List ℝ} (hx : x.length = n) :
    Triangle.inner x (mul (dampedNormal J dtd lambda) x) =
      ‖linear m n J (vec n x.toArray)‖ ^ 2 +
        Triangle.inner x (List.zipWith (fun d t => lambda * lambda * d * t) dtd.toList x) := by
  have hcolumns : J.columns.toList.length = n := hn
  rw [mul_dampedNormal hm hn hdtd hx,
    inner_zipWith (a := 1) (b := 1) (fun y z => by ring) hx (by simpa) (by simp [hx, hdtd]),
    inner_map_inner _ (hx.trans hcolumns.symm), combination_columns hn hx,
    real_inner_self_eq_norm_sq, one_mul, one_mul]

theorem inner_diagonal_eq (hdtd : dtd.size = n) {x : List ℝ} (hx : x.length = n) :
    Triangle.inner x (List.zipWith (fun d t => lambda * lambda * d * t) dtd.toList x) =
      lambda ^ 2 * ∑ j, vec n dtd j * vec n x.toArray j ^ 2 := by
  have hlist : List.zipWith (· * ·) x
      (List.zipWith (fun d t => lambda * lambda * d * t) dtd.toList x) =
        List.ofFn fun j : Fin n => lambda ^ 2 * (vec n dtd j * vec n x.toArray j ^ 2) := by
    apply List.ext_getElem
    · simp [hx, hdtd]
    · intro i hi _
      have hi' : i < n := by simpa [hx, hdtd] using hi
      simp only [List.getElem_zipWith, List.getElem_ofFn, vec_apply]
      simp [hx, hdtd, hi']
      ring
  rw [inner_eq_sum, hlist, List.sum_ofFn, Finset.mul_sum]

theorem vec_toArray_ne_zero {x : List ℝ} (hx : x.length = n) (hne : ∃ e ∈ x, e ≠ 0) :
    vec n x.toArray ≠ 0 := by
  obtain ⟨e, he, hne⟩ := hne
  obtain ⟨i, hi, rfl⟩ := List.mem_iff_getElem.1 he
  intro hzero
  have hentry : vec n x.toArray ⟨i, hx ▸ hi⟩ = 0 := by rw [hzero, PiLp.zero_apply]
  rw [vec_eq_getElem (by simpa)] at hentry
  exact hne hentry

theorem posDef_dampedNormal (h : DampedProblem m n J f dtd lambda step) :
    PosDef n (dampedNormal J dtd lambda) := by
  intro x hx hne
  rw [inner_mul_dampedNormal h.nrows h.ncols h.size_dtd hx, inner_diagonal_eq h.size_dtd hx]
  exact add_pos_of_nonneg_of_pos (sq_nonneg _) (damping_pos h.damped (vec_toArray_ne_zero hx hne))

theorem diagonal_pos (hm : J.nrows = m) (hn : J.ncols = n) (hdtd : dtd.size = n)
    (h : PosDef n (dampedNormal J dtd lambda)) (j : Fin n) :
    0 < ‖linear m n J (EuclideanSpace.single j 1)‖ ^ 2 + lambda ^ 2 * vec n dtd j := by
  let e : List ℝ := List.ofFn fun i : Fin n => if i = j then 1 else 0
  have he : e.length = n := by simp [e]
  have hsingle : vec n e.toArray = EuclideanSpace.single j 1 := by
    ext i
    simp [e, PiLp.single_apply]
  have hpos := h e he ⟨1, by simp [e], one_ne_zero⟩
  rw [inner_mul_dampedNormal hm hn hdtd he, inner_diagonal_eq hdtd he, hsingle] at hpos
  simpa [PiLp.single_apply] using hpos

theorem isStep_of_mul (hm : J.nrows = m) (hn : J.ncols = n) (hdtd : dtd.size = n) {x : List ℝ}
    (hx : x.length = n) {rhs : Array ℝ} (hsize : rhs.size = n)
    (hrhs : vec n rhs = -adjoint (linear m n J) (vec m f))
    (hmul : mul (dampedNormal J dtd lambda) x = rhs.toList) :
    IsStep (entries m n J) (vec m f) (vec n dtd) lambda (vec n x.toArray) := by
  rw [isStep_iff]
  intro j
  have hcolumns : J.columns.size = n := hn
  have hentry : inner ℝ (vec m (J.columns.getD j #[])) (linear m n J (vec n x.toArray)) +
      lambda * lambda * vec n dtd j * vec n x.toArray j = vec n rhs j := by
    have hgetD := congrArg (·.getD (j : ℕ) 0) hmul
    rw [mul_dampedNormal hm hn hdtd hx] at hgetD
    simpa [hcolumns, hx, hdtd, hsize] using hgetD
  rw [inner_column hn, hrhs, PiLp.neg_apply] at hentry
  change adjoint (linear m n J) (linear m n J (vec n x.toArray)) j +
    lambda ^ 2 * vec n dtd j * vec n x.toArray j = -adjoint (linear m n J) (vec m f) j
  linear_combination hentry

/-- With any damping, the direct step solver keeps its size.  It answers where the damped normal
matrix is positive definite, and it answers the step. -/
theorem solveBy_ends {F : Factorization ℝ} (hF : F.Solves n) (lambda : ℝ) {s : NormalEquations ℝ}
    (hs : s.ncols = n) (hm : J.nrows = m) (hn : J.ncols = n) (hf : f.size = m) (hdtd : dtd.size = n)
    (hstep : step.size = n) :
    ∃ a, s.solveBy F J f dtd lambda step = .done a ∧ a.solver.ncols = n ∧ a.step.size = n ∧
      (a.inner.isSome = true ↔ PosDef n (dampedNormal J dtd lambda)) ∧
      (a.inner.isSome = true →
        IsStep (entries m n J) (vec m f) (vec n dtd) lambda (vec n a.step)) := by
  obtain ⟨rhs, hrhs, hsize, hvec⟩ := (realizes_linear hm hn).applyTranspose (-1) f 0 s.rhs hf hs
  have hfits : J.ncols = s.ncols ∧ dtd.size ≤ s.ncols := ⟨hn.trans hs.symm, (hdtd.trans hs.symm).le⟩
  have hshaped := shaped_dampedNormal hn dtd lambda
  have hsome := hF.isSome_iff _ hshaped
  cases hfactor : F.factor? (dampedNormal J dtd lambda) with
  | none =>
    rw [hfactor] at hsome
    exact ⟨⟨⟨dampedNormal J dtd lambda, rhs⟩, step, none, [.notPositiveDefinite lambda]⟩,
      by simp [solveBy, hfits, hrhs, hfactor], hsize, hstep, hsome, nofun⟩
  | some factor =>
    rw [hfactor] at hsome
    obtain ⟨hmul, hlength⟩ :=
      hF.mul_solve _ _ _ hshaped hfactor (by simpa : rhs.toList.length = n)
    refine ⟨⟨⟨factor, (F.solve factor rhs.toList).toArray⟩, (F.solve factor rhs.toList).toArray,
      some 0, []⟩, by simp [solveBy, hfits, hrhs, hfactor, solveInto, hlength, hstep], hlength,
      hlength, hsome, fun _ => ?_⟩
    refine isStep_of_mul hm hn hdtd hlength hsize ?_ hmul
    rw [hvec]
    module

theorem solve_ends (lambda : ℝ) {s : NormalEquations ℝ} (hs : s.ncols = n) (hm : J.nrows = m)
    (hn : J.ncols = n) (hf : f.size = m) (hdtd : dtd.size = n) (hstep : step.size = n) :
    ∃ a, s.solve J f dtd lambda step = .done a ∧ a.solver.ncols = n ∧ a.step.size = n ∧
      (a.inner.isSome = true ↔ PosDef n (dampedNormal J dtd lambda)) ∧
      (a.inner.isSome = true →
        IsStep (entries m n J) (vec m f) (vec n dtd) lambda (vec n a.step)) :=
  solveBy_ends (Factorization.solves_cholesky n) lambda hs hm hn hf hdtd hstep

theorem answersSteps (m n : ℕ) :
    AnswersSteps m n fun s : NormalEquations ℝ => s.ncols = n where
  fits s hs := by simpa [StepSolver.fits] using hs
  solveStep s J f dtd lambda step hs h := by
    obtain ⟨a, ha, hsize, hlength, hsome, hstep⟩ := solve_ends lambda hs h.nrows h.ncols
      h.size_residuals h.size_dtd h.size_step
    have hinner := hsome.2 (posDef_dampedNormal h)
    obtain ⟨inner, hinner'⟩ := Option.isSome_iff_exists.1 hinner
    exact ⟨a, inner, ha, hinner', hsize, hlength, hstep hinner⟩

end NormalEquations

end LeastSquares.Dense
