import Mathlib
import LeastSquares.Proofs.Lsmr.Orthonormal

/-!
# LSMR: the estimate of the operator norm

The estimate adds up the squares of the bidiagonal entries, one column in each iteration: what the
operator makes of one more vector of an orthonormal family.  So it never decreases, and by Bessel's
inequality for the rows of the operator it stays below the Frobenius norm.
-/

namespace LeastSquares.Lsmr

open Exact
open LinearMap (adjoint)
open Matrix (fromRows toEuclideanLin)
open scoped Matrix.Norms.Frobenius

/-! ## The Frobenius norm -/

section Frobenius

variable {m n : ℕ} {B : Matrix (Fin m) (Fin n) ℝ}

theorem frobenius_sq {ι κ : Type} [Fintype ι] [Fintype κ] (B : Matrix ι κ ℝ) :
    ‖B‖ ^ 2 = ∑ i, ∑ j, B i j ^ 2 := by
  have hnonneg : 0 ≤ ∑ i, ∑ j, B i j ^ 2 := by positivity
  rw [Matrix.frobenius_norm_def, ← Real.sqrt_eq_rpow]
  simp only [Real.rpow_ofNat, Real.norm_eq_abs, sq_abs]
  exact Real.sq_sqrt hnonneg

theorem frobenius_le_fromRows {κ : Type} [Fintype κ] (B : Matrix (Fin m) (Fin n) ℝ)
    (D : Matrix κ (Fin n) ℝ) : ‖B‖ ≤ ‖fromRows B D‖ := by
  refine le_of_sq_le_sq ?_ (norm_nonneg _)
  rw [frobenius_sq, frobenius_sq, Fintype.sum_sum_type]
  have hnonneg : 0 ≤ ∑ i, ∑ j, D i j ^ 2 := by positivity
  simpa using hnonneg

theorem sum_norm_sq_map_le {k : ℕ} {v : Fin k → EuclideanSpace ℝ (Fin n)}
    (hv : Orthonormal ℝ v) : ∑ i, ‖toEuclideanLin B (v i)‖ ^ 2 ≤ ‖B‖ ^ 2 := by
  let row (l : Fin m) : EuclideanSpace ℝ (Fin n) := WithLp.toLp 2 (B l)
  have hentry (i : Fin k) (l : Fin m) :
      toEuclideanLin B (v i) l = inner ℝ (v i) (row l) := by
    simp [row, Matrix.mulVec, dotProduct, PiLp.inner_apply]
  calc ∑ i, ‖toEuclideanLin B (v i)‖ ^ 2 = ∑ i, ∑ l, ‖inner ℝ (v i) (row l)‖ ^ 2 := by
        simp only [EuclideanSpace.norm_sq_eq, hentry]
    _ = ∑ l, ∑ i, ‖inner ℝ (v i) (row l)‖ ^ 2 := Finset.sum_comm
    _ ≤ ∑ l, ‖row l‖ ^ 2 := Finset.sum_le_sum fun l _ => hv.sum_inner_products_le (row l)
    _ = ‖B‖ ^ 2 := by simp [frobenius_sq, EuclideanSpace.norm_sq_eq, row]

end Frobenius

/-! ## The entries -/

/-- The squares of the entries in the first columns of the bidiagonal form. -/
def entrySquares (g : ℕ → Basis ℝ) (k : ℕ) : ℝ :=
  ∑ i ∈ Finset.range k, ((g i).alpha ^ 2 + (g (i + 1)).beta ^ 2)

theorem entrySquares_succ (g : ℕ → Basis ℝ) (k : ℕ) :
    entrySquares g (k + 1) = entrySquares g k + ((g k).alpha ^ 2 + (g (k + 1)).beta ^ 2) :=
  Finset.sum_range_succ _ _

section Run

variable {A : Type} [LinearOperator A ℝ] {a : A} {m n : ℕ}
  {M : EuclideanSpace ℝ (Fin n) →ₗ[ℝ] EuclideanSpace ℝ (Fin m)} {r : EuclideanSpace ℝ (Fin m)}
  {b : EuclideanSpace ℝ (Fin m)} {x₀ : EuclideanSpace ℝ (Fin n)} {g : ℕ → Basis ℝ} {k : ℕ}
  {B : Matrix (Fin m) (Fin n) ℝ} {s t : State ℝ} {p : Params ℝ} {rule : Stop}

theorem Chain.norm_sq_map (hg : Chain M r g) (h : Unbroken g k) :
    ‖M (vec n (g k).v)‖ ^ 2 = (g k).alpha ^ 2 + (g (k + 1)).beta ^ 2 :=
  (hg.bidiagonal h).norm_sq_map (hg.next k).beta_nonneg (hg.next k).norm_u (hg.next k).residual

theorem Chain.entrySquares_le (hg : Chain (toEuclideanLin B) r g) (h : ∀ i < k, Unbroken g i) :
    entrySquares g k ≤ ‖B‖ ^ 2 := by
  calc entrySquares g k = ∑ i : Fin k, ‖toEuclideanLin B (vec n (g i).v)‖ ^ 2 := by
        rw [entrySquares, ← Fin.sum_univ_eq_sum_range]
        exact Finset.sum_congr rfl fun i _ => (hg.norm_sq_map (h i i.isLt)).symm
    _ ≤ ‖B‖ ^ 2 := sum_norm_sq_map_le (hg.orthonormal_v h)

/-- A state whose estimate has counted every entry up to the last `alpha`, and reports no more. -/
structure State.Counts (g : ℕ → Basis ℝ) (s : State ℝ) : Prop where
  basis : s.basis = g s.iteration
  squares : s.operator.squares = entrySquares g s.iteration + (g s.iteration).alpha ^ 2
  normA_le : s.normA ≤ √s.operator.squares

/-- An iteration counts its `beta`, reports what is counted, and counts its `alpha`. -/
theorem State.Counts.step (ha : Realizes a M) (hs : s.Tracks M p.damp b x₀) (hc : s.Counts g)
    (h : (step a p s).state? = some t) (hbasis : t.basis = g t.iteration) :
    t.Counts g ∧ t.normA = √(entrySquares g t.iteration) ∧ s.normA ≤ t.normA := by
  obtain ⟨g', q, rfl⟩ : ∃ g' q, t = s.turned g' q := by
    obtain ⟨g', q, -, -, -, ⟨-, hstep, -⟩ | ⟨rule, -, hstep⟩⟩ := step_tracks ha hs
    all_goals
      rw [hstep] at h
      cases h
      exact ⟨g', q, rfl⟩
  have hg' : g' = g (s.iteration + 1) := hbasis
  have hcount : s.operator.squares + g'.beta * g'.beta = entrySquares g (s.iteration + 1) := by
    rw [hc.squares, hg', entrySquares_succ]
    ring
  have hnormA : (s.turned g' q).normA = √(entrySquares g (s.iteration + 1)) :=
    congrArg Real.sqrt hcount
  have hsquares : (s.turned g' q).operator.squares =
      entrySquares g (s.iteration + 1) + (g (s.iteration + 1)).alpha ^ 2 := by
    rw [← hcount, ← hg', sq]
    rfl
  refine ⟨⟨hbasis, hsquares, ?_⟩, hnormA, ?_⟩
  · rw [hnormA, hsquares]
    exact Real.sqrt_le_sqrt (le_add_of_nonneg_right (sq_nonneg _))
  · rw [hnormA, ← hcount]
    exact hc.normA_le.trans (Real.sqrt_le_sqrt (le_add_of_nonneg_right (mul_self_nonneg _)))

variable {w : Workspace ℝ} {rhs x : Array ℝ} (ha : Realizes a M) (hw : w.Sized m n)
  (hrhs : rhs.size = m) (hx : x.size = n)

include ha hw hrhs hx

theorem Head.counts (head : Head w a rhs x p s) : s.Counts (bases w a rhs x) := by
  induction head with
  | @first g starts moves =>
    have hzero : bases w a rhs x 0 = g := by rw [bases, starts, Outcome.state]
    refine ⟨hzero.symm, ?_, le_rfl⟩
    simp [State.initial, entrySquares, hzero, sq]
  | next head goes more ih =>
    exact (ih.step ha (head.tracks ha hw hrhs hx) (by rw [goes]; rfl)
      (head.next goes more).basis_eq).1

theorem Head.normA_step (head : Head w a rhs x p s) (h : (step a p s).state? = some t) :
    t.normA = √(entrySquares (bases w a rhs x) t.iteration) ∧ s.normA ≤ t.normA :=
  ((head.counts ha hw hrhs hx).step ha (head.tracks ha hw hrhs hx) h
    (basis_of_step head.basis_eq h)).2

theorem alpha_eq_zero_of_beta {g : Basis ℝ} (starts : firstBasis w a rhs x = .done g)
    (hbeta : g.beta = 0) : g.alpha = 0 := by
  obtain ⟨y, hy, hsize, -⟩ := ha.apply (-1) x 1 rhs hx hrhs
  have hu : (Vec.normalize (Vec.norm y) y).size = m := (Vec.size_normalize _ _).trans hsize
  obtain ⟨z, hz, hsize', hvec⟩ := ha.applyTranspose 1 (Vec.normalize (Vec.norm y) y) 0 w.v hu hw.v
  obtain rfl : ⟨Vec.normalize (Vec.norm y) y, Vec.normalize (Vec.norm z) z, Vec.norm z,
      Vec.norm y⟩ = g := by
    simpa [firstBasis, hy, Basis.unit, hz] using starts
  change Vec.norm z = 0
  rw [norm_eq hsize', hvec, normalize_eq_zero hsize hbeta]
  simp

theorem Exit.normA_of_rest (hzero : adjoint M (vec m rhs - M (vec n x)) = 0)
    (h : Exit w a rhs x p t rule) : t.normA = 0 := by
  obtain ⟨g, hfirst, hg⟩ := firstBasis_done ha hw hrhs hx
  have hrests : (State.initial w.hbar x g).normAr = 0 := by rw [hg.normAr_eq, hzero, norm_zero]
  have halpha : g.alpha = 0 := by
    rcases mul_eq_zero.1 hrests with halpha | hbeta
    · exact halpha
    · exact alpha_eq_zero_of_beta ha hw hrhs hx hfirst hbeta
  obtain ⟨rfl, -⟩ := h.eq_rest hfirst (decide_eq_true hrests)
  simp [State.initial, halpha]

end Run

/-- The estimate of the operator norm in the summary of an exact solve is at most the Frobenius norm
of the operator, and so at most the one with the damping below it.  It is the root of the squares of
every `alpha` and `beta` that the iterations have made, each counted once, and no iteration lowers
it. -/
theorem solve_normA {A : Type} [LinearOperator A ℝ] {a : A} {m n : ℕ}
    {B : Matrix (Fin m) (Fin n) ℝ} (ha : Realizes a (toEuclideanLin B)) {w : Workspace ℝ}
    (hw : w.Sized m n) {rhs x : Array ℝ} (hrhs : rhs.size = m) (hx : x.size = n) (p : Params ℝ) :
    let gradient := adjoint (toEuclideanLin B) (vec m rhs - toEuclideanLin B (vec n x))
    ∃ sol info, solve w a rhs x p = .ok sol ∧ sol.info = some info ∧
      info.normA ≤ ‖B‖ ∧
      info.normA ≤ ‖fromRows B (Matrix.diagonal fun _ : Fin n => p.damp)‖ ∧
      (gradient = 0 → info.normA = 0) ∧
      (gradient ≠ 0 → info.normA = √(entrySquares (bases w a rhs x) info.iterations)) ∧
      (∀ s, Head w a rhs x p s → s.operator.squares =
        entrySquares (bases w a rhs x) s.iteration + (bases w a rhs x s.iteration).alpha ^ 2) ∧
      ∀ s t, Head w a rhs x p s → (step a p s).state? = some t → s.normA ≤ t.normA ∧
        t.normA = √(entrySquares (bases w a rhs x) t.iteration) := by
  intro gradient
  have hsteps (s t : State ℝ) (head : Head w a rhs x p s) (h : (step a p s).state? = some t) :=
    head.normA_step ha hw hrhs hx h
  obtain ⟨sol, t, rule, hsolve, hexit, hinfo, -⟩ := solve_ends ha hw hrhs hx p
  have hmade (hne : gradient ≠ 0) : t.normA = √(entrySquares (bases w a rhs x) t.iteration) := by
    obtain ⟨s, head, hstep⟩ := hexit.of_gradient ha hw hrhs hx hne
    exact (hsteps s t head hstep).1
  have hbound : t.normA ≤ ‖B‖ := by
    by_cases hzero : gradient = 0
    · rw [hexit.normA_of_rest ha hw hrhs hx hzero]
      exact norm_nonneg B
    · obtain ⟨s, head, hstep⟩ := hexit.of_gradient ha hw hrhs hx hzero
      rw [hmade hzero, (extend_of_step hstep).2]
      refine Real.sqrt_le_iff.2 ⟨norm_nonneg B, ?_⟩
      exact (chain_bases ha hw hrhs hx).entrySquares_le fun i hi =>
        (head.unbroken ha hw hrhs hx).mono (Nat.le_of_lt_succ hi)
  exact ⟨sol, _, hsolve, hinfo, hbound, hbound.trans (frobenius_le_fromRows B _),
    fun hzero => hexit.normA_of_rest ha hw hrhs hx hzero, hmade,
    fun s head => (head.counts ha hw hrhs hx).squares, fun s t head h => (hsteps s t head h).symm⟩

theorem solve_normA_warm :
    let a : Dense.Matrix ℝ := .ofFn 2 3 fun row col => row + col
    let B := entries 2 3 a
    Realizes a (toEuclideanLin B) ∧
      ∃ sol info, solve (Workspace.new 2 3) a #[1, 2] #[3, 0, 1] ⟨0, 0, 0, 1, 2⟩ = .ok sol ∧
        sol.info = some info ∧ info.normA ≤ ‖B‖ := by
  intro a B
  have ha : Realizes a (toEuclideanLin B) := realizes_ofFn 2 3 fun row col => (row + col : ℝ)
  have hrhs : (#[1, 2] : Array ℝ).size = 2 := rfl
  have hx : (#[3, 0, 1] : Array ℝ).size = 3 := rfl
  obtain ⟨sol, info, hsolve, hinfo, hle, -⟩ :=
    solve_normA ha (Workspace.sized_new 2 3) hrhs hx ⟨0, 0, 0, 1, 2⟩
  exact ⟨ha, sol, info, hsolve, hinfo, hle⟩

end LeastSquares.Lsmr
