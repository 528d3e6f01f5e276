import Mathlib
import LeastSquares.Proofs.Lsmr.Residuals

/-!
# LSMR: the two families of vectors

A solve keeps only the last vector on either side of the operator, and makes the next one orthogonal
to that one alone.  In exact arithmetic the vectors of all iterations are nevertheless two
orthonormal families, as long as no `alpha` and no `beta` vanishes: each is orthogonal to the space
of the earlier ones.  The operator is bidiagonal in them, and there are no more of them than
dimensions.
-/

namespace LeastSquares.Lsmr

open Exact
open LinearMap (adjoint)

/-! ## The bases of a solve -/

section Bases

variable {α : Type} [Scalar α] {A : Type} [LinearOperator A α] {w : Workspace α} {a : A}
  {b x : Array α} {p : Params α} {s t : State α} {rule : Stop}

/-- The bases from the first one on, each extended to the next. -/
def bases (w : Workspace α) (a : A) (b x : Array α) : ℕ → Basis α
  | 0 => (firstBasis w a b x).state
  | k + 1 => ((bases w a b x k).extend a).state

theorem extend_of_step (h : (step a p s).state? = some t) :
    s.basis.extend a = .done t.basis ∧ t.iteration = s.iteration + 1 := by
  unfold step at h
  dsimp only at h
  split at h
  · cases h
  · rename_i g hg
    split at h
    · cases h
      exact ⟨hg, rfl⟩
    · split at h <;>
      · cases h
        exact ⟨hg, rfl⟩

theorem basis_of_step (hs : s.basis = bases w a b x s.iteration)
    (h : (step a p s).state? = some t) : t.basis = bases w a b x t.iteration := by
  obtain ⟨hextend, hiteration⟩ := extend_of_step h
  rw [hiteration, bases, ← hs, hextend, Outcome.state]

theorem Head.basis_eq (head : Head w a b x p s) : s.basis = bases w a b x s.iteration := by
  induction head with
  | first starts _ => simp [State.initial, bases, starts, Outcome.state]
  | next _ goes _ ih => exact basis_of_step ih (by rw [goes]; rfl)

end Bases

/-! ## Orthonormal families -/

section Families

variable {E : Type} [NormedAddCommGroup E] [InnerProductSpace ℝ E]

def earlier (e : ℕ → E) : ℕ → Submodule ℝ E
  | 0 => ⊥
  | k + 1 => earlier e k ⊔ ℝ ∙ e k

theorem mem_earlier (e : ℕ → E) {i k : ℕ} (h : i < k) : e i ∈ earlier e k := by
  induction k with
  | zero => omega
  | succ k ih =>
    rcases Nat.lt_succ_iff_lt_or_eq.1 h with hlt | rfl
    · exact Submodule.mem_sup_left (ih hlt)
    · exact Submodule.mem_sup_right (Submodule.mem_span_singleton_self _)

theorem orthonormal_of_earlier {e : ℕ → E} {k : ℕ} (hnorm : ∀ i < k, ‖e i‖ = 1)
    (horth : ∀ i < k, e i ∈ (earlier e i)ᗮ) : Orthonormal ℝ fun i : Fin k => e i := by
  refine ⟨fun i => hnorm i i.isLt, fun i j hij => ?_⟩
  rcases lt_or_gt_of_ne (Fin.val_ne_of_ne hij) with hlt | hlt
  · exact Submodule.inner_right_of_mem_orthogonal (mem_earlier e hlt) (horth j j.isLt)
  · exact Submodule.inner_left_of_mem_orthogonal (mem_earlier e hlt) (horth i i.isLt)

end Families

section Chains

variable {A : Type} [LinearOperator A ℝ] {a : A} {m n : ℕ}
  {M : EuclideanSpace ℝ (Fin n) →ₗ[ℝ] EuclideanSpace ℝ (Fin m)} {r : EuclideanSpace ℝ (Fin m)}
  {g : ℕ → Basis ℝ} {k : ℕ}

theorem card_le_of_orthonormal {e : ℕ → EuclideanSpace ℝ (Fin m)}
    (h : Orthonormal ℝ fun i : Fin k => e i) : k ≤ m := by
  simpa using h.linearIndependent.fintype_card_le_finrank

structure Chain (M : EuclideanSpace ℝ (Fin n) →ₗ[ℝ] EuclideanSpace ℝ (Fin m))
    (r : EuclideanSpace ℝ (Fin m)) (g : ℕ → Basis ℝ) : Prop where
  starts : (g 0).Starts M r
  next : ∀ k, Basis.Extends M (g k) (g (k + 1))

def Unbroken (g : ℕ → Basis ℝ) (k : ℕ) : Prop := ∀ i ≤ k, (g i).beta ≠ 0 ∧ (g i).alpha ≠ 0

theorem Unbroken.mono (h : Unbroken g k) {i : ℕ} (hi : i ≤ k) : Unbroken g i :=
  fun j hj => h j (hj.trans hi)

namespace Chain

variable (hg : Chain M r g)

include hg

theorem sized (k : ℕ) : (g k).Sized m n := by
  cases k with
  | zero => exact hg.starts.sized
  | succ k => exact (hg.next k).sized

theorem beta_nonneg (k : ℕ) : 0 ≤ (g k).beta := by
  cases k with
  | zero => exact hg.starts.beta_nonneg
  | succ k => exact (hg.next k).beta_nonneg

theorem alpha_nonneg (k : ℕ) : 0 ≤ (g k).alpha := by
  induction k with
  | zero => exact hg.starts.alpha_nonneg
  | succ k ih => exact (hg.next k).alpha_nonneg ih

theorem beta_pos (h : (g k).beta ≠ 0) : 0 < (g k).beta := (hg.beta_nonneg k).lt_of_ne' h

theorem alpha_pos (h : (g k).alpha ≠ 0) : 0 < (g k).alpha := (hg.alpha_nonneg k).lt_of_ne' h

theorem norm_u (h : (g k).beta ≠ 0) : ‖vec m (g k).u‖ = 1 := by
  cases k with
  | zero => exact hg.starts.norm_u (hg.beta_pos h)
  | succ k => exact (hg.next k).norm_u (hg.beta_pos h)

theorem bidiagonal (h : Unbroken g k) :
    Bidiagonal M (earlier (fun i => vec m (g i).u) k) (earlier (fun i => vec n (g i).v) k)
      (vec m (g k).u) (vec n (g k).v) (g k).alpha := by
  -- Both families go through one induction: each new vector is orthogonal to the earlier ones of its
  -- family because the operator maps the other family where it does.
  induction k with
  | zero =>
    obtain ⟨hbeta, halpha⟩ := h 0 le_rfl
    exact .first (hg.norm_u hbeta) (hg.starts.norm_v (hg.alpha_pos halpha)) hg.starts.parameter
  | succ k ih =>
    obtain ⟨hbeta, halpha⟩ := h (k + 1) le_rfl
    have hpos := hg.beta_pos hbeta
    exact (ih (h.mono k.le_succ)).next hbeta halpha (hg.norm_u hbeta)
      ((hg.next k).norm_v hpos (hg.alpha_pos halpha)) (hg.next k).residual
      ((hg.next k).parameter hpos)

theorem orthogonal_u (hbeta : (g k).beta ≠ 0) (h : ∀ i < k, (g i).beta ≠ 0 ∧ (g i).alpha ≠ 0) :
    vec m (g k).u ∈ (earlier (fun i => vec m (g i).u) k)ᗮ := by
  cases k with
  | zero => simp [earlier]
  | succ k =>
    have hbefore : Unbroken g k := fun i hi => h i (Nat.lt_succ_of_le hi)
    exact (hg.bidiagonal hbefore).orthogonal_next_u hbeta (hg.next k).residual

theorem orthonormal_u (hbeta : ∀ i ≤ k, (g i).beta ≠ 0) (halpha : ∀ i < k, (g i).alpha ≠ 0) :
    Orthonormal ℝ fun i : Fin (k + 1) => vec m (g i).u := by
  refine orthonormal_of_earlier (e := fun i => vec m (g i).u) (fun i hi => ?_) fun i hi => ?_
  · exact hg.norm_u (hbeta i (Nat.le_of_lt_succ hi))
  · exact hg.orthogonal_u (hbeta i (by omega)) fun j hj =>
      ⟨hbeta j (by omega), halpha j (by omega)⟩

theorem orthonormal_v (h : ∀ i < k, Unbroken g i) :
    Orthonormal ℝ fun i : Fin k => vec n (g i).v :=
  orthonormal_of_earlier (e := fun i => vec n (g i).v)
    (fun i hi => (hg.bidiagonal (h i hi)).norm_v)
    (fun i hi => (hg.bidiagonal (h i hi)).orthogonal_v)

end Chain

/-- What the bidiagonalization of an operator from a residual is: the recurrences, and two
orthonormal families up to the first `alpha` or `beta` that vanishes. -/
structure Bidiagonalizes (M : EuclideanSpace ℝ (Fin n) →ₗ[ℝ] EuclideanSpace ℝ (Fin m))
    (r : EuclideanSpace ℝ (Fin m)) (g : ℕ → Basis ℝ) : Prop where
  sized : ∀ k, (g k).Sized m n
  residual : r = (g 0).beta • vec m (g 0).u
  adjoint_first : adjoint M (vec m (g 0).u) = (g 0).alpha • vec n (g 0).v
  map_v : ∀ k, M (vec n (g k).v) =
    (g k).alpha • vec m (g k).u + (g (k + 1)).beta • vec m (g (k + 1)).u
  adjoint_u : ∀ k, (g (k + 1)).beta ≠ 0 → adjoint M (vec m (g (k + 1)).u) =
    (g (k + 1)).beta • vec n (g k).v + (g (k + 1)).alpha • vec n (g (k + 1)).v
  orthonormal_u : ∀ k, (∀ i ≤ k, (g i).beta ≠ 0) → (∀ i < k, (g i).alpha ≠ 0) →
    Orthonormal ℝ (fun i : Fin (k + 1) => vec m (g i).u) ∧ k + 1 ≤ m
  orthonormal_v : ∀ k, (∀ i ≤ k, (g i).beta ≠ 0) → (∀ i ≤ k, (g i).alpha ≠ 0) →
    Orthonormal ℝ (fun i : Fin (k + 1) => vec n (g i).v) ∧ k + 1 ≤ n

theorem Chain.bidiagonalizes (hg : Chain M r g) : Bidiagonalizes M r g where
  sized := hg.sized
  residual := hg.starts.residual
  adjoint_first := hg.starts.parameter
  map_v k := by
    rw [← (hg.next k).residual]
    abel
  adjoint_u k hbeta := by
    rw [← (hg.next k).parameter (hg.beta_pos hbeta)]
    abel
  orthonormal_u k hbeta halpha :=
    have horthonormal := hg.orthonormal_u hbeta halpha
    ⟨horthonormal, card_le_of_orthonormal (e := fun i => vec m (g i).u) horthonormal⟩
  orthonormal_v k hbeta halpha :=
    have horthonormal := hg.orthonormal_v (k := k + 1) fun i hi j hj =>
      ⟨hbeta j (by omega), halpha j (by omega)⟩
    ⟨horthonormal, card_le_of_orthonormal (e := fun i => vec n (g i).v) horthonormal⟩

/-! ## The run -/

theorem State.Tracks.unbroken_next {b : EuclideanSpace ℝ (Fin m)}
    {x₀ : EuclideanSpace ℝ (Fin n)} {s t : State ℝ} {p : Params ℝ} (ha : Realizes a M)
    (hs : s.Tracks M p.damp b x₀) (goes : Lsmr.step a p s = .next t) :
    t.basis.beta ≠ 0 ∧ t.basis.alpha ≠ 0 := by
  obtain ⟨g, q, hg, ht, -, ⟨-, hstep, htracks⟩ | ⟨rule, -, hstep⟩⟩ := step_tracks ha hs
  · cases hstep.symm.trans goes
    have hsbar : q.sbar ≠ 0 := fun h => htracks.zetabar_ne_zero <| by
      change q.zetabar = 0
      rw [ht.zetabar, h, neg_zero, zero_mul]
    obtain ⟨hbeta, halpha⟩ := ht.further hg hs.regular.alpha.le hsbar
    exact ⟨hbeta.ne', halpha.ne'⟩
  · cases hstep.symm.trans goes

section Run

variable {w : Workspace ℝ} {rhs x : Array ℝ} {p : Params ℝ} {s t : State ℝ} {rule : Stop}
  (ha : Realizes a M) (hw : w.Sized m n) (hrhs : rhs.size = m) (hx : x.size = n)

include ha hw hrhs hx

theorem firstBasis_bases : firstBasis w a rhs x = .done (bases w a rhs x 0) ∧
    (bases w a rhs x 0).Starts M (vec m rhs - M (vec n x)) := by
  obtain ⟨g, hfirst, hg⟩ := firstBasis_done ha hw hrhs hx
  have hzero : bases w a rhs x 0 = g := by rw [bases, hfirst, Outcome.state]
  rw [hzero]
  exact ⟨hfirst, hg⟩

theorem extend_bases (k : ℕ) : (bases w a rhs x k).extend a = .done (bases w a rhs x (k + 1)) ∧
    Basis.Extends M (bases w a rhs x k) (bases w a rhs x (k + 1)) := by
  have hnext {k : ℕ} (hsized : (bases w a rhs x k).Sized m n) :
      (bases w a rhs x k).extend a = .done (bases w a rhs x (k + 1)) ∧
        Basis.Extends M (bases w a rhs x k) (bases w a rhs x (k + 1)) := by
    obtain ⟨g, hextend, hg⟩ := Basis.extend_done ha hsized
    have hsucc : bases w a rhs x (k + 1) = g := by rw [bases, hextend, Outcome.state]
    rw [hsucc]
    exact ⟨hextend, hg⟩
  induction k with
  | zero => exact hnext (firstBasis_bases ha hw hrhs hx).2.sized
  | succ k ih => exact hnext ih.2.sized

theorem chain_bases : Chain M (vec m rhs - M (vec n x)) (bases w a rhs x) :=
  ⟨(firstBasis_bases ha hw hrhs hx).2, fun k => (extend_bases ha hw hrhs hx k).2⟩

theorem Head.unbroken (head : Head w a rhs x p s) :
    Unbroken (bases w a rhs x) s.iteration := by
  induction head with
  | first starts moves =>
    intro i hi
    obtain rfl : i = 0 := Nat.le_zero.1 hi
    have hproduct := of_decide_eq_false moves
    rw [bases, starts]
    exact ⟨right_ne_zero_of_mul hproduct, left_ne_zero_of_mul hproduct⟩
  | next head goes more ih =>
    intro i hi
    rcases hi.lt_or_eq with hlt | rfl
    · exact ih i (by rw [iteration_of_next goes] at hlt; omega)
    · rw [← (head.next goes more).basis_eq]
      exact (head.tracks ha hw hrhs hx).unbroken_next ha goes

theorem Exit.of_gradient (hne : adjoint M (vec m rhs - M (vec n x)) ≠ 0)
    (h : Exit w a rhs x p t rule) :
    ∃ s, Head w a rhs x p s ∧ (step a p s).state? = some t := by
  cases h with
  | rests starts zero => simp [moves_of_gradient ha hw hrhs hx starts hne] at zero
  | stopped head stops => exact ⟨_, head, by rw [stops]; rfl⟩
  | limit head goes => exact ⟨_, head, by rw [goes]; rfl⟩

end Run

/-- The vectors that a solve with a normal residual at its start runs through, whatever its
parameters are, are those of the bidiagonalization: as long as no `alpha` and no `beta` vanishes
they are two orthonormal families in which the operator is bidiagonal, no more of them than
dimensions.  At a loop head none has vanished. -/
theorem bases_bidiagonalize (ha : Realizes a M) {w : Workspace ℝ} (hw : w.Sized m n)
    {rhs x : Array ℝ} (hrhs : rhs.size = m) (hx : x.size = n)
    (hne : adjoint M (vec m rhs - M (vec n x)) ≠ 0) :
    let g := bases w a rhs x
    firstBasis w a rhs x = .done (g 0) ∧ (∀ k, (g k).extend a = .done (g (k + 1))) ∧
    Bidiagonalizes M (vec m rhs - M (vec n x)) g ∧
    (∀ p s, Head w a rhs x p s → s.basis = g s.iteration ∧
      ∀ i ≤ s.iteration, (g i).beta ≠ 0 ∧ (g i).alpha ≠ 0) ∧
    ∀ p t rule, Exit w a rhs x p t rule → t.basis = g t.iteration ∧
      ∀ i < t.iteration, (g i).beta ≠ 0 ∧ (g i).alpha ≠ 0 := by
  intro g
  have hchain := chain_bases ha hw hrhs hx
  refine ⟨(firstBasis_bases ha hw hrhs hx).1, fun k => (extend_bases ha hw hrhs hx k).1,
    hchain.bidiagonalizes, fun p s head => ⟨head.basis_eq, head.unbroken ha hw hrhs hx⟩, ?_⟩
  intro p t rule exit
  obtain ⟨s, head, hstep⟩ := exit.of_gradient ha hw hrhs hx hne
  refine ⟨basis_of_step head.basis_eq hstep, fun i hi => ?_⟩
  rw [(extend_of_step hstep).2] at hi
  exact head.unbroken ha hw hrhs hx i (Nat.le_of_lt_succ hi)

end Chains

/-- A warm start over a wide operator. -/
theorem bases_bidiagonalize_wide :
    let a : Dense.Matrix ℝ := .ofFn 2 3 fun row col => row + col
    let r := vec 2 #[1, 2] - linear 2 3 a (vec 3 #[3, 0, 1])
    Realizes a (linear 2 3 a) ∧ adjoint (linear 2 3 a) r ≠ 0 ∧
      Bidiagonalizes (linear 2 3 a) r (bases (Workspace.new 2 3) a #[1, 2] #[3, 0, 1]) := by
  intro a r
  have ha := realizes_ofFn 2 3 fun row col => (row + col : ℝ)
  have hne : adjoint (linear 2 3 a) r ≠ 0 := by
    intro hzero
    have hentry := congrArg (fun v => v 0) hzero
    simp [r, a, adjoint_linear_apply, linear_apply, entries_ofFn, Fin.sum_univ_succ] at hentry
    norm_num at hentry
  exact ⟨ha, hne, (bases_bidiagonalize ha (Workspace.sized_new 2 3) rfl rfl hne).2.2.1⟩

end LeastSquares.Lsmr
