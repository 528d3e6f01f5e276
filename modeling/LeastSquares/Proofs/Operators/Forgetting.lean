import LeastSquares.Proofs.Operators.Completing

/-!
# Operators that forget

`Agree` asks a forward product to be the same on equal buffers.  Where `beta` is zero it is the same
on any two, as the transposed product and the column norms are, and all three come to their end.
Dense and sparse matrices forget their buffers in this way, and a damped operator forgets its buffers
and its scratch vector where its base does, so damping can be nested to any depth.
-/

namespace LeastSquares

open LinearOperator (Agree Completes ncols nrows)

variable {α : Type} [Scalar α]

namespace Outcome

variable {σ : Type}

theorem Alike.exists_done {Q : σ → Prop} {B : σ → σ → Prop} {o o' : Outcome σ}
    (h : Alike (fun s t => s = t ∧ Q s) B o o') {R : σ → Prop} (hends : o.Ends R) :
    ∃ s, o = .done s ∧ o' = .done s := by
  obtain ⟨s, rfl, -⟩ := hends
  cases h with
  | done h => exact ⟨s, rfl, congrArg Outcome.done h.1.symm⟩

end Outcome

namespace LinearOperator

variable {A A' : Type} [LinearOperator A α] [LinearOperator A' α] {a : A} {a' : A'}

/-- Two operators of which every product with a zero `beta` and the column norms have the same
result on any two buffers of the right length. -/
structure Forgets (a : A) (a' : A') : Prop where
  agree : Agree (nrows a) (ncols a) a a'
  completes : Completes (nrows a) (ncols a) a
  product : ∀ (alpha : α) (v : Array α) (beta : α) (out out' : Array α), (beta == 0) = true →
    v.size = ncols a → out.size = nrows a → out'.size = nrows a →
    ∃ r, apply a alpha v beta out = .done r ∧ apply a' alpha v beta out' = .done r
  transposed : ∀ (alpha : α) (v : Array α) (beta : α) (out out' : Array α), (beta == 0) = true →
    v.size = nrows a → out.size = ncols a → out'.size = ncols a →
    ∃ r, applyTranspose a alpha v beta out = .done r ∧
      applyTranspose a' alpha v beta out' = .done r
  squares : ∀ out out' : Array α, out.size = ncols a → out'.size = ncols a →
    ∃ r, columnSquares a out = .done r ∧ columnSquares a' out' = .done r

theorem forgets_of_agree (h : Agree (nrows a) (ncols a) a a')
    (hends : Completes (nrows a) (ncols a) a)
    (hproduct : ∀ (alpha : α) (v : Array α) (beta : α) (out out' : Array α), (beta == 0) = true →
      v.size = ncols a → out.size = nrows a → out'.size = nrows a →
      apply a' alpha v beta out' = apply a alpha v beta out) :
    Forgets a a' where
  agree := h
  completes := hends
  product alpha v beta out out' hbeta hv hout hout' := by
    obtain ⟨r, hr, -⟩ := hends.apply alpha v beta out hv hout
    exact ⟨r, hr, (hproduct alpha v beta out out' hbeta hv hout hout').trans hr⟩
  transposed alpha v beta out out' hbeta hv hout hout' :=
    (h.applyTranspose alpha v beta out out' hv hout ⟨hout.trans hout'.symm, .inl hbeta⟩).exists_done
      (hends.applyTranspose alpha v beta out hv hout)
  squares out out' hout hout' :=
    (h.columnSquares out out' hout hout').exists_done (hends.columnSquares out hout)

end LinearOperator

open LinearOperator (Forgets)

theorem Dense.Matrix.forgets (J : Dense.Matrix α) : Forgets J J := by
  refine LinearOperator.forgets_of_agree (J.overwrites _ _) J.completes ?_
  intro alpha v beta out out' hbeta hv hout hout'
  have hproduct : J.product alpha v beta out' = J.product alpha v beta out := by
    unfold product
    split
    · exact LinearOperator.scaleAccumulator_eq_of_zero hbeta (hout'.trans hout.symm)
    · apply Array.ext <;>
        simp [hout, hout', LinearOperator.accumulate_eq_of_zero hbeta]
  simp only [LinearOperator.apply, hproduct]
  rw [if_pos ⟨hv, hout'⟩, if_pos ⟨hv, hout⟩]

theorem Sparse.Matrix.forgets (J : Sparse.Matrix α) : Forgets J J := by
  refine LinearOperator.forgets_of_agree (J.overwrites _ _) J.completes ?_
  intro alpha v beta out out' hbeta hv hout hout'
  simp only [LinearOperator.apply]
  rw [LinearOperator.scaleAccumulator_eq_of_zero hbeta (hout'.trans hout.symm)]

/-! ## Damping -/

section Damping

variable {A A' : Type} [LinearOperator A α] [LinearOperator A' α] {a : A} {a' : A'}
  {d d' : Damping α} {n : Nat}

theorem Damping.dampedBlock_eq_of_zero (h : d.Match n d') (alpha : α) {beta : α}
    (hbeta : (beta == 0) = true) {scratch old old' : Array α} (hscratch : scratch.size = n)
    (hold : old.size = n) (hold' : old'.size = n) :
    d'.dampedBlock alpha beta scratch old' = d.dampedBlock alpha beta scratch old := by
  have hsize : (scratch.zip d.diagonal).size = n := by simp [hscratch, h.size_diagonal]
  simp only [dampedBlock, hbeta, if_true, ← h.diagonal]
  rw [Vec.zipUpdate_overwrite _ (hold'.trans hsize.symm),
    Vec.zipUpdate_overwrite _ (hold.trans hsize.symm)]

theorem DampedOperator.forgets (hzero : ((0 : α) == 0) = true) (hbase : Forgets a a')
    (h : d.Match (ncols a) d') :
    Forgets (⟨a, d⟩ : DampedOperator A α) (⟨a', d'⟩ : DampedOperator A' α) := by
  have hself : d.Match (ncols a) d :=
    ⟨rfl, rfl, h.size_diagonal, h.size_normalization, h.scratch, h.scratch⟩
  refine LinearOperator.forgets_of_agree (DampedOperator.agree hzero hbase.agree h _)
    (DampedOperator.completes hbase.completes hself) ?_
  intro alpha v beta out out' hbeta (hv : v.size = ncols a) (hout : out.size = nrows a + ncols a)
    (hout' : out'.size = nrows a + ncols a)
  have hload : (d.load v).size = ncols a := by simp [Damping.load, h.scratch]
  have hdata : (out.extract 0 (nrows a)).size = nrows a := by simp [hout]
  have hdata' : (out'.extract 0 (nrows a)).size = nrows a := by simp [hout']
  obtain ⟨data, hr, hr'⟩ := hbase.product alpha (d.load v) beta _ _ hbeta hload hdata hdata'
  have hblock : (out.extract (nrows a) out.size).size = ncols a := by simp [hout]
  have hblock' : (out'.extract (nrows a) out'.size).size = ncols a := by simp [hout']
  simp only [LinearOperator.apply, applyKeeping, ← hbase.agree.nrows, ← load_eq h hv]
  rw [if_pos (by omega), if_pos (by omega), hr, hr']
  simp only [Damping.dampedBlock_eq_of_zero h alpha hbeta hload hblock hblock']

/-- One dense or sparse matrix, damped equally often, by dampings that differ in what their scratch
vectors hold. -/
inductive Leftover : ∀ {A : Type} [LinearOperator A α], A → A → Prop
  | dense (J : Dense.Matrix α) : Leftover J J
  | sparse (J : Sparse.Matrix α) : Leftover J J
  | damped {A : Type} [LinearOperator A α] {a a' : A} {d d' : Damping α} (base : Leftover a a')
      (h : d.Match (ncols a) d') :
      Leftover (⟨a, d⟩ : DampedOperator A α) (⟨a', d'⟩ : DampedOperator A α)

theorem Leftover.forgets (hzero : ((0 : α) == 0) = true) {A : Type} [LinearOperator A α] {a a' : A}
    (h : Leftover a a') : Forgets a a' := by
  induction h with
  | dense J => exact J.forgets
  | sparse J => exact J.forgets
  | damped _ h ih => exact DampedOperator.forgets hzero ih h

end Damping

end LeastSquares
