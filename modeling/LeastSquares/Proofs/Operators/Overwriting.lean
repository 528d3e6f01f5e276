import LeastSquares.Damping
import LeastSquares.Dense.Matrix
import LeastSquares.Sparse.Matrix

/-!
# Operators that overwrite

A product with a zero `beta` and the column norms are to leave nothing of what their buffer held.
`Agree` compares two operators on buffers of given lengths that may hold different leftovers; an
operator that agrees with itself overwrites.  Dense and sparse matrices do, and damping keeps
agreement whatever the two scratch vectors hold.
-/

namespace LeastSquares

namespace LinearOperator

variable {α : Type} [Scalar α] {A A' : Type} [LinearOperator A α] [LinearOperator A' α]

/-- Two buffers of one length that a product with this `beta` must not tell apart. -/
def Indistinct (beta : α) (out out' : Array α) : Prop :=
  out.size = out'.size ∧ ((beta == 0) = true ∨ out = out')

/-- The operators do the same with vectors of `m` residuals and `n` parameters, and keep the lengths
of their buffers. -/
structure Agree (m n : Nat) (a : A) (a' : A') : Prop where
  nrows : LinearOperator.nrows a = LinearOperator.nrows a'
  ncols : LinearOperator.ncols a = LinearOperator.ncols a'
  apply : ∀ (alpha : α) (v : Array α) (beta : α) (out : Array α), v.size = n → out.size = m →
    Outcome.Alike (fun r r' => r = r' ∧ r.size = m) (fun _ _ => True)
      (LinearOperator.apply a alpha v beta out) (LinearOperator.apply a' alpha v beta out)
  applyTranspose : ∀ (alpha : α) (v : Array α) (beta : α) (out out' : Array α), v.size = m →
    out.size = n → Indistinct beta out out' →
    Outcome.Alike (fun r r' => r = r' ∧ r.size = n) (fun _ _ => True)
      (LinearOperator.applyTranspose a alpha v beta out)
      (LinearOperator.applyTranspose a' alpha v beta out')
  columnSquares : ∀ out out' : Array α, out.size = n → out'.size = n →
    Outcome.Alike (fun r r' => r = r' ∧ r.size = n) (fun _ _ => True)
      (LinearOperator.columnSquares a out) (LinearOperator.columnSquares a' out')

/-- Nothing of what a buffer held shows in a product with a zero `beta` or in the column norms, for
vectors of `m` residuals and `n` parameters. -/
def Overwrites (m n : Nat) (a : A) : Prop := Agree m n a a

theorem accumulate_eq_of_zero {beta : α} (h : (beta == 0) = true) (alpha x old : α) :
    accumulate alpha x beta old = alpha * x := if_pos h

theorem scaleAccumulator_eq_of_zero {beta : α} (h : (beta == 0) = true) {out out' : Array α}
    (hsize : out.size = out'.size) : scaleAccumulator beta out = scaleAccumulator beta out' := by
  rw [scaleAccumulator, scaleAccumulator, if_pos h, if_pos h]
  apply Array.ext <;> simp [hsize]

end LinearOperator

open LinearOperator

namespace Dense.Matrix

variable {α : Type} [Scalar α] (J : Matrix α) (alpha : α) (v : Array α) {beta : α}
  {out out' : Array α}

theorem size_product (beta : α) (out : Array α) :
    (J.product alpha v beta out).size = out.size := by
  unfold product
  split <;> simp

theorem size_transposedProduct (beta : α) (h : out.size = J.ncols) :
    (J.transposedProduct alpha v beta out).size = out.size := by
  have hcolumns : J.columns.size = out.size := h.symm
  unfold transposedProduct
  split <;> simp [hcolumns]

theorem transposedProduct_eq_of_indistinct (h : Indistinct beta out out') :
    J.transposedProduct alpha v beta out = J.transposedProduct alpha v beta out' := by
  obtain ⟨hsize, hzero | rfl⟩ := h
  · unfold transposedProduct
    split
    · exact scaleAccumulator_eq_of_zero hzero hsize
    · apply Array.ext <;> simp [hsize, accumulate_eq_of_zero hzero]
  · rfl

theorem overwrites (m n : Nat) : Overwrites m n J := by
  refine ⟨rfl, rfl, ?_, ?_, ?_⟩
  · intro alpha v beta out _ hout
    simp only [LinearOperator.apply]
    split
    · exact .done ⟨rfl, (J.size_product alpha v beta out).trans hout⟩
    · exact .brokenOff trivial
  · intro alpha v beta out out' _ hout h
    simp only [LinearOperator.applyTranspose, ← h.1]
    split
    case isTrue hfits =>
      exact .done ⟨J.transposedProduct_eq_of_indistinct alpha v h,
        (J.size_transposedProduct alpha v beta hfits.2).trans hout⟩
    case isFalse => exact .brokenOff trivial
  · intro out out' hout hout'
    rw [← hout]
    exact Outcome.fill_alike (fun _ _ _ => rfl) (hout.trans hout'.symm)

theorem columnSquares_done {n : Nat} (hn : J.ncols = n) :
    ∃ squares : Array α, squares.size = n ∧ ∀ out : Array α, out.size = n →
      LinearOperator.columnSquares J out = .done squares := by
  refine ⟨(Array.range n).map fun col => (J.columnSquare? col).getD 0, by simp, fun out hout => ?_⟩
  have hcolumns : J.columns.size = n := hn
  have hfill : Outcome.fill (fun col _ => J.columnSquare? col) out =
      .done (out.mapIdx fun col _ => (J.columnSquare? col).getD 0) := by
    refine Outcome.fill_eq_done fun i hi => ?_
    have hi' : i < J.columns.size := by omega
    unfold columnSquare?
    split <;> simp [hi']
  refine hfill.trans (congrArg Outcome.done ?_)
  apply Array.ext <;> simp [hout]

end Dense.Matrix

namespace Sparse.Matrix

variable {α : Type} [Scalar α] (J : Matrix α)

theorem size_scatter {factor : α} {entries : List (Nat × α)} {out r : Array α}
    (h : scatter factor entries out = .done r) : r.size = out.size := by
  refine Outcome.foldList_invariant (fun out' : Array α => out'.size = out.size) ?_ rfl h
  intro t entry t' ht hstep
  split at hstep
  · cases hstep
    simpa using ht
  · cases hstep

theorem size_addColumn {factor : α} {col : Nat} {out r : Array α}
    (h : J.addColumn factor col out = .done r) : r.size = out.size := by
  unfold addColumn at h
  split at h
  · cases h
    rfl
  · split at h
    · exact size_scatter h
    · cases h

theorem overwrites (m n : Nat) : Overwrites m n J := by
  refine ⟨rfl, rfl, ?_, ?_, ?_⟩
  · intro alpha v beta out _ hout
    refine Outcome.alike_self fun r hr => ?_
    refine Outcome.foldList_invariant (fun out' : Array α => out'.size = m) ?_ (by simpa) hr
    intro t vc t' ht hstep
    exact (J.size_addColumn hstep).trans ht
  · intro alpha v beta out out' _ hout h
    obtain ⟨hsize, hzero | rfl⟩ := h
    · rw [← hout]
      exact Outcome.fill_alike (fun col b b' => by simp only [accumulate_eq_of_zero hzero]) hsize
    · exact Outcome.alike_self fun r hr => (Outcome.size_fill hr).trans hout
  · intro out out' hout hout'
    rw [← hout]
    exact Outcome.fill_alike (fun _ _ _ => rfl) (hout.trans hout'.symm)

end Sparse.Matrix

/-! ## Damping -/

variable {α : Type} [Scalar α]

/-- Dampings of `n` parameters that differ at most in their scratch vectors. -/
structure Damping.Match (n : Nat) (d d' : Damping α) : Prop where
  diagonal : d.diagonal = d'.diagonal
  normalization : d.normalization = d'.normalization
  size_diagonal : d.diagonal.size = n
  size_normalization : d.normalization.size = n
  scratch : d.scratch.size = n
  scratch' : d'.scratch.size = n

namespace DampedOperator

variable {A A' : Type} [LinearOperator A α] [LinearOperator A' α] {a : A} {a' : A'} {n : Nat}
  {d d' : Damping α}

theorem load_eq (h : d.Match n d') {v : Array α} (hv : v.size = n) : d.load v = d'.load v := by
  have hsize : (v.zip d.normalization).size = n := by simp [hv, h.size_normalization]
  rw [Damping.load, Damping.load, ← h.normalization,
    Vec.zipUpdate_overwrite _ (h.scratch.trans hsize.symm),
    Vec.zipUpdate_overwrite _ (h.scratch'.trans hsize.symm)]

/-- Damping keeps agreement, whatever the scratch vectors hold. -/
theorem agree (hzero : ((0 : α) == 0) = true) (hbase : Agree (nrows a) n a a')
    (h : d.Match n d') (m : Nat) :
    Agree m n (⟨a, d⟩ : DampedOperator A α) (⟨a', d'⟩ : DampedOperator A' α) := by
  have hrows : nrows a' = nrows a := hbase.nrows.symm
  have hshape : nrows a + ncols a = nrows a' + ncols a' := by rw [hbase.nrows, hbase.ncols]
  refine ⟨hshape, hbase.ncols, ?_, ?_, ?_⟩
  · intro alpha v beta out hv hout
    simp only [LinearOperator.apply, applyKeeping, hrows, ← load_eq h hv]
    have hload : (d.load v).size = n := by simp [Damping.load, h.scratch]
    split
    case isFalse => exact .brokenOff trivial
    case isTrue hle =>
      have hdata : (out.extract 0 (nrows a)).size = nrows a := by simp [hle]
      have hcall := hbase.apply alpha (d.load v) beta _ hload hdata
      generalize LinearOperator.apply a alpha (d.load v) beta (out.extract 0 (nrows a)) = r
        at hcall ⊢
      generalize LinearOperator.apply a' alpha (d.load v) beta (out.extract 0 (nrows a)) = r'
        at hcall ⊢
      cases hcall with
      | brokenOff => exact .brokenOff trivial
      | done hr =>
        obtain ⟨rfl, hr⟩ := hr
        refine .done ⟨by rw [Damping.dampedBlock, Damping.dampedBlock, h.diagonal], ?_⟩
        simp [Damping.dampedBlock, hr, hout]
        omega
  · intro alpha v beta out out' hv hout hbuffers
    simp only [LinearOperator.applyTranspose, applyTransposeKeeping, hrows]
    split
    case isFalse => exact .brokenOff trivial
    case isTrue hle =>
      have hdata : (v.extract 0 (nrows a)).size = nrows a := by simp [hle]
      -- The base overwrites the scratch vector here, and the forward product loads it first.
      have hcall := hbase.applyTranspose 1 _ 0 d.scratch d'.scratch hdata h.scratch
        ⟨h.scratch.trans h.scratch'.symm, .inl hzero⟩
      generalize LinearOperator.applyTranspose a 1 (v.extract 0 (nrows a)) 0 d.scratch = r
        at hcall ⊢
      generalize LinearOperator.applyTranspose a' 1 (v.extract 0 (nrows a)) 0 d'.scratch = r'
        at hcall ⊢
      cases hcall with
      | brokenOff => exact .brokenOff trivial
      | @done scratch _ hr =>
        obtain ⟨rfl, -⟩ := hr
        have hentry : d'.transposedEntry? alpha beta scratch =
            d.transposedEntry? alpha beta scratch := by
          funext block i old
          rw [Damping.transposedEntry?, Damping.transposedEntry?, h.diagonal, h.normalization]
        simp only [hentry]
        obtain ⟨hsize, hbeta | rfl⟩ := hbuffers
        · rw [← hout]
          exact Outcome.fill_alike
            (fun i b b' => by simp only [Damping.transposedEntry?, hbeta, if_true]) hsize
        · exact Outcome.alike_self fun r hr => (Outcome.size_fill hr).trans hout
  · intro out out' hout hout'
    simp only [LinearOperator.columnSquares, columnSquares]
    have hcall := hbase.columnSquares out out' hout hout'
    generalize LinearOperator.columnSquares a out = r at hcall ⊢
    generalize LinearOperator.columnSquares a' out' = r' at hcall ⊢
    cases hcall with
    | brokenOff => exact .brokenOff trivial
    | done hr =>
      obtain ⟨rfl, hr⟩ := hr
      exact .done ⟨by rw [h.diagonal, h.normalization], by simp [hr]⟩

theorem match_applyKeeping (h : d.Match n d') (alpha : α) (v : Array α) (beta : α)
    (out : Array α) :
    d.Match n ((⟨a, d'⟩ : DampedOperator A α).applyKeeping alpha v beta out).2 := by
  have hload : (d'.load v).size = n := by simp [Damping.load, h.scratch']
  unfold applyKeeping
  dsimp only
  split <;> exact { h with scratch' := hload }

theorem match_applyTransposeKeeping (hzero : ((0 : α) == 0) = true) (hbase : Agree (nrows a) n a a)
    (h : d.Match n d') {alpha : α} {v : Array α} {beta : α} {out r : Array α}
    (hdone : ((⟨a, d'⟩ : DampedOperator A α).applyTransposeKeeping alpha v beta out).1 = .done r) :
    d.Match n ((⟨a, d'⟩ : DampedOperator A α).applyTransposeKeeping alpha v beta out).2 := by
  unfold applyTransposeKeeping at hdone ⊢
  dsimp only at hdone ⊢
  split
  case isFalse => exact h
  case isTrue hle =>
    rw [if_pos hle] at hdone
    have hdata : (v.extract 0 (nrows a)).size = nrows a := by simp [hle]
    have hcall := hbase.applyTranspose 1 _ 0 d'.scratch d'.scratch hdata h.scratch'
      ⟨rfl, .inl hzero⟩
    generalize LinearOperator.applyTranspose a 1 (v.extract 0 (nrows a)) 0 d'.scratch = inner
      at hcall hdone ⊢
    cases hcall with
    | brokenOff => cases hdone
    | done hr => exact { h with scratch' := hr.2 }

end DampedOperator

end LeastSquares
