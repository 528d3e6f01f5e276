import LeastSquares.Proofs.Operators.Overwriting

/-!
# Operators that complete their products

A product breaks off where it reaches outside its data.  On vectors of the lengths of the operator
none does: dense matrices have columns of one length, the layout of a pattern keeps the rows of a
sparse one in range, and damping cuts its vectors where the base expects it.  `Ends` says that an
operation comes to its end in a state with a given property.
-/

namespace LeastSquares

namespace Outcome

variable {σ τ β : Type}

def Ends (o : Outcome σ) (Q : σ → Prop) : Prop := ∃ s, o = done s ∧ Q s

theorem Ends.of_done {o : Outcome σ} {Q : σ → Prop} {s : σ} (h : o.Ends Q) (hs : o = done s) :
    Q s := by
  obtain ⟨t, rfl, ht⟩ := h
  cases hs
  exact ht

theorem Ends.map {o : Outcome σ} {Q : σ → Prop} {R : τ → Prop} {f : σ → τ} (h : o.Ends Q)
    (hf : ∀ s, Q s → R (f s)) : (o.map f).Ends R := by
  obtain ⟨s, rfl, hs⟩ := h
  exact ⟨f s, rfl, hf s hs⟩

theorem foldList_ends {f : σ → β → Outcome σ} {I : σ → Prop} {bs : List β}
    (hstep : ∀ s, I s → ∀ b ∈ bs, (f s b).Ends I) {s : σ} (hs : I s) :
    (foldList f s bs).Ends I := by
  induction bs generalizing s with
  | nil => exact ⟨s, rfl, hs⟩
  | cons b bs ih =>
    obtain ⟨t, ht, hI⟩ := hstep s hs b List.mem_cons_self
    rw [foldList, ht]
    exact ih (fun s hs c hc => hstep s hs c (List.mem_cons_of_mem _ hc)) hI

theorem fill_ends {n : Nat} {value : Nat → β → Option β} {out : Array β} (hout : out.size = n)
    (h : ∀ i < n, ∀ old, (value i old).isSome = true) :
    (fill value out).Ends fun r => r.size = n := by
  refine ⟨_, fill_eq_done (g := fun i old => (value i old).getD old) fun i hi => ?_, by simpa⟩
  obtain ⟨b, hb⟩ := Option.isSome_iff_exists.1 (h i (hout ▸ hi) out[i])
  rw [hb, Option.getD_some]

end Outcome

namespace LinearOperator

variable {α : Type} [Scalar α] {A : Type} [LinearOperator A α]

/-- An operator with `m` rows and `n` columns whose products end on vectors of these lengths, and
keep the lengths of their buffers. -/
structure Completes (m n : Nat) (a : A) : Prop where
  nrows : LinearOperator.nrows a = m
  ncols : LinearOperator.ncols a = n
  apply : ∀ (alpha : α) (v : Array α) (beta : α) (out : Array α), v.size = n → out.size = m →
    (LinearOperator.apply a alpha v beta out).Ends fun r => r.size = m
  applyTranspose : ∀ (alpha : α) (v : Array α) (beta : α) (out : Array α), v.size = m →
    out.size = n → (LinearOperator.applyTranspose a alpha v beta out).Ends fun r => r.size = n
  columnSquares : ∀ out : Array α, out.size = n →
    (LinearOperator.columnSquares a out).Ends fun r => r.size = n

end LinearOperator

open LinearOperator (Completes)

namespace Dense.Matrix

variable {α : Type} [Scalar α] (J : Matrix α)

theorem completes : Completes J.nrows J.ncols J where
  nrows := rfl
  ncols := rfl
  apply alpha v beta out hv hout :=
    ⟨_, if_pos ⟨hv, hout⟩, (J.size_product alpha v beta out).trans hout⟩
  applyTranspose alpha v beta out hv hout :=
    ⟨_, if_pos ⟨hv, hout⟩, (J.size_transposedProduct alpha v beta hout).trans hout⟩
  columnSquares out hout := by
    refine Outcome.fill_ends hout fun col (hcol : col < J.columns.size) old => ?_
    unfold columnSquare?
    split
    · rfl
    · rw [Array.getElem?_eq_getElem hcol]
      rfl

end Dense.Matrix

namespace Sparse.Matrix

variable {α : Type} [Scalar α] (J : Matrix α)

omit [Scalar α] in
theorem row_lt {col : Nat} (hcol : col < J.pattern.ncols) {entry : Nat × α}
    (h : entry ∈ J.column col) : entry.1 < J.pattern.nrows :=
  J.pattern.compressed.rows_lt col hcol entry.1 (List.of_mem_zip h).1

theorem scatter_ends {m : Nat} {factor : α} {entries : List (Nat × α)} {out : Array α}
    (h : ∀ entry ∈ entries, entry.1 < m) (hout : out.size = m) :
    (scatter factor entries out).Ends fun r => r.size = m := by
  refine Outcome.foldList_ends (fun s hs entry hentry => ?_) hout
  rw [if_pos (hs ▸ h entry hentry)]
  exact ⟨_, rfl, Array.size_modify.trans hs⟩

theorem addColumn_ends {factor : α} {col : Nat} {out : Array α} (hcol : col < J.pattern.ncols)
    (hout : out.size = J.pattern.nrows) :
    (J.addColumn factor col out).Ends fun r => r.size = J.pattern.nrows := by
  rw [addColumn, if_pos hcol]
  split
  · exact ⟨out, rfl, hout⟩
  · exact scatter_ends (fun _ => J.row_lt hcol) hout

theorem completes : Completes J.pattern.nrows J.pattern.ncols J where
  nrows := rfl
  ncols := rfl
  apply alpha v beta out hv hout := by
    refine Outcome.foldList_ends (fun s hs vc hvc => J.addColumn_ends ?_ hs)
      ((LinearOperator.size_scaleAccumulator beta out).trans hout)
    rw [Array.toList_zipIdx] at hvc
    have hlt := List.snd_lt_of_mem_zipIdx hvc
    rwa [Array.length_toList, hv, Nat.add_zero] at hlt
  applyTranspose alpha v beta out hv hout := by
    refine Outcome.fill_ends hout fun col hcol old => ?_
    have hrows : ((J.column col).all fun entry => entry.1 < v.size) = true := by
      simp only [List.all_eq_true, decide_eq_true_eq]
      exact fun entry hentry => hv ▸ J.row_lt hcol hentry
    rw [columnDot?, if_pos ⟨hcol, hrows⟩]
    rfl
  columnSquares out hout := by
    refine Outcome.fill_ends hout fun col hcol old => ?_
    rw [columnSquare?, if_pos hcol]
    rfl

end Sparse.Matrix

/-! ## Damping -/

variable {α : Type} [Scalar α] {A : Type} [LinearOperator A α] {a : A} {m n : Nat} {d : Damping α}

theorem Damping.transposedEntry?_isSome (h : d.Match n d) (alpha beta : α) {scratch block : Array α}
    (hscratch : scratch.size = n) (hblock : block.size = n) {i : Nat} (hi : i < n) (old : α) :
    (d.transposedEntry? alpha beta scratch block i old).isSome = true := by
  unfold transposedEntry?
  rw [Array.getElem?_eq_getElem (hscratch ▸ hi), Array.getElem?_eq_getElem (hblock ▸ hi),
    Array.getElem?_eq_getElem (h.size_diagonal ▸ hi),
    Array.getElem?_eq_getElem (h.size_normalization ▸ hi)]
  rfl

/-- Damping adds a row for each parameter, and completes the products that its base completes. -/
theorem DampedOperator.completes (hbase : Completes m n a) (hd : d.Match n d) :
    Completes (m + n) n (⟨a, d⟩ : DampedOperator A α) where
  nrows := congr (congrArg (· + ·) hbase.nrows) hbase.ncols
  ncols := hbase.ncols
  apply alpha v beta out hv hout := by
    simp only [LinearOperator.apply, applyKeeping, hbase.nrows]
    have hload : (d.load v).size = n := (Vec.size_zipUpdate _ _ _).trans hd.scratch
    have hdata : (out.extract 0 m).size = m := by simp; omega
    obtain ⟨data, happly, hsize⟩ := hbase.apply alpha (d.load v) beta _ hload hdata
    rw [if_pos (by omega), happly]
    refine ⟨_, rfl, ?_⟩
    simp [Damping.dampedBlock, hsize, hout]
  applyTranspose alpha v beta out hv hout := by
    simp only [LinearOperator.applyTranspose, applyTransposeKeeping, hbase.nrows]
    have hdata : (v.extract 0 m).size = m := by simp; omega
    have hblock : (v.extract m v.size).size = n := by simp; omega
    obtain ⟨scratch, happly, hscratch⟩ := hbase.applyTranspose 1 _ 0 d.scratch hdata hd.scratch
    rw [if_pos (by omega), happly]
    exact Outcome.fill_ends hout fun i hi old =>
      Damping.transposedEntry?_isSome hd alpha beta hscratch hblock hi old
  columnSquares out hout := by
    obtain ⟨squares, hsquares, hsize⟩ := hbase.columnSquares out hout
    simp only [LinearOperator.columnSquares, columnSquares, hsquares]
    exact ⟨_, rfl, (Vec.size_zipUpdate _ _ _).trans hsize⟩

end LeastSquares
