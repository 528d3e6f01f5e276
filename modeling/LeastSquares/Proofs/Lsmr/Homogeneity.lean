import LeastSquares.Proofs.Lsmr.Units

/-!
# LSMR: the units of the data

The right-hand side and the start counted in another unit, or with the other sign, leave every
rotation of a solve as it was.  The vectors of the basis take the sign of the factor, the residuals
its size, the solution all of it.  Every rule compares quantities of one unit, and the seeds of the
condition number meet pivots that do not scale, so the two solves end alike.
-/

namespace LeastSquares.Lsmr

open Exact
open LinearMap (adjoint)

noncomputable def Rescaling.ofData (c : ℝ) (hc : c ≠ 0) : Rescaling where
  operator := 1
  data := |c|
  sign := c / |c|
  operator_pos := Real.zero_lt_one
  data_pos := abs_pos.2 hc
  sign_sq := by rw [div_pow, sq_abs, div_self (pow_ne_zero 2 hc)]

theorem Rescaling.ofData_factor {c : ℝ} (hc : c ≠ 0) :
    (Rescaling.ofData c hc).sign * (Rescaling.ofData c hc).data = c :=
  div_mul_cancel₀ c (abs_pos.2 hc).ne'

theorem Rescaling.solution_ofData {c : ℝ} (hc : c ≠ 0) : (Rescaling.ofData c hc).solution = c := by
  rw [solution, ofData_factor hc]
  exact div_one c

variable {A : Type} [LinearOperator A ℝ] {a : A} {m n : ℕ}
  {M : EuclideanSpace ℝ (Fin n) →ₗ[ℝ] EuclideanSpace ℝ (Fin m)} {w w' : Workspace ℝ}
  {rhs x : Array ℝ} {c : ℝ}

theorem relates_ofData (hc : c ≠ 0) (ha : Realizes a M) (hw : w.Sized m n) (hw' : w'.Sized m n)
    (hrhs : rhs.size = m) (hx : x.size = n) (p : Params ℝ) :
    (Rescaling.ofData c hc).Relates M w w' a a rhs (Vec.scale c rhs) x (Vec.scale c x) p p where
  realizes := ha
  realizes' := (one_smul ℝ M).symm ▸ ha
  sized := hw
  sized' := hw'
  size_rhs := hrhs
  size_rhs' := by simpa [Vec.scale] using hrhs
  size_x := hx
  size_x' := by simpa [Vec.scale] using hx
  rhs := by rw [vec_scale c hrhs, Rescaling.ofData_factor hc]
  x := by rw [vec_scale c hx, Rescaling.solution_ofData hc]
  params := by simp [Rescaling.ofData]

structure Info.Homogeneous (c : ℝ) (info info' : Info ℝ) : Prop where
  iterations : info'.iterations = info.iterations
  stop : info'.stop = info.stop
  normR : info'.normR = |c| * info.normR
  normAr : info'.normAr = |c| * info.normAr
  normA : info'.normA = info.normA
  condA : info'.condA = info.condA
  normX : info'.normX = |c| * info.normX

theorem Info.Scaled.homogeneous {info info' : Info ℝ} (hc : c ≠ 0)
    (h : info.Scaled (.ofData c hc) info') (hcond : info'.condA = info.condA) :
    info.Homogeneous c info' where
  iterations := h.iterations
  stop := h.stop
  normR := h.normR
  normAr := h.normAr.trans (congrArg (· * info.normAr) (one_mul |c|))
  normA := h.normA.trans (one_mul _)
  condA := hcond
  normX := h.normX.trans (congrArg (· * info.normX) (div_one |c|))

/-- A solve over exact scalars is homogeneous in its data: with a factor on the right-hand side and
the start it makes as many iterations and stops for the same reason, at that multiple of the
solution, whatever the two workspaces hold. -/
theorem solve_homogeneous (hc : c ≠ 0) (ha : Realizes a M) (hw : w.Sized m n) (hw' : w'.Sized m n)
    (hrhs : rhs.size = m) (hx : x.size = n) (p : Params ℝ) :
    ∃ sol sol' info info', solve w a rhs x p = .ok sol ∧
      solve w' a (Vec.scale c rhs) (Vec.scale c x) p = .ok sol' ∧ sol.info = some info ∧
      sol'.info = some info' ∧ info.Homogeneous c info' ∧ sol'.x = Vec.scale c sol.x := by
  have hr := relates_ofData hc ha hw hw' hrhs hx p
  obtain ⟨sol, t, rule, hsolve, exit, hinfo, hsol⟩ := solve_ends ha hw hrhs hx p
  obtain ⟨sol', t', rule', hsolve', exit', hinfo', hsol'⟩ :=
    solve_ends ha hw' hr.size_rhs' hr.size_x' p
  refine ⟨sol, sol', _, _, hsolve, hsolve', hinfo, hinfo', ?_⟩
  have hsame := hr.sameCondition_of_operator rfl
  obtain ⟨hscaled, hvec, hcond⟩ | ⟨hne, -⟩ := exit.scaled hr exit'
  · have hsize := (exit.faithful ha hw hrhs hx).size_x
    have hsize' := (exit'.faithful ha hw' hr.size_rhs' hr.size_x').size_x
    refine ⟨hscaled.homogeneous hc (hcond hsame), ?_⟩
    rw [hsol, hsol']
    refine vec_injective hsize' (by simpa [Vec.scale] using hsize) ?_
    rw [hvec, Rescaling.solution_ofData hc, vec_scale c hsize]
  · exact absurd hsame hne

/-- A warm start that is turned around and doubled. -/
theorem solve_homogeneous_warm :
    let a : Dense.Matrix ℝ := .ofFn 2 2 gradedEntry
    Realizes a (linear 2 2 a) ∧ (-2 : ℝ) ≠ 0 ∧
      ∀ p : Params ℝ, ∃ sol sol' info info',
        solve (Workspace.new 2 2) a #[1, 1] #[3, 0] p = .ok sol ∧
        solve (Workspace.new 2 2) a #[-2, -2] #[-6, 0] p = .ok sol' ∧ sol.info = some info ∧
        sol'.info = some info' ∧ info.Homogeneous (-2) info' ∧ sol'.x = Vec.scale (-2) sol.x := by
  intro a
  have ha : Realizes a (linear 2 2 a) := realizes_ofFn 2 2 gradedEntry
  have hc : (-2 : ℝ) ≠ 0 := by norm_num
  refine ⟨ha, hc, fun p => ?_⟩
  have hsized := Workspace.sized_new 2 2
  have hsize : (#[1, 1] : Array ℝ).size = 2 := rfl
  have hsize' : (#[3, 0] : Array ℝ).size = 2 := rfl
  have h := solve_homogeneous hc ha hsized hsized hsize hsize' p
  have hrhs : Vec.scale (-2 : ℝ) #[1, 1] = #[-2, -2] := by simp [Vec.scale]
  have hx : Vec.scale (-2 : ℝ) #[3, 0] = #[-6, 0] := by norm_num [Vec.scale]
  rwa [hrhs, hx] at h

end LeastSquares.Lsmr
