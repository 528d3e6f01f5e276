import Mathlib
import LeastSquares.Proofs.Lsmr.Residuals

/-!
# LSMR: two solves that differ by their units

Counting the operator, or the right-hand side and the start, in other units multiplies every
quantity of a solve by a power of the factor.  The exceptions are the seeds of the first iteration.
Nothing rests on those of the pivots, since the first rotation has no predecessor; those of the
condition number stay in the estimate.  Loop heads of the same iteration are related in this way,
for as long as both solves go on.
-/

namespace LeastSquares.Lsmr

open Exact
open LinearMap (adjoint)

/-- The factors of the operator and of the data, the latter as a size and a sign. -/
structure Rescaling where
  operator : ℝ
  data : ℝ
  sign : ℝ
  operator_pos : 0 < operator
  data_pos : 0 < data
  sign_sq : sign ^ 2 = 1

noncomputable def Rescaling.solution (r : Rescaling) : ℝ := r.sign * r.data / r.operator

theorem Rescaling.abs_sign (r : Rescaling) : |r.sign| = 1 := by
  rw [← sq_eq_sq₀ (abs_nonneg _) zero_le_one, sq_abs, r.sign_sq, one_pow]

theorem Rescaling.abs_solution (r : Rescaling) : |r.solution| = r.data / r.operator := by
  rw [solution, abs_div, abs_mul, r.abs_sign, one_mul, abs_of_pos r.data_pos,
    abs_of_pos r.operator_pos]

theorem Rescaling.operator_mul_solution (r : Rescaling) :
    r.operator * r.solution = r.sign * r.data :=
  mul_div_cancel₀ _ r.operator_pos.ne'

theorem Rescaling.gradient_factor_ne_zero (r : Rescaling) :
    r.operator * (r.sign * r.data) ≠ 0 := by
  have hsign : r.sign ≠ 0 := fun hzero => by simpa [hzero] using r.sign_sq
  exact mul_ne_zero r.operator_pos.ne' (mul_ne_zero hsign r.data_pos.ne')

def Rescaling.ofOperator (c : ℝ) (hc : 0 < c) : Rescaling := ⟨c, 1, 1, hc, one_pos, one_pow 2⟩

theorem sqrt_sq_mul {c : ℝ} (hc : 0 < c) (x : ℝ) :
    Real.sqrt (c ^ 2 * x) = c * Real.sqrt x := by
  rw [Real.sqrt_mul (sq_nonneg c), Real.sqrt_sq hc.le]

theorem hypot_mul_left {c : ℝ} (hc : 0 < c) (x y : ℝ) :
    Scalar.hypot (c * x) (c * y) = c * Scalar.hypot x y := by
  have hsq : (c * x) ^ 2 + (c * y) ^ 2 = c ^ 2 * (x ^ 2 + y ^ 2) := by ring
  rw [hypot_eq, hypot_eq, hsq, sqrt_sq_mul hc]

variable {A A' : Type} [LinearOperator A ℝ] [LinearOperator A' ℝ] {a : A} {a' : A'} {m n : ℕ}
  {M : EuclideanSpace ℝ (Fin n) →ₗ[ℝ] EuclideanSpace ℝ (Fin m)} {r : Rescaling}

/-! ## The basis -/

theorem Basis.unit_scaled {c e : ℝ} {k : ℕ} {w w' : Array ℝ} (hc : 0 < c) (he : |e| = 1)
    (hw : w.size = k) (hw' : w'.size = k) (h : vec k w' = (c * e) • vec k w) :
    (unit w').1 = c * (unit w).1 ∧ vec k (unit w').2 = e • vec k (unit w).2 := by
  have hnorm : Vec.norm w' = c * Vec.norm w := by
    rw [norm_eq hw, norm_eq hw', h, norm_smul, Real.norm_eq_abs, abs_mul, he, mul_one,
      abs_of_pos hc]
  refine ⟨hnorm, ?_⟩
  have hnonneg : 0 ≤ Vec.norm w := norm_eq hw ▸ norm_nonneg _
  rcases hnonneg.eq_or_lt with hzero | hpos
  · have hzero' : Vec.norm w' = 0 := by rw [hnorm, ← hzero, mul_zero]
    rw [unit, unit, normalize_eq_zero hw hzero.symm, normalize_eq_zero hw' hzero', smul_zero]
  · have hpos' : 0 < Vec.norm w' := hnorm ▸ mul_pos hc hpos
    rw [unit, unit, Vec.normalize, Vec.normalize, if_pos hpos, if_pos hpos', vec_scale _ hw,
      vec_scale _ hw', h, hnorm, smul_smul, smul_smul]
    congr 1
    field_simp

structure Basis.Scaled (r : Rescaling) (m n : ℕ) (g g' : Basis ℝ) : Prop where
  sized : g.Sized m n
  sized' : g'.Sized m n
  u : vec m g'.u = r.sign • vec m g.u
  v : vec n g'.v = r.sign • vec n g.v
  alpha : g'.alpha = r.operator * g.alpha

theorem adjoint_smul (c : ℝ) (y : EuclideanSpace ℝ (Fin m)) :
    adjoint (c • M) y = c • adjoint M y := by
  simp

theorem unit_transposed_scaled (ha : Realizes a M) (ha' : Realizes a' (r.operator • M))
    {u u' out out' : Array ℝ} {beta beta' : ℝ} (hu : u.size = m) (hu' : u'.size = m)
    (hout : out.size = n) (hout' : out'.size = n) (h : vec m u' = r.sign • vec m u)
    (hadd : beta' • vec n out' = (r.operator * r.sign) • beta • vec n out) :
    ∃ z z', LinearOperator.applyTranspose a 1 u beta out = .done z ∧
      LinearOperator.applyTranspose a' 1 u' beta' out' = .done z' ∧
      (Basis.unit z).2.size = n ∧ (Basis.unit z').2.size = n ∧
      (Basis.unit z').1 = r.operator * (Basis.unit z).1 ∧
      vec n (Basis.unit z').2 = r.sign • vec n (Basis.unit z).2 := by
  obtain ⟨z, hz, hsize, hvec⟩ := ha.applyTranspose 1 u beta out hu hout
  obtain ⟨z', hz', hsize', hvec'⟩ := ha'.applyTranspose 1 u' beta' out' hu' hout'
  have himage : vec n z' = (r.operator * r.sign) • vec n z := by
    rw [hvec, hvec', h, hadd, adjoint_smul, map_smul]
    module
  obtain ⟨hnorm, hunit⟩ := Basis.unit_scaled r.operator_pos r.abs_sign hsize hsize' himage
  exact ⟨z, z', hz, hz', (Basis.size_unit z).trans hsize, (Basis.size_unit z').trans hsize', hnorm,
    hunit⟩

theorem Basis.Scaled.extend {g g' : Basis ℝ} (ha : Realizes a M)
    (ha' : Realizes a' (r.operator • M)) (h : g.Scaled r m n g') :
    ∃ e e', g.extend a = .done e ∧ g'.extend a' = .done e' ∧ e.Scaled r m n e' ∧
      e'.beta = r.operator * e.beta := by
  obtain ⟨w, hw, hsize, hvec⟩ := ha.apply 1 g.v (-g.alpha) g.u h.sized.v h.sized.u
  obtain ⟨w', hw', hsize', hvec'⟩ :=
    ha'.apply 1 g'.v (-g'.alpha) g'.u h.sized'.v h.sized'.u
  have himage : vec m w' = (r.operator * r.sign) • vec m w := by
    rw [hvec, hvec', h.u, h.v, h.alpha, LinearMap.smul_apply, map_smul]
    module
  obtain ⟨hbeta, hu⟩ := unit_scaled r.operator_pos r.abs_sign hsize hsize' himage
  have hpos : 0 < (unit w').1 ↔ 0 < (unit w).1 := by
    rw [hbeta, mul_pos_iff_of_pos_left r.operator_pos]
  have hsize_u : (unit w).2.size = m := (size_unit w).trans hsize
  have hsize_u' : (unit w').2.size = m := (size_unit w').trans hsize'
  by_cases hstops : 0 < (unit w).1
  · have hadd : -(unit w').1 • vec n g'.v =
        (r.operator * r.sign) • -(unit w).1 • vec n g.v := by
      rw [h.v, hbeta]
      module
    obtain ⟨z, z', hz, hz', hsize_v, hsize_v', halpha, hv⟩ :=
      unit_transposed_scaled ha ha' hsize_u hsize_u' h.sized.v h.sized'.v hu hadd
    refine ⟨⟨(unit w).2, (unit z).2, (unit z).1, (unit w).1⟩,
      ⟨(unit w').2, (unit z').2, (unit z').1, (unit w').1⟩, ?_, ?_,
      ⟨⟨hsize_u, hsize_v⟩, ⟨hsize_u', hsize_v'⟩, hu, hv, halpha⟩, hbeta⟩
    · simp [Basis.extend, hw, hstops, hz]
    · simp [Basis.extend, hw', hpos.2 hstops, hz']
  · refine ⟨⟨(unit w).2, g.v, g.alpha, (unit w).1⟩, ⟨(unit w').2, g'.v, g'.alpha, (unit w').1⟩,
      ?_, ?_, ⟨⟨hsize_u, h.sized.v⟩, ⟨hsize_u', h.sized'.v⟩, hu, h.v, h.alpha⟩, hbeta⟩
    · simp [Basis.extend, hw, hstops]
    · simp [Basis.extend, hw', mt hpos.1 hstops]

theorem firstBasis_scaled {w w' : Workspace ℝ} {rhs rhs' x x' : Array ℝ} (ha : Realizes a M)
    (ha' : Realizes a' (r.operator • M)) (hw : w.Sized m n) (hw' : w'.Sized m n)
    (hrhs : rhs.size = m) (hrhs' : rhs'.size = m) (hx : x.size = n) (hx' : x'.size = n)
    (hdata : vec m rhs' = (r.sign * r.data) • vec m rhs)
    (hstart : vec n x' = r.solution • vec n x) :
    ∃ g g', firstBasis w a rhs x = .done g ∧ firstBasis w' a' rhs' x' = .done g' ∧
      g.Scaled r m n g' ∧ g'.beta = r.data * g.beta := by
  obtain ⟨y, hy, hsize, hvec⟩ := ha.apply (-1) x 1 rhs hx hrhs
  obtain ⟨y', hy', hsize', hvec'⟩ := ha'.apply (-1) x' 1 rhs' hx' hrhs'
  have hresidual : vec m y' = (r.data * r.sign) • vec m y := by
    rw [hvec, hvec', hdata, hstart, LinearMap.smul_apply, map_smul, smul_smul r.operator,
      r.operator_mul_solution]
    module
  obtain ⟨hbeta, hu⟩ := Basis.unit_scaled r.data_pos r.abs_sign hsize hsize' hresidual
  have hsize_u : (Basis.unit y).2.size = m := (Basis.size_unit y).trans hsize
  have hsize_u' : (Basis.unit y').2.size = m := (Basis.size_unit y').trans hsize'
  have hadd : (0 : ℝ) • vec n w'.v = (r.operator * r.sign) • (0 : ℝ) • vec n w.v := by simp
  obtain ⟨z, z', hz, hz', hsize_v, hsize_v', halpha, hv⟩ :=
    unit_transposed_scaled ha ha' hsize_u hsize_u' hw.v hw'.v hu hadd
  refine ⟨⟨(Basis.unit y).2, (Basis.unit z).2, (Basis.unit z).1, (Basis.unit y).1⟩,
    ⟨(Basis.unit y').2, (Basis.unit z').2, (Basis.unit z').1, (Basis.unit y').1⟩, ?_, ?_,
    ⟨⟨hsize_u, hsize_v⟩, ⟨hsize_u', hsize_v'⟩, hu, hv, halpha⟩, hbeta⟩
  · simp [firstBasis, hy, hz]
  · simp [firstBasis, hy', hz']

/-! ## The rotations -/

def Turn.scaled (r : Rescaling) (t : Turn ℝ) : Turn ℝ :=
  { t with
    rho := r.operator * t.rho
    thetanew := r.operator * t.thetanew
    alphabar := r.operator * t.alphabar
    thetabar := r.operator * t.thetabar
    rhotemp := r.operator * t.rhotemp
    rhobar := r.operator * t.rhobar
    zeta := r.operator * r.data * t.zeta
    zetabar := r.operator * r.data * t.zetabar }

/-- The factors that the next rotations read; the last two pivots are not among them. -/
structure Factors.Scaled (r : Rescaling) (f f' : Factors ℝ) : Prop where
  alphabar : f'.alphabar = r.operator * f.alphabar
  cbar : f'.cbar = f.cbar
  sbar : f'.sbar = f.sbar
  zeta : f'.zeta = r.operator * r.data * f.zeta
  zetabar : f'.zetabar = r.operator * r.data * f.zetabar

theorem turn?_scaled {g g' : Basis ℝ} {f f' : Factors ℝ} (damp : ℝ) (hg : g.Scaled r m n g')
    (hbeta : g'.beta = r.operator * g.beta) (hf : f.Scaled r f') :
    turn? (r.operator * damp) g' f' = (turn? damp g f).map (Turn.scaled r) := by
  have hmu := r.operator_pos
  have hsine : ∀ x y z : ℝ, x / y * (r.operator * z) = r.operator * (x / y * z) :=
    fun x y z => mul_left_comm _ _ _
  have hcosine : ∀ x y : ℝ, x * (r.operator * y) = r.operator * (x * y) :=
    fun x y => mul_left_comm _ _ _
  have hratio : ∀ x y : ℝ, r.operator * x / (r.operator * y) = x / y :=
    fun x y => mul_div_mul_left _ _ hmu.ne'
  have hzero : ∀ x : ℝ, (r.operator * x == 0) = (x == 0) :=
    fun x => decide_eq_decide.2 (mul_eq_zero_iff_left hmu.ne')
  unfold turn?
  simp only [hf.alphabar, hf.cbar, hf.sbar, hf.zetabar, hbeta, hg.alpha, hypot_mul_left hmu, hratio,
    hzero, hcosine, mul_pos_iff_of_pos_left hmu]
  split
  · rfl
  · split
    · rfl
    · simp only [Option.map_some, Turn.scaled, Option.some.injEq, Turn.mk.injEq, true_and]
      refine ⟨?_, ?_⟩ <;> ring

theorem Turn.scaled_factors (t : Turn ℝ) : t.factors.Scaled r (t.scaled r).factors :=
  ⟨rfl, rfl, rfl, rfl, rfl⟩

/-! ## The estimates -/

structure ResidualEstimate.Scaled (r : Rescaling) (e e' : ResidualEstimate ℝ) : Prop where
  betadd : e'.betadd = r.data * e.betadd
  betad : e'.betad = r.data * e.betad
  tautildeold : e'.tautildeold = r.data * e.tautildeold
  thetatilde : e'.thetatilde = r.operator * e.thetatilde
  removed : e'.removed = r.data ^ 2 * e.removed

theorem ResidualEstimate.Scaled.quotients {e e' : ResidualEstimate ℝ} {thetabar zetaold : ℝ}
    (he : e.Scaled r e') (hpos : 0 < e.rhodold) (hpos' : 0 < e'.rhodold)
    (hpivot : e'.rhodold = r.operator * e.rhodold ∨
      thetabar = 0 ∧ zetaold = 0 ∧ e.thetatilde = 0) :
    e'.rhodold / Scalar.hypot e'.rhodold (r.operator * thetabar) =
        e.rhodold / Scalar.hypot e.rhodold thetabar ∧
      r.operator * thetabar / Scalar.hypot e'.rhodold (r.operator * thetabar) =
        thetabar / Scalar.hypot e.rhodold thetabar ∧
      (r.operator * r.data * zetaold - e'.thetatilde * e'.tautildeold) /
          Scalar.hypot e'.rhodold (r.operator * thetabar) =
        r.data * ((zetaold - e.thetatilde * e.tautildeold) /
          Scalar.hypot e.rhodold thetabar) := by
  have hmu := r.operator_pos.ne'
  rw [he.thetatilde, he.tautildeold]
  rcases hpivot with hpivot | ⟨rfl, rfl, hzero⟩
  · rw [hpivot, hypot_mul_left r.operator_pos, mul_div_mul_left _ _ hmu, mul_div_mul_left _ _ hmu]
    refine ⟨rfl, rfl, ?_⟩
    field_simp
  · simp [hzero, Real.sqrt_sq, hpos.le, hpos'.le, hpos.ne', hpos'.ne']

theorem ResidualEstimate.Scaled.advance {e e' : ResidualEstimate ℝ} {t : Turn ℝ} {zetaold : ℝ}
    (he : e.Scaled r e') (hpos : 0 < e.rhodold) (hpos' : 0 < e'.rhodold)
    (hpivot : e'.rhodold = r.operator * e.rhodold ∨
      t.thetabar = 0 ∧ zetaold = 0 ∧ e.thetatilde = 0) :
    (e.advance zetaold t).1.Scaled r
        (e'.advance (r.operator * r.data * zetaold) (t.scaled r)).1 ∧
      (e'.advance (r.operator * r.data * zetaold) (t.scaled r)).1.rhodold =
        r.operator * (e.advance zetaold t).1.rhodold ∧
      (e'.advance (r.operator * r.data * zetaold) (t.scaled r)).2 =
        r.data * (e.advance zetaold t).2 := by
  obtain ⟨hcosine, hsine, htau⟩ := he.quotients hpos hpos' hpivot
  simp only [ResidualEstimate.advance, Turn.scaled, hcosine, hsine, htau, he.betadd, he.betad,
    he.removed]
  generalize e.rhodold / Scalar.hypot e.rhodold t.thetabar = cosine
  generalize t.thetabar / Scalar.hypot e.rhodold t.thetabar = sine
  generalize (zetaold - e.thetatilde * e.tautildeold) / Scalar.hypot e.rhodold t.thetabar = tau
  have htaud : (r.operator * r.data * t.zeta - sine * (r.operator * t.rhobar) * (r.data * tau)) /
      (cosine * (r.operator * t.rhobar)) =
        r.data * ((t.zeta - sine * t.rhobar * tau) / (cosine * t.rhobar)) := by
    rw [← mul_div_assoc, ← mul_div_mul_left _ (cosine * t.rhobar) r.operator_pos.ne']
    congr 1 <;> ring
  rw [htaud]
  generalize (t.zeta - sine * t.rhobar * tau) / (cosine * t.rhobar) = taud
  refine ⟨⟨?_, ?_, rfl, ?_, ?_⟩, ?_, ?_⟩
  iterate 5 ring
  rw [sqrt_eq, sqrt_eq, ← sqrt_sq_mul r.data_pos]
  congr 1
  ring

noncomputable def State.largest (s : State ℝ) : ℝ := max s.operator.maxrbar s.factors.rhobar

noncomputable def State.smallest (s : State ℝ) : ℝ :=
  if 0 < s.iteration then min s.operator.minrbar s.factors.rhobar else s.operator.minrbar

section Turned

variable (s : State ℝ) (g : Basis ℝ) (t : Turn ℝ)

theorem State.largest_turned : (s.turned g t).largest = max s.largest t.rhobar := by
  simp [largest, turned, State.advance, OperatorEstimate.advance, Turn.factors]

theorem State.smallest_turned : (s.turned g t).smallest = min s.smallest t.rhobar := by
  simp [smallest, turned, State.advance, OperatorEstimate.advance, Turn.factors]

theorem State.condA_turned :
    (s.turned g t).condA = max s.largest t.rhotemp / min s.smallest t.rhotemp := by
  simp [largest, smallest, turned, State.advance, OperatorEstimate.advance]

end Turned

/-! ## The loop heads -/

/-- Two states of the same iteration in solves that differ by their units.  Each of the two extreme
values of `rhobar` scales once it takes in the seed of the other solve. -/
structure State.Scaled (r : Rescaling) (m n : ℕ) (s s' : State ℝ) : Prop where
  iteration : s'.iteration = s.iteration
  basis : s.basis.Scaled r m n s'.basis
  factors : s.factors.Scaled r s'.factors
  residual : s.residual.Scaled r s'.residual
  pivots : s'.factors.rho = r.operator * s.factors.rho ∧
      s'.factors.rhobar = r.operator * s.factors.rhobar ∧
      s'.residual.rhodold = r.operator * s.residual.rhodold ∨
    s.factors.sbar = 0 ∧ s.factors.zeta = 0 ∧ s.residual.thetatilde = 0
  squares : s'.operator.squares = r.operator ^ 2 * s.operator.squares
  largest : max r.operator s'.largest = max 1 (r.operator * s.largest)
  smallest : min (r.operator * 1e100) s'.smallest = min 1e100 (r.operator * s.smallest)
  h : vec n s'.h = r.sign • vec n s.h
  hbar : vec n s'.hbar = r.sign • vec n s.hbar
  x : vec n s'.x = r.solution • vec n s.x
  normB : s'.normB = r.data * s.normB
  normR : s'.normR = r.data * s.normR
  normAr : s'.normAr = r.operator * r.data * s.normAr
  normA : s'.normA = r.operator * s.normA
  normX : s'.normX = r.data / r.operator * s.normX

theorem norm_scaled {x x' : Array ℝ} (hx : x.size = n) (hx' : x'.size = n)
    (h : vec n x' = r.solution • vec n x) :
    Vec.norm x' = r.data / r.operator * Vec.norm x := by
  rw [norm_eq hx, norm_eq hx', h, norm_smul, Real.norm_eq_abs, r.abs_solution]

theorem State.scaled_initial {g g' : Basis ℝ} {hbar hbar' x x' : Array ℝ}
    (hg : g.Scaled r m n g') (hbeta : g'.beta = r.data * g.beta) (hhbar : hbar.size = n)
    (hhbar' : hbar'.size = n) (hx : x.size = n) (hx' : x'.size = n)
    (h : vec n x' = r.solution • vec n x) :
    (initial hbar x g).Scaled r m n (initial hbar' x' g') where
  iteration := rfl
  basis := hg
  factors := ⟨hg.alpha, rfl, rfl, by simp [initial], by
    simp only [initial, hg.alpha, hbeta]
    ring⟩
  residual := ⟨hbeta, by simp [initial], by simp [initial], by simp [initial], by simp [initial]⟩
  pivots := .inr ⟨rfl, rfl, rfl⟩
  squares := by
    simp only [initial, hg.alpha]
    ring
  largest := by simp [State.largest, initial, max_comm]
  smallest := by simp [State.smallest, initial, min_comm]
  h := hg.v
  hbar := by simp [initial, vec_map_zero hhbar, vec_map_zero hhbar']
  x := h
  normB := hbeta
  normR := hbeta
  normAr := by
    simp only [initial, hg.alpha, hbeta]
    ring
  normA := by
    have hsq : r.operator * g.alpha * (r.operator * g.alpha) =
        r.operator ^ 2 * (g.alpha * g.alpha) := by ring
    simp only [initial, hg.alpha, sqrt_eq, hsq, sqrt_sq_mul r.operator_pos]
  normX := norm_scaled hx hx' h

section Turned

variable {s s' : State ℝ} {g g' : Basis ℝ} {t : Turn ℝ} {damp damp' : ℝ}
  {M' : EuclideanSpace ℝ (Fin n) →ₗ[ℝ] EuclideanSpace ℝ (Fin m)}
  {b b' : EuclideanSpace ℝ (Fin m)} {x₀ x₀' : EuclideanSpace ℝ (Fin n)}

theorem State.Scaled.max_largest (h : s.Scaled r m n s') (y : ℝ) :
    max r.operator (max s'.largest (r.operator * y)) = max 1 (r.operator * max s.largest y) := by
  rw [← max_assoc, h.largest, max_assoc, mul_max_of_nonneg _ _ r.operator_pos.le]

theorem State.Scaled.min_smallest (h : s.Scaled r m n s') (y : ℝ) :
    min (r.operator * 1e100) (min s'.smallest (r.operator * y)) =
      min 1e100 (r.operator * min s.smallest y) := by
  rw [← min_assoc, h.smallest, min_assoc, mul_min_of_nonneg _ _ r.operator_pos.le]

section Moves

variable (h : s.Scaled r m n s') (hs : s.Regular M damp b x₀) (hs' : s'.Regular M' damp' b' x₀')

include h hs hs'

theorem State.Scaled.h_turned (hg : g.Scaled r m n g') :
    vec n (s'.turned g' (t.scaled r)).h = r.sign • vec n (s.turned g t).h := by
  have hratio : (t.scaled r).thetanew / (t.scaled r).rho = t.thetanew / t.rho :=
    mul_div_mul_left _ _ r.operator_pos.ne'
  rw [vec_h_turned hs.sized.h hg.sized.v, vec_h_turned hs'.sized.h hg.sized'.v, hratio, h.h, hg.v]
  module

variable (ht : t.Rotates damp g s.factors)

include ht

theorem State.Scaled.hbar_turned :
    vec n (s'.turned g' (t.scaled r)).hbar = r.sign • vec n (s.turned g t).hbar := by
  have hmu := r.operator_pos.ne'
  have hratio : (t.scaled r).thetabar * (t.scaled r).rho / (s'.factors.rho * s'.factors.rhobar) =
      t.thetabar * t.rho / (s.factors.rho * s.factors.rhobar) := by
    rcases h.pivots with ⟨hrho, hrhobar, -⟩ | ⟨hsbar, -, -⟩
    · simp only [Turn.scaled, hrho, hrhobar]
      field_simp
    · simp [Turn.scaled, ht.thetabar, hsbar]
  rw [vec_hbar_turned hs.sized.h hs.sized.hbar, vec_hbar_turned hs'.sized.h hs'.sized.hbar, hratio,
    h.h, h.hbar]
  module

theorem State.Scaled.x_turned :
    vec n (s'.turned g' (t.scaled r)).x = r.solution • vec n (s.turned g t).x := by
  have hmu := r.operator_pos.ne'
  have hlength : (t.scaled r).zeta / ((t.scaled r).rho * (t.scaled r).rhobar) * r.sign =
      r.solution * (t.zeta / (t.rho * t.rhobar)) := by
    simp only [Turn.scaled, Rescaling.solution]
    field_simp
  rw [vec_x_turned hs.size_x hs.sized.hbar, vec_x_turned hs'.size_x hs'.sized.hbar,
    h.hbar_turned hs hs' ht, h.x, smul_smul, hlength]
  module

theorem State.Scaled.residual_turned : (s.turned g t).residual.Scaled r
      (s'.turned g' (t.scaled r)).residual ∧
    (s'.turned g' (t.scaled r)).residual.rhodold =
      r.operator * (s.turned g t).residual.rhodold ∧
    (s'.turned g' (t.scaled r)).normR = r.data * (s.turned g t).normR := by
  have hpivot : s'.residual.rhodold = r.operator * s.residual.rhodold ∨
      t.thetabar = 0 ∧ s.factors.zeta = 0 ∧ s.residual.thetatilde = 0 := by
    rcases h.pivots with ⟨-, -, hrhodold⟩ | ⟨hsbar, hzeta, htheta⟩
    · exact .inl hrhodold
    · exact .inr ⟨by rw [ht.thetabar, hsbar, zero_mul], hzeta, htheta⟩
  have hadvance := h.residual.advance hs.residual.rhodold hs'.residual.rhodold hpivot
  rw [← h.factors.zeta] at hadvance
  exact hadvance

end Moves

theorem State.Scaled.turned (h : s.Scaled r m n s') (hs : s.Regular M damp b x₀)
    (hs' : s'.Regular M' damp' b' x₀') (ht : t.Rotates damp g s.factors) (hg : g.Scaled r m n g')
    (hbeta : g'.beta = r.operator * g.beta) :
    (s.turned g t).Scaled r m n (s'.turned g' (t.scaled r)) := by
  have hsquares : s'.operator.squares + g'.beta * g'.beta =
      r.operator ^ 2 * (s.operator.squares + g.beta * g.beta) := by
    rw [h.squares, hbeta]
    ring
  exact
    { iteration := congrArg (· + 1) h.iteration
      basis := hg
      factors := t.scaled_factors
      residual := (h.residual_turned hs hs' ht).1
      pivots := .inl ⟨rfl, rfl, (h.residual_turned hs hs' ht).2.1⟩
      squares := by
        refine (congrArg₂ (· + ·) hsquares (congrArg₂ (· * ·) hg.alpha hg.alpha)).trans ?_
        simp only [State.turned, State.advance, OperatorEstimate.advance]
        ring
      largest := by
        rw [largest_turned, largest_turned]
        exact h.max_largest t.rhobar
      smallest := by
        rw [smallest_turned, smallest_turned]
        exact h.min_smallest t.rhobar
      h := h.h_turned hs hs' hg
      hbar := h.hbar_turned hs hs' ht
      x := h.x_turned hs hs' ht
      normB := h.normB
      normR := (h.residual_turned hs hs' ht).2.2
      normAr := by
        change |r.operator * r.data * t.zetabar| = r.operator * r.data * |t.zetabar|
        rw [abs_mul, abs_of_pos (mul_pos r.operator_pos r.data_pos)]
      normA := (congrArg Real.sqrt hsquares).trans (sqrt_sq_mul r.operator_pos _)
      normX := norm_scaled ((s.size_x_turned g t).trans hs.size_x)
        ((s'.size_x_turned g' _).trans hs'.size_x) (h.x_turned hs hs' ht) }

end Turned

/-! ## The run -/

structure Rescaling.Relates (r : Rescaling)
    (M : EuclideanSpace ℝ (Fin n) →ₗ[ℝ] EuclideanSpace ℝ (Fin m)) (w w' : Workspace ℝ) (a : A)
    (a' : A') (rhs rhs' x x' : Array ℝ) (p p' : Params ℝ) : Prop where
  realizes : Realizes a M
  realizes' : Realizes a' (r.operator • M)
  sized : w.Sized m n
  sized' : w'.Sized m n
  size_rhs : rhs.size = m
  size_rhs' : rhs'.size = m
  size_x : x.size = n
  size_x' : x'.size = n
  rhs : vec m rhs' = (r.sign * r.data) • vec m rhs
  x : vec n x' = r.solution • vec n x
  params : p' = { p with damp := r.operator * p.damp }

section Run

variable {w w' : Workspace ℝ} {rhs rhs' x x' : Array ℝ} {p p' : Params ℝ} {s s' t t' : State ℝ}
  (hr : r.Relates M w w' a a' rhs rhs' x x' p p')

include hr

theorem Rescaling.Relates.head_tracks (head : Head w a rhs x p s) :
    s.Tracks M p.damp (vec m rhs) (vec n x) :=
  head.tracks hr.realizes hr.sized hr.size_rhs hr.size_x

theorem Rescaling.Relates.head_tracks' (head : Head w' a' rhs' x' p' s) :
    s.Tracks (r.operator • M) p'.damp (vec m rhs') (vec n x') :=
  head.tracks hr.realizes' hr.sized' hr.size_rhs' hr.size_x'

theorem State.Scaled.turns {g g' : Basis ℝ} {q q' : Turn ℝ} (h : s.Scaled r m n s')
    (head : Head w a rhs x p s) (head' : Head w' a' rhs' x' p' s') (hq : s.Turns a p.damp g q)
    (hq' : s'.Turns a' p'.damp g' q') :
    q' = q.scaled r ∧ (s.turned g q).Scaled r m n (s'.turned g' q') := by
  have hs := (hr.head_tracks head).regular
  have hs' := (hr.head_tracks' head').regular
  obtain ⟨_, _, hextend, hextend', hg, hbeta⟩ := h.basis.extend hr.realizes hr.realizes'
  cases hq.extended.symm.trans hextend
  cases hq'.extended.symm.trans hextend'
  have hdamp : p'.damp = r.operator * p.damp := congrArg Params.damp hr.params
  have hturn := hq'.rotated
  rw [hdamp, turn?_scaled p.damp hg hbeta h.factors, hq.rotated, Option.map_some] at hturn
  cases hturn
  exact ⟨rfl, h.turned hs hs' (hq.rotates hs) hg hbeta⟩

/-- Loop heads of the same iteration differ by the units alone. -/
theorem Head.scaled (head : Head w a rhs x p s) (head' : Head w' a' rhs' x' p' s')
    (h : s'.iteration = s.iteration) : s.Scaled r m n s' := by
  induction head generalizing s' with
  | first starts moves =>
    cases head' with
    | first starts' moves' =>
      obtain ⟨g, g', hfirst, hfirst', hg, hbeta⟩ :=
        firstBasis_scaled hr.realizes hr.realizes' hr.sized hr.sized' hr.size_rhs hr.size_rhs'
          hr.size_x hr.size_x' hr.rhs hr.x
      cases starts.symm.trans hfirst
      cases starts'.symm.trans hfirst'
      exact State.scaled_initial hg hbeta hr.sized.hbar hr.sized'.hbar hr.size_x hr.size_x' hr.x
    | next head' goes' =>
      have hcount := iteration_of_next goes'
      rw [h] at hcount
      cases hcount
  | @next s t head goes more ih =>
    have hcount := iteration_of_next goes
    cases head' with
    | first => exact absurd (h.trans hcount) (Nat.succ_ne_zero _).symm
    | @next s' _ head' goes' =>
      have hcount' := iteration_of_next goes'
      obtain ⟨g, q, hq⟩ := (hr.head_tracks head).regular.exists_turns hr.realizes
      obtain ⟨g', q', hq'⟩ := (hr.head_tracks' head').regular.exists_turns hr.realizes'
      rw [(hq.of_next goes).1, (hq'.of_next goes').1]
      exact ((ih head' (by omega)).turns hr head head' hq hq').2

end Run

end LeastSquares.Lsmr
