import Mathlib
import LeastSquares.Proofs.Dense.Shape
import LeastSquares.Proofs.Exact.Scalar

/-!
# Exact Cholesky factorizations

A triangle stands for the symmetric matrix with that lower part, and `mul` is the product of this
matrix with a vector.  Removing the first column leaves the Schur complement, so a factorization
and its two substitutions solve the system, and there is one wherever the matrix is positive
definite.
-/

namespace LeastSquares.Dense.Triangle

open Exact

/-- The product of the symmetric matrix with a vector. -/
noncomputable def mul : Triangle ℝ → List ℝ → List ℝ
  | (pivot :: below) :: rest, x :: xs =>
    (pivot * x + inner below xs) :: List.zipWith (fun b y => b * x + y) below (mul rest xs)
  | _, _ => []

def PosDef (n : ℕ) (T : Triangle ℝ) : Prop :=
  ∀ x : List ℝ, x.length = n → (∃ e ∈ x, e ≠ 0) → 0 < inner x (mul T x)

/-! ## Inner products -/

theorem inner_eq_sum (xs ys : List ℝ) : inner xs ys = (List.zipWith (· * ·) xs ys).sum :=
  List.sum_eq_foldl.symm

@[simp] theorem inner_cons (x y : ℝ) (xs ys : List ℝ) :
    inner (x :: xs) (y :: ys) = x * y + inner xs ys := by simp [inner_eq_sum]

theorem inner_comm (xs ys : List ℝ) : inner xs ys = inner ys xs := by
  rw [inner_eq_sum, inner_eq_sum, List.zipWith_comm_of_comm mul_comm]

theorem inner_replicate_zero (n : ℕ) (ys : List ℝ) : inner (List.replicate n 0) ys = 0 := by
  rw [inner_eq_sum]
  refine List.sum_eq_zero fun e he => ?_
  obtain ⟨i, hi, rfl⟩ := List.mem_iff_getElem.1 he
  simp

theorem inner_zipWith {f : ℝ → ℝ → ℝ} {a b : ℝ} (hf : ∀ x y, f x y = a * x + b * y) :
    ∀ {n : ℕ} {zs xs ys : List ℝ}, zs.length = n → xs.length = n → ys.length = n →
      inner zs (List.zipWith f xs ys) = a * inner zs xs + b * inner zs ys := by
  intro n
  induction n with
  | zero =>
    intro zs xs ys hz hx hy
    simp [List.length_eq_zero_iff.1 hz, inner_eq_sum]
  | succ n ih =>
    intro zs xs ys hz hx hy
    obtain ⟨z, zs, rfl⟩ := List.exists_cons_of_length_eq_add_one hz
    obtain ⟨x, xs, rfl⟩ := List.exists_cons_of_length_eq_add_one hx
    obtain ⟨y, ys, rfl⟩ := List.exists_cons_of_length_eq_add_one hy
    simp only [List.length_cons, Nat.add_right_cancel_iff] at hz hx hy
    simp only [List.zipWith_cons_cons, inner_cons, hf, ih hz hx hy]
    ring

theorem inner_map_mul {n : ℕ} (r : ℝ) {w x : List ℝ} (hw : w.length = n) (hx : x.length = n) :
    inner (w.map (r * ·)) x = r * inner w x := by
  have h := inner_zipWith (f := fun wi _ => r * wi) (a := r) (b := 0) (fun _ _ => by ring) hx hw hw
  rw [List.zipWith_self] at h
  rw [inner_comm, h, inner_comm x w]
  ring

/-! ## Products -/

variable {n : ℕ} {T : Triangle ℝ} {b s w x : List ℝ}

theorem length_mul (hT : Shaped n T) (hx : x.length = n) : (mul T x).length = n := by
  induction hT generalizing x with
  | nil => simp [mul]
  | cons hbelow hrest ih =>
    obtain ⟨x, xs, rfl⟩ := List.exists_cons_of_length_eq_add_one hx
    simp only [List.length_cons, Nat.add_right_cancel_iff] at hx
    simp [mul, hbelow, ih hx]

theorem mul_downdate (hT : Shaped n T) (hw : w.length = n) (hx : x.length = n) :
    mul (downdate w T) x = List.zipWith (fun y wi => y - wi * inner w x) (mul T x) w := by
  induction hT generalizing w x with
  | nil => cases w <;> simp [mul, downdate]
  | @cons n pivot below rest hbelow hrest ih =>
    obtain ⟨w, ws, rfl⟩ := List.exists_cons_of_length_eq_add_one hw
    obtain ⟨x, xs, rfl⟩ := List.exists_cons_of_length_eq_add_one hx
    simp only [List.length_cons, Nat.add_right_cancel_iff] at hw hx
    have hlength := length_mul hrest hx
    simp only [downdate, List.zipWith_cons_cons, mul, inner_cons, ih hw hx]
    congr 1
    · rw [inner_comm, inner_zipWith (a := 1) (b := -w) (fun e wi => by ring) hx hbelow hw,
        inner_comm xs below, inner_comm xs ws]
      ring
    · apply List.ext_getElem
      · simp [hbelow, hw, hlength]
      · intro i hi _
        simp only [List.getElem_zipWith]
        ring

/-! ## Solving -/

theorem mul_cons_eq {r y : ℝ} {rest : Triangle ℝ} (hr : r ≠ 0) (hrest : Shaped n rest)
    (hw : w.length = n) (hx : x.length = n) :
    mul ((r * r :: w.map (r * ·)) :: rest) ((y - inner w x) / r :: x) =
      (r * y) :: List.zipWith (fun wi z => wi * y + z) w (mul (downdate w rest) x) := by
  have hlength := length_mul hrest hx
  rw [mul, mul_downdate hrest hw hx, inner_map_mul r hw hx]
  congr 1
  · field_simp
    ring
  · apply List.ext_getElem
    · simp [hw, hlength]
    · intro i hi _
      simp only [List.getElem_zipWith, List.getElem_map]
      field_simp
      ring

theorem factor?_cons {pivot : ℝ} (hpivot : 0 < pivot) (below : List ℝ) (rest : Triangle ℝ) :
    ∃ r w, 0 < r ∧ pivot = r * r ∧ below = w.map (r * ·) ∧ w.length = below.length ∧
      factor? ((pivot :: below) :: rest) = (factor? (downdate w rest)).map ((r :: w) :: ·) := by
  have hr : 0 < √pivot := Real.sqrt_pos.2 hpivot
  refine ⟨√pivot, below.map (· / √pivot), hr, (Real.mul_self_sqrt hpivot.le).symm, ?_, by simp, ?_⟩
  · apply List.ext_getElem
    · simp
    · intro i _ _
      simp only [List.getElem_map]
      field_simp
  · rw [factor?, if_pos hpivot]
    rfl

/-- The substitutions with a factorization solve the system. -/
theorem mul_solveUpper_solveLower {L : Triangle ℝ} (hT : Shaped n T) (hL : factor? T = some L)
    (hb : b.length = n) (hs : s.length = n) :
    mul T (solveUpper L (solveLower L b s)) = List.zipWith (· - ·) b s := by
  -- The matrix is downdated before the recursion, so the induction is on its size.
  induction n generalizing T L b s with
  | zero =>
    cases hT
    simp [mul, List.length_eq_zero_iff.1 hb]
  | succ n ih =>
    cases hT with
    | @cons _ pivot below rest hbelow hrest =>
      have hpivot : 0 < pivot := by
        by_contra h
        simp [factor?, h] at hL
      obtain ⟨r, w, hr, rfl, rfl, hw, hfactor⟩ := factor?_cons hpivot below rest
      obtain ⟨L', hL', rfl⟩ := Option.map_eq_some_iff.1 (hfactor.symm.trans hL)
      obtain ⟨b, bs, rfl⟩ := List.exists_cons_of_length_eq_add_one hb
      obtain ⟨s, ss, rfl⟩ := List.exists_cons_of_length_eq_add_one hs
      simp only [List.length_cons, Nat.add_right_cancel_iff] at hb hs
      have hwn : w.length = n := hw.trans hbelow
      have hshaped := shaped_downdate hrest hwn
      have hsums :
          (List.zipWith (fun sum entry => sum + entry * ((b - s) / r)) ss w).length = n := by
        simp [hs, hwn]
      have hxs := length_solveUpper (shaped_factor? hshaped hL')
        (length_solveLower (shaped_factor? hshaped hL') hb hsums)
      rw [solveLower, solveUpper, mul_cons_eq hr.ne' hrest hwn hxs, ih hshaped hL' hb hsums]
      rw [List.zipWith_cons_cons, mul_div_cancel₀ _ hr.ne']
      congr 1
      apply List.ext_getElem
      · simp [hb, hs, hwn]
      · intro i _ _
        simp only [List.getElem_zipWith]
        ring

theorem mul_solve {L : Triangle ℝ} (hT : Shaped n T) (hL : factor? T = some L)
    (hb : b.length = n) : mul T (solve L b) = b ∧ (solve L b).length = n := by
  have hzeros : (b.map fun _ => (0 : ℝ)).length = n := by simpa
  have hshaped := shaped_factor? hT hL
  refine ⟨?_, length_solve hshaped hb⟩
  rw [solve, mul_solveUpper_solveLower hT hL hb hzeros]
  apply List.ext_getElem <;> simp

/-! ## Positive definite matrices -/

theorem inner_mul_cons {pivot t : ℝ} {below : List ℝ} {rest : Triangle ℝ}
    (hbelow : below.length = n) (hrest : Shaped n rest) (hx : x.length = n) :
    inner (t :: x) (mul ((pivot :: below) :: rest) (t :: x)) =
      pivot * t ^ 2 + 2 * t * inner below x + inner x (mul rest x) := by
  rw [mul, inner_cons, inner_zipWith (a := t) (b := 1) (fun b y => by ring) hx hbelow
    (length_mul hrest hx), inner_comm x below]
  ring

theorem posDef_downdate {r : ℝ} {rest : Triangle ℝ} (hr : 0 < r) (hw : w.length = n)
    (hrest : Shaped n rest) (h : PosDef (n + 1) ((r * r :: w.map (r * ·)) :: rest)) :
    PosDef n (downdate w rest) := by
  intro x hx hne
  have hlength := length_mul (shaped_downdate hrest hw) hx
  have hpos := h ((0 - inner w x) / r :: x) (by simp [hx])
    (hne.imp fun e he => ⟨List.mem_cons_of_mem _ he.1, he.2⟩)
  rw [mul_cons_eq hr.ne' hrest hw hx, inner_cons, inner_zipWith (a := 0) (b := 1)
    (fun wi z => by ring) hx hw hlength] at hpos
  linarith

theorem exists_factor?_of_posDef (hT : Shaped n T) (h : PosDef n T) : ∃ L, factor? T = some L := by
  induction n generalizing T with
  | zero =>
    cases hT
    exact ⟨[], by simp [factor?]⟩
  | succ n ih =>
    cases hT with
    | @cons _ pivot below rest hbelow hrest =>
      have hpivot : 0 < pivot := by
        have hzeros : (List.replicate n (0 : ℝ)).length = n := List.length_replicate
        have hpos := h (1 :: List.replicate n 0) (by simp) ⟨1, List.mem_cons_self, one_ne_zero⟩
        rw [inner_mul_cons hbelow hrest hzeros, inner_comm below, inner_replicate_zero,
          inner_replicate_zero] at hpos
        linarith
      obtain ⟨r, w, hr, rfl, rfl, hw, hfactor⟩ := factor?_cons hpivot below rest
      have hwn : w.length = n := hw.trans hbelow
      obtain ⟨L, hL⟩ := ih (shaped_downdate hrest hwn) (posDef_downdate hr hwn hrest h)
      exact ⟨(r :: w) :: L, by rw [hfactor, hL, Option.map_some]⟩

/-- Only positive definite matrices have a factorization. -/
theorem posDef_of_factor? {L : Triangle ℝ} (hT : Shaped n T) (hL : factor? T = some L) :
    PosDef n T := by
  induction n generalizing T L with
  | zero =>
    rintro x hx ⟨e, he, -⟩
    rw [List.length_eq_zero_iff.1 hx] at he
    cases he
  | succ n ih =>
    cases hT with
    | @cons _ pivot below rest hbelow hrest =>
      have hpivot : 0 < pivot := by
        by_contra h
        simp [factor?, h] at hL
      obtain ⟨r, w, hr, rfl, rfl, hw, hfactor⟩ := factor?_cons hpivot below rest
      obtain ⟨L', hL', -⟩ := Option.map_eq_some_iff.1 (hfactor.symm.trans hL)
      have hwn : w.length = n := hw.trans hbelow
      have hrestpos := ih (shaped_downdate hrest hwn) hL'
      rintro x hx ⟨e, he, hne⟩
      obtain ⟨t, x, rfl⟩ := List.exists_cons_of_length_eq_add_one hx
      simp only [List.length_cons, Nat.add_right_cancel_iff] at hx
      -- The product is a square and the product with the Schur complement.
      have hschur : inner x (mul (downdate w rest) x) = inner x (mul rest x) - inner w x ^ 2 := by
        rw [mul_downdate hrest hwn hx, inner_zipWith (a := 1) (b := -inner w x)
          (fun y wi => by ring) hx (length_mul hrest hx) hwn, inner_comm x w]
        ring
      have hsquare : inner (t :: x) (mul ((r * r :: w.map (r * ·)) :: rest) (t :: x)) =
          (r * t + inner w x) ^ 2 + inner x (mul (downdate w rest) x) := by
        rw [inner_mul_cons hbelow hrest hx, inner_map_mul r hwn hx, hschur]
        ring
      rw [hsquare]
      by_cases hx0 : ∃ e ∈ x, e ≠ 0
      · exact add_pos_of_nonneg_of_pos (sq_nonneg _) (hrestpos x hx hx0)
      · have hzeros : x = List.replicate n 0 := by
          push Not at hx0
          exact List.eq_replicate_iff.2 ⟨hx, hx0⟩
        have ht : t ≠ 0 := by
          rcases List.mem_cons.1 he with rfl | hmem
          · exact hne
          · exact absurd ⟨e, hmem, hne⟩ hx0
        rw [hzeros, inner_comm w, inner_replicate_zero, inner_replicate_zero, add_zero, add_zero]
        positivity

end LeastSquares.Dense.Triangle

namespace LeastSquares.Dense

open Triangle

/-- What a direct step solver may rely on in exact arithmetic: a matrix has a factor exactly where
it is positive definite, and a system with the matrix is solved by its factor. -/
structure Factorization.Solves (F : Factorization ℝ) (n : ℕ) : Prop where
  isSome_iff : ∀ T, Shaped n T → ((F.factor? T).isSome = true ↔ PosDef n T)
  mul_solve : ∀ T L b, Shaped n T → F.factor? T = some L → b.length = n →
    mul T (F.solve L b) = b ∧ (F.solve L b).length = n

theorem Factorization.solves_cholesky (n : ℕ) : Factorization.cholesky.Solves n where
  isSome_iff T hT := by
    rw [Option.isSome_iff_exists]
    constructor
    · rintro ⟨L, hL⟩
      exact posDef_of_factor? hT hL
    · exact exists_factor?_of_posDef hT
  mul_solve T L b hT hL hb := mul_solve hT hL hb

end LeastSquares.Dense
