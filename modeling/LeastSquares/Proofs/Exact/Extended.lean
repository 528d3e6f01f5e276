import Mathlib
import LeastSquares.Proofs.Exact.Scalar

/-!
# The reals among other scalars

Machine numbers have infinities and values that are no number.  `Embeds` says that a type of scalars
has the reals among its values, on which products, quotients and comparisons are exact, and says
nothing about the arithmetic of the others.  The extended reals are such a type.
-/

namespace LeastSquares.Exact

/-- Products, quotients and comparisons are exact on the reals among the scalars.  Every other
scalar is no number, or lies above or below them all. -/
structure Embeds {α : Type} [Scalar α] (real : ℝ → α) : Prop where
  mul : ∀ a b, real a * real b = real (a * b)
  div : ∀ a b, b ≠ 0 → real a / real b = real (a / b)
  lt_iff : ∀ a b, real a < real b ↔ a < b
  isNaN : ∀ a, Scalar.isNaN (real a) = false
  cases : ∀ x, Scalar.isNaN x = true ∨ (∃ a, x = real a) ∨ (∀ a, x < real a) ∨
    ∀ a, ¬ x < real a ∧ real a < x

namespace Embeds

variable {α : Type} [Scalar α] {real : ℝ → α} (h : Embeds real)

include h

theorem min_eq (a b : ℝ) : Scalar.min (real a) (real b) = real (min a b) := by
  rw [Scalar.min, h.isNaN, if_neg Bool.false_ne_true]
  by_cases hlt : b < a
  · rw [if_pos ((h.lt_iff b a).2 hlt), min_eq_right hlt.le]
  · rw [if_neg (mt (h.lt_iff b a).1 hlt), min_eq_left (not_lt.1 hlt)]

theorem max_eq (a b : ℝ) : Scalar.max (real a) (real b) = real (max a b) := by
  rw [Scalar.max, h.isNaN, if_neg Bool.false_ne_true]
  by_cases hlt : a < b
  · rw [if_pos ((h.lt_iff a b).2 hlt), max_eq_right hlt.le]
  · rw [if_neg (mt (h.lt_iff a b).1 hlt), max_eq_left (not_lt.1 hlt)]

theorem exists_clamp {lo hi : ℝ} (hle : lo ≤ hi) (x : α) :
    ∃ a ∈ Set.Icc lo hi, Scalar.min (Scalar.max x (real lo)) (real hi) = real a := by
  have hlow (hx : Scalar.max x (real lo) = real lo) :
      ∃ a ∈ Set.Icc lo hi, Scalar.min (Scalar.max x (real lo)) (real hi) = real a :=
    ⟨lo, ⟨le_rfl, hle⟩, by rw [hx, h.min_eq, min_eq_left hle]⟩
  rcases h.cases x with hnan | ⟨a, rfl⟩ | hbelow | habove
  · exact hlow (by rw [Scalar.max, if_pos hnan])
  · refine ⟨min (max a lo) hi, ⟨?_, min_le_right _ _⟩, by rw [h.max_eq, h.min_eq]⟩
    exact le_min (le_max_right a lo) hle
  · exact hlow (by rw [Scalar.max, if_pos (hbelow lo), ite_self])
  · by_cases hnan : Scalar.isNaN x = true
    · exact hlow (by rw [Scalar.max, if_pos hnan])
    · refine ⟨hi, ⟨hle, le_rfl⟩, ?_⟩
      rw [Scalar.max, if_neg hnan, if_neg (habove lo).1, Scalar.min, if_neg hnan,
        if_pos (habove hi).2]

end Embeds

/-- The reals with two infinities and a value that is no number, computed as machine numbers are but
without rounding.  There is one zero, whose quotients have the sign of the numerator. -/
inductive Extended where
  | nan
  | infinite (positive : Bool)
  | real (a : ℝ)

namespace Extended

protected def neg : Extended → Extended
  | nan => nan
  | infinite s => infinite !s
  | real a => real (-a)

protected noncomputable def add : Extended → Extended → Extended
  | real a, real b => real (a + b)
  | infinite s, real _ => infinite s
  | real _, infinite t => infinite t
  | infinite s, infinite t => if s = t then infinite s else nan
  | nan, _ | _, nan => nan

noncomputable def stretch (a : ℝ) (s : Bool) : Extended :=
  if a = 0 then nan else infinite (s == decide (0 < a))

protected noncomputable def mul : Extended → Extended → Extended
  | real a, real b => real (a * b)
  | infinite s, real b => stretch b s
  | real a, infinite t => stretch a t
  | infinite s, infinite t => infinite (s == t)
  | nan, _ | _, nan => nan

protected noncomputable def div : Extended → Extended → Extended
  | real a, real b => if b = 0 then stretch a true else real (a / b)
  | infinite s, real b => infinite (s == decide (0 ≤ b))
  | real _, infinite _ => real 0
  | infinite _, infinite _ => nan
  | nan, _ | _, nan => nan

protected def lt : Extended → Extended → Prop
  | real a, real b => a < b
  | infinite s, real _ => s = false
  | real _, infinite t => t = true
  | infinite s, infinite t => s = false ∧ t = true
  | nan, _ | _, nan => False

protected noncomputable def beq : Extended → Extended → Bool
  | real a, real b => decide (a = b)
  | infinite s, infinite t => s == t
  | _, _ => false

protected noncomputable def sqrt : Extended → Extended
  | real a => if a < 0 then nan else real (Real.sqrt a)
  | infinite s => if s then infinite s else nan
  | nan => nan

protected def abs : Extended → Extended
  | real a => real |a|
  | infinite _ => infinite true
  | nan => nan

protected noncomputable def hypot : Extended → Extended → Extended
  | real a, real b => real (Real.sqrt (a ^ 2 + b ^ 2))
  | infinite _, _ | _, infinite _ => infinite true
  | _, _ => nan

noncomputable instance : Scalar Extended where
  add := Extended.add
  sub x y := Extended.add x (Extended.neg y)
  mul := Extended.mul
  div := Extended.div
  neg := Extended.neg
  zero := real 0
  one := real 1
  lt := Extended.lt
  le x y := Extended.lt x y ∨ Extended.beq x y = true
  beq := Extended.beq
  ofScientific m s e := real (OfScientific.ofScientific m s e)
  sqrt := Extended.sqrt
  abs := Extended.abs
  hypot := Extended.hypot
  decidableLT _ _ := Classical.propDecidable _
  decidableLE _ _ := Classical.propDecidable _

theorem embeds_real : Embeds real where
  mul _ _ := rfl
  div _ _ h := if_neg h
  lt_iff _ _ := Iff.rfl
  isNaN a := by simp [Scalar.isNaN, BEq.beq, Extended.beq]
  cases
    | nan => .inl rfl
    | infinite false => .inr (.inr (.inl fun _ => rfl))
    | infinite true => .inr (.inr (.inr fun _ => ⟨Bool.noConfusion, rfl⟩))
    | real a => .inr (.inl ⟨a, rfl⟩)

end Extended

end LeastSquares.Exact
