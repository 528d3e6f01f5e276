import Mathlib
import LeastSquares.Double

/-!
# Machine numbers: order

A machine number that is not NaN has a value among the extended reals, and the comparisons of
machine numbers are the comparisons of their values.  The mantissa and the exponent of a number
that is read from its bits are in canonical form, so the larger exponent is the larger number.
-/

namespace LeastSquares.Double

open Float.Model Float.Model.UnpackedFloat

/-- The mantissa fits 53 bits, and is full unless the exponent is the least one. -/
structure Canonical (m : ℕ) (e : ℤ) : Prop where
  mantissa_lt : m < 2 ^ 53
  exponent_ge : -1074 ≤ e
  full : 2 ^ 52 ≤ m ∨ e = -1074

theorem canonical_of_unpack {b : BitVec Format.binary64.numBits} {s : Sign} {m : ℕ} {e : ℤ}
    {hm : 0 < m} (h : unpack .binary64 b = .finite s m e hm) : Canonical m e := by
  have bias : (Format.binary64.exponentBias : ℤ) = 1023 := rfl
  have hlt : (@unpackMantissa .binary64 b).toNat < 2 ^ 52 := (@unpackMantissa .binary64 b).isLt
  unfold Float.Model.UnpackedFloat.unpack at h
  dsimp only at h
  split_ifs at h with hinf hzero hexp hman
  · obtain ⟨-, rfl, rfl⟩ := UnpackedFloat.finite.inj h
    refine ⟨by omega, ?_, .inr ?_⟩ <;> simp [hexp, bias]
  · obtain ⟨-, rfl, rfl⟩ := UnpackedFloat.finite.inj h
    have hfull : (1#1 ++ @unpackMantissa .binary64 b).toNat =
        2 ^ 52 + (@unpackMantissa .binary64 b).toNat := by
      have hor := Nat.two_pow_add_eq_or_of_lt hlt 1
      rw [BitVec.toNat_append]
      simpa [Nat.shiftLeft_eq] using hor.symm
    have hpos : 0 < (@unpackExponent .binary64 b).toNat := by
      rw [Nat.pos_iff_ne_zero]
      intro hz
      exact hexp (BitVec.eq_of_toNat_eq (by simpa using hz))
    refine ⟨by omega, ?_, .inl (by omega)⟩
    rw [bias]
    simp only [Nat.cast_ofNat]
    omega

def Proper : UnpackedFloat → Prop
  | .finite _ m e _ => Canonical m e
  | _ => True

theorem proper_unpack (x : Float.Model) : Proper x.unpack := by
  cases h : x.unpack with
  | finite s m e hm => exact canonical_of_unpack h
  | _ => trivial

noncomputable def unpackedValue : UnpackedFloat → EReal
  | .notANumber => 0
  | .infinity .positive => ⊤
  | .infinity .negative => ⊥
  | .zero _ => 0
  | .finite s m e _ => (((s.apply m : ℤ) * 2 ^ e : ℝ) : EReal)

/-- The value of a machine number among the extended reals, with zero for NaN. -/
noncomputable def value (x : Float) : EReal := unpackedValue x.toModel.unpack

def Orders {β : Type} [LinearOrder β] : Ordering → β → β → Prop
  | .lt, x, y => x < y
  | .eq, x, y => x = y
  | .gt, x, y => y < x

theorem mul_two_zpow_lt {m₁ m₂ : ℕ} {e₁ e₂ : ℤ} (h₁ : Canonical m₁ e₁) (h₂ : Canonical m₂ e₂)
    (he : e₁ < e₂) : (m₁ : ℝ) * 2 ^ e₁ < m₂ * 2 ^ e₂ := by
  have hfull : 2 ^ 52 ≤ m₂ := h₂.full.resolve_right (by have := h₁.exponent_ge; omega)
  have hm₁ : (m₁ : ℝ) < 2 ^ 53 := by exact_mod_cast h₁.mantissa_lt
  have hm₂ : (2 : ℝ) ^ 52 ≤ m₂ := by exact_mod_cast hfull
  have hstep : (2 : ℝ) ^ (e₁ + 1) ≤ 2 ^ e₂ := zpow_le_zpow_right₀ (by norm_num) (by omega)
  calc (m₁ : ℝ) * 2 ^ e₁ < 2 ^ 53 * 2 ^ e₁ := by gcongr
    _ = 2 ^ 52 * 2 ^ (e₁ + 1) := by rw [zpow_add_one₀ two_ne_zero]; ring
    _ ≤ m₂ * 2 ^ e₂ := by gcongr

theorem orders_parts {m₁ m₂ : ℕ} {e₁ e₂ : ℤ} (h₁ : Canonical m₁ e₁) (h₂ : Canonical m₂ e₂) :
    Orders ((compare e₁ e₂).then (compare m₁ m₂)) ((m₁ : ℝ) * 2 ^ e₁) (m₂ * 2 ^ e₂) := by
  rcases lt_trichotomy e₁ e₂ with he | rfl | he
  · rw [compare_lt_iff_lt.2 he]
    exact mul_two_zpow_lt h₁ h₂ he
  · rw [compare_eq_iff_eq.2 rfl, Ordering.eq_then]
    have hpos : (0 : ℝ) < 2 ^ e₁ := by positivity
    rcases lt_trichotomy m₁ m₂ with hm | rfl | hm
    · rw [compare_lt_iff_lt.2 hm]
      exact mul_lt_mul_of_pos_right (by exact_mod_cast hm) hpos
    · rw [compare_eq_iff_eq.2 rfl]
      exact rfl
    · rw [compare_gt_iff_gt.2 hm]
      exact mul_lt_mul_of_pos_right (by exact_mod_cast hm) hpos
  · rw [compare_gt_iff_gt.2 he]
    exact mul_two_zpow_lt h₂ h₁ he

theorem orders_neg {o : Ordering} {x y : ℝ} (h : Orders o x y) : Orders o.swap (-x) (-y) := by
  cases o with
  | lt => exact neg_lt_neg h
  | eq => exact congrArg _ h
  | gt => exact neg_lt_neg h

theorem orders_coe {o : Ordering} {x y : ℝ} (h : Orders o x y) :
    Orders o (x : EReal) (y : EReal) := by
  cases o with
  | lt => exact EReal.coe_lt_coe_iff.2 h
  | eq => exact congrArg _ h
  | gt => exact EReal.coe_lt_coe_iff.2 h

theorem unpackedValue_positive {m : ℕ} {e : ℤ} {hm : 0 < m} :
    unpackedValue (.finite .positive m e hm) = (((m : ℝ) * 2 ^ e : ℝ) : EReal) := by
  simp [unpackedValue, Sign.apply]

theorem unpackedValue_negative {m : ℕ} {e : ℤ} {hm : 0 < m} :
    unpackedValue (.finite .negative m e hm) = ((-((m : ℝ) * 2 ^ e) : ℝ) : EReal) := by
  simp [unpackedValue, Sign.apply]

theorem unpackedValue_positive_pos {m : ℕ} {e : ℤ} {hm : 0 < m} :
    0 < unpackedValue (.finite .positive m e hm) := by
  rw [unpackedValue_positive]
  exact_mod_cast (by positivity : (0 : ℝ) < m * 2 ^ e)

theorem unpackedValue_negative_neg {m : ℕ} {e : ℤ} {hm : 0 < m} :
    unpackedValue (.finite .negative m e hm) < 0 := by
  rw [unpackedValue_negative]
  exact_mod_cast (by simp only [neg_neg_iff_pos]; positivity : -((m : ℝ) * 2 ^ e) < 0)

/-- The comparison of two numbers finds the order of their values. -/
theorem compare_spec {a b : UnpackedFloat} (ha : Proper a) (hb : Proper b)
    (hna : a.isNaN = false) (hnb : b.isNaN = false) :
    ∃ o, a.compare b = some o ∧ Orders o (unpackedValue a) (unpackedValue b) := by
  match a, b with
  | .notANumber, _ => cases hna
  | _, .notANumber => cases hnb
  | .infinity .positive, .infinity .positive => exact ⟨.eq, rfl, rfl⟩
  | .infinity .positive, .infinity .negative => exact ⟨.gt, rfl, bot_lt_top⟩
  | .infinity .negative, .infinity .positive => exact ⟨.lt, rfl, bot_lt_top⟩
  | .infinity .negative, .infinity .negative => exact ⟨.eq, rfl, rfl⟩
  | .infinity .positive, .zero _ => exact ⟨.gt, rfl, EReal.zero_lt_top⟩
  | .infinity .negative, .zero _ => exact ⟨.lt, rfl, EReal.bot_lt_zero⟩
  | .zero _, .infinity .positive => exact ⟨.lt, rfl, EReal.zero_lt_top⟩
  | .zero _, .infinity .negative => exact ⟨.gt, rfl, EReal.bot_lt_zero⟩
  | .infinity .positive, .finite .. => exact ⟨.gt, rfl, EReal.coe_lt_top _⟩
  | .infinity .negative, .finite .. => exact ⟨.lt, rfl, EReal.bot_lt_coe _⟩
  | .finite .., .infinity .positive => exact ⟨.lt, rfl, EReal.coe_lt_top _⟩
  | .finite .., .infinity .negative => exact ⟨.gt, rfl, EReal.bot_lt_coe _⟩
  | .zero _, .zero _ => exact ⟨.eq, rfl, rfl⟩
  | .zero _, .finite .positive .. => exact ⟨.lt, rfl, unpackedValue_positive_pos⟩
  | .zero _, .finite .negative .. => exact ⟨.gt, rfl, unpackedValue_negative_neg⟩
  | .finite .positive .., .zero _ => exact ⟨.gt, rfl, unpackedValue_positive_pos⟩
  | .finite .negative .., .zero _ => exact ⟨.lt, rfl, unpackedValue_negative_neg⟩
  | .finite .negative .., .finite .positive .. =>
    exact ⟨.lt, rfl, unpackedValue_negative_neg.trans unpackedValue_positive_pos⟩
  | .finite .positive .., .finite .negative .. =>
    exact ⟨.gt, rfl, unpackedValue_negative_neg.trans unpackedValue_positive_pos⟩
  | .finite .positive m₁ e₁ _, .finite .positive m₂ e₂ _ =>
    refine ⟨_, rfl, ?_⟩
    rw [unpackedValue_positive, unpackedValue_positive]
    exact orders_coe (orders_parts ha hb)
  | .finite .negative m₁ e₁ _, .finite .negative m₂ e₂ _ =>
    refine ⟨_, rfl, ?_⟩
    rw [unpackedValue_negative, unpackedValue_negative]
    exact orders_coe (orders_neg (orders_parts ha hb))

theorem compare_of_isNaN {a b : UnpackedFloat} (h : a.isNaN = true ∨ b.isNaN = true) :
    a.compare b = none := by
  cases a <;> cases b <;> simp_all [UnpackedFloat.isNaN, UnpackedFloat.compare]

theorem compare_eq_none_or (x y : Float) :
    (x.isNaN = true ∨ y.isNaN = true) ∧ x.toModel.unpack.compare y.toModel.unpack = none ∨
      (x.isNaN = false ∧ y.isNaN = false) ∧
        ∃ o, x.toModel.unpack.compare y.toModel.unpack = some o ∧
          Orders o (value x) (value y) := by
  change (x.toModel.unpack.isNaN = true ∨ y.toModel.unpack.isNaN = true) ∧ _ ∨
    (x.toModel.unpack.isNaN = false ∧ y.toModel.unpack.isNaN = false) ∧ _
  cases hx : x.toModel.unpack.isNaN with
  | true => exact .inl ⟨.inl rfl, compare_of_isNaN (.inl hx)⟩
  | false =>
    cases hy : y.toModel.unpack.isNaN with
    | true => exact .inl ⟨.inr rfl, compare_of_isNaN (.inr hy)⟩
    | false => exact .inr ⟨⟨rfl, rfl⟩, compare_spec (proper_unpack _) (proper_unpack _) hx hy⟩

theorem lt_iff_value {x y : Float} :
    x < y ↔ x.isNaN = false ∧ y.isNaN = false ∧ value x < value y := by
  have hdef : x < y ↔ x.toModel.unpack.compare y.toModel.unpack = some .lt := by
    change Float.lt x y = true ↔ _
    simp only [Float.lt, decide_eq_true_eq]
    change (UnpackedFloat.lt _ _) = true ↔ _
    simp [UnpackedFloat.lt]
  rw [hdef]
  rcases compare_eq_none_or x y with ⟨hnan, hcmp⟩ | ⟨⟨hx, hy⟩, o, ho, horders⟩
  · rcases hnan with h | h <;>
      simp only [hcmp, h, Bool.true_eq_false, false_and, and_false, reduceCtorEq]
  · simp only [ho, hx, hy, true_and, Option.some.injEq]
    cases o with
    | lt => exact ⟨fun _ => horders, fun _ => rfl⟩
    | eq => exact ⟨nofun, fun h => absurd h (ge_of_eq horders).not_gt⟩
    | gt => exact ⟨nofun, fun h => absurd h horders.asymm⟩

theorem le_iff_value {x y : Float} :
    x ≤ y ↔ x.isNaN = false ∧ y.isNaN = false ∧ value x ≤ value y := by
  have hdef : x ≤ y ↔ (x.toModel.unpack.compare y.toModel.unpack).any (·.isLE) = true := by
    change Float.le x y = true ↔ _
    simp only [Float.le, decide_eq_true_eq]
    rfl
  rw [hdef]
  rcases compare_eq_none_or x y with ⟨hnan, hcmp⟩ | ⟨⟨hx, hy⟩, o, ho, horders⟩
  · rcases hnan with h | h <;>
      simp only [hcmp, h, Option.any_none, Bool.true_eq_false, false_and, and_false, reduceCtorEq]
  · simp only [ho, hx, hy, true_and, Option.any_some]
    cases o with
    | lt => exact ⟨fun _ => (horders : _ < _).le, fun _ => rfl⟩
    | eq => exact ⟨fun _ => (horders : _ = _).le, fun _ => rfl⟩
    | gt => exact ⟨nofun, fun h => absurd h (not_le_of_gt horders)⟩

theorem le_trans {x y z : Float} (hxy : x ≤ y) (hyz : y ≤ z) : x ≤ z := by
  rw [le_iff_value] at hxy hyz ⊢
  exact ⟨hxy.1, hyz.2.1, hxy.2.2.trans hyz.2.2⟩

theorem lt_of_le_of_lt {x y z : Float} (hxy : x ≤ y) (hyz : y < z) : x < z := by
  rw [lt_iff_value] at hyz ⊢
  rw [le_iff_value] at hxy
  exact ⟨hxy.1, hyz.2.1, hxy.2.2.trans_lt hyz.2.2⟩

theorem le_of_lt {x y : Float} (h : x < y) : x ≤ y := by
  rw [lt_iff_value] at h
  rw [le_iff_value]
  exact ⟨h.1, h.2.1, h.2.2.le⟩

theorem not_lt_of_le {x y : Float} (h : x ≤ y) : ¬ y < x := by
  rw [le_iff_value] at h
  rw [lt_iff_value]
  exact fun hlt => absurd hlt.2.2 h.2.2.not_gt

end LeastSquares.Double
