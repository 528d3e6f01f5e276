import Mathlib
import LeastSquares.Proofs.Double.Order
import LeastSquares.Vec

/-!
# Machine numbers: signs

Rounding never changes a sign, so the sign of a sum, a difference, a product or a quotient is the
one of the exact result.  A zero counts with the sign that its bits give it.
-/

namespace LeastSquares.Double

open Float.Model Float.Model.UnpackedFloat

def unpackedSign? : UnpackedFloat → Option Sign
  | .notANumber => none
  | .infinity s => some s
  | .zero s => some s
  | .finite s _ _ _ => some s

/-- The sign of a machine number; nothing for NaN. -/
def sign? (x : Float) : Option Sign := unpackedSign? x.toModel.unpack

theorem sign_unpack_packComponents (spec : Format) (s : Sign) (e : BitVec spec.exponentBits)
    (m : BitVec spec.mantissaBitsWithoutImplicit) :
    Sign.ofBitVec (unpackSign (packComponents spec s e m)) = s := by
  have hbit : unpackSign (packComponents spec s e m) = s.toBitVec := by
    ext i hi
    obtain rfl : i = 0 := by omega
    simp [unpackSign, packComponents, BitVec.getLsbD_append, BitVec.getElem_append]
  rw [hbit]
  cases s <;> rfl

theorem unpackedSign_packComponents (s : Sign) {e : BitVec 11} (he : e ≠ -1#11) (m : BitVec 52) :
    unpackedSign? (unpack .binary64 (packComponents .binary64 s e m)) = some s := by
  have hs := sign_unpack_packComponents .binary64 s e m
  unfold Float.Model.UnpackedFloat.unpack
  simp only [unpackMantissa_packComponents, unpackExponent_packComponents, if_neg he, hs]
  split
  · split <;> rfl
  · rfl

theorem unpack_packedInfinity (s : Sign) :
    unpack .binary64 (packedInfinity .binary64 s) = .infinity s := by
  cases s <;> rfl

theorem unpackedSign_pack (f : UnpackedFloat) :
    unpackedSign? (unpack .binary64 (pack .binary64 f)) = unpackedSign? f := by
  cases f with
  | notANumber => rfl
  | infinity s => rw [UnpackedFloat.pack, unpack_packedInfinity]
  | zero s => cases s <;> rfl
  | finite s m e hm =>
    unfold Float.Model.UnpackedFloat.pack
    dsimp only
    split
    · rw [unpack_packedInfinity]
      rfl
    · rename_i hfits
      split
      · refine unpackedSign_packComponents s ?_ _
        intro h
        have := congrArg BitVec.toNat h
        simp at this
        omega
      · exact unpackedSign_packComponents s (by decide) _

theorem sign_pack (f : UnpackedFloat) : sign? (.ofModel (.pack f)) = unpackedSign? f :=
  unpackedSign_pack f

theorem unpackedSign_roundWithAccuracy (s : Sign) (m : ℕ) (e : ℤ) (acc : Accuracy) :
    unpackedSign? (roundWithAccuracy .binary64 s m e acc) = some s := by
  unfold roundWithAccuracy
  dsimp only
  split <;> rfl

theorem unpackedSign_normalize (m e : ℤ) :
    unpackedSign? (UnpackedFloat.normalize .binary64 m e .positive) =
      some (if m < 0 then .negative else .positive) := by
  unfold UnpackedFloat.normalize
  rcases lt_trichotomy m 0 with h | rfl | h
  · rw [compare_lt_iff_lt.2 h, if_pos h]
    exact unpackedSign_roundWithAccuracy _ _ _ _
  · rfl
  · rw [compare_gt_iff_gt.2 h, if_neg h.not_gt]
    exact unpackedSign_roundWithAccuracy _ _ _ _

/-! ## Sums and products without a sign -/

/-- The number is NaN or carries no minus. -/
def Unsigned (x : Float) : Prop := sign? x ≠ some .negative

theorem unsigned_zero : Unsigned 0 := by
  unfold Unsigned
  rw [show sign? 0 = some .positive by rfl]
  nofun

theorem unsigned_mul_self (x : Float) : Unsigned (x * x) := by
  unfold Unsigned
  change sign? (.ofModel (.pack (UnpackedFloat.mul .binary64 x.toModel.unpack
    x.toModel.unpack))) ≠ _
  rw [sign_pack]
  generalize x.toModel.unpack = u
  cases u with
  | notANumber => nofun
  | infinity s => cases s <;> nofun
  | zero s => cases s <;> nofun
  | finite s m e hm =>
    rw [UnpackedFloat.mul, unpackedSign_roundWithAccuracy]
    cases s <;> nofun

theorem unpackedSign_add {a b : UnpackedFloat} (ha : unpackedSign? a ≠ some .negative)
    (hb : unpackedSign? b ≠ some .negative) :
    unpackedSign? (UnpackedFloat.add .binary64 a b) ≠ some .negative := by
  have positive : ∀ {s : Sign}, some s ≠ some .negative → s = .positive := by
    rintro (_ | _) h
    · exact absurd rfl h
    · rfl
  rcases a with _ | s | s | ⟨s, m₁, e₁, h₁⟩ <;> rcases b with _ | t | t | ⟨t, m₂, e₂, h₂⟩
  case finite.finite =>
    obtain rfl := positive ha
    obtain rfl := positive hb
    simp only [UnpackedFloat.add, unpackedSign_normalize, Sign.apply]
    rw [if_neg (by omega)]
    rintro ⟨⟩
  -- With a NaN, an infinity or a zero among them the sum is read off.
  all_goals
    try obtain rfl := positive ha
    try obtain rfl := positive hb
    rintro ⟨⟩

theorem unsigned_add {x y : Float} (hx : Unsigned x) (hy : Unsigned y) : Unsigned (x + y) := by
  unfold Unsigned
  change sign? (.ofModel (.pack (UnpackedFloat.add .binary64 x.toModel.unpack
    y.toModel.unpack))) ≠ _
  rw [sign_pack]
  exact unpackedSign_add hx hy

theorem unsigned_dot_self (v : Array Float) : Unsigned (Vec.dot v v) := by
  have hfold : ∀ (xs : List Float) (acc : Float), Unsigned acc → (∀ x ∈ xs, Unsigned x) →
      Unsigned (xs.foldl (· + ·) acc) := by
    intro xs
    induction xs with
    | nil => exact fun acc hacc _ => hacc
    | cons x xs ih =>
      intro acc hacc hxs
      exact ih _ (unsigned_add hacc (hxs x List.mem_cons_self))
        fun y hy => hxs y (List.mem_cons_of_mem _ hy)
  unfold Vec.dot
  rw [← Array.foldl_toList]
  refine hfold _ _ unsigned_zero fun x hx => ?_
  rw [Array.toList_zipWith] at hx
  obtain ⟨i, hi, rfl⟩ := List.mem_iff_getElem.1 hx
  rw [List.getElem_zipWith]
  exact unsigned_mul_self _

/-! ## Differences and quotients -/

theorem sign_of_value_pos {x : Float} (h : 0 < value x) : sign? x = some .positive := by
  unfold value at h
  unfold sign?
  generalize x.toModel.unpack = u at h
  match u with
  | .notANumber => exact absurd h (lt_irrefl _)
  | .infinity .positive => rfl
  | .infinity .negative => exact absurd h not_lt_bot
  | .zero _ => exact absurd h (lt_irrefl _)
  | .finite .positive .. => rfl
  | .finite .negative .. => exact absurd h unpackedValue_negative_neg.not_gt

theorem shifted_mantissa (s : Sign) (m : ℕ) {e t : ℤ} (h : t ≤ e) :
    ((s.apply ((m <<< (e - t).toNat : ℕ) : ℤ) : ℤ) : ℝ) * 2 ^ t = (s.apply m : ℤ) * 2 ^ e := by
  have hpow : (2 : ℝ) ^ e = 2 ^ (e - t).toNat * 2 ^ t := by
    rw [← zpow_natCast, ← zpow_add₀ two_ne_zero, Int.toNat_of_nonneg (by omega)]
    congr 1
    omega
  rw [hpow, Nat.shiftLeft_eq]
  cases s <;> simp only [Sign.apply] <;> push_cast <;> ring

theorem mantissa_sub (s₁ s₂ : Sign) (m₁ m₂ : ℕ) (e₁ e₂ : ℤ) :
    ((s₁.apply ((m₁ <<< (e₁ - min e₁ e₂).toNat : ℕ) : ℤ) -
      s₂.apply ((m₂ <<< (e₂ - min e₁ e₂).toNat : ℕ) : ℤ) : ℤ) : ℝ) * 2 ^ min e₁ e₂ =
    (s₁.apply m₁ : ℤ) * 2 ^ e₁ - (s₂.apply m₂ : ℤ) * 2 ^ e₂ := by
  rw [Int.cast_sub, sub_mul, shifted_mantissa s₁ m₁ (min_le_left _ _),
    shifted_mantissa s₂ m₂ (min_le_right _ _)]

theorem unpackedSign_sub_finite (s₁ s₂ : Sign) (m₁ m₂ : ℕ) (e₁ e₂ : ℤ) (h₁ : 0 < m₁)
    (h₂ : 0 < m₂) :
    unpackedSign? (UnpackedFloat.sub .binary64 (.finite s₁ m₁ e₁ h₁) (.finite s₂ m₂ e₂ h₂)) =
      some (if unpackedValue (.finite s₁ m₁ e₁ h₁) < unpackedValue (.finite s₂ m₂ e₂ h₂)
        then .negative else .positive) := by
  simp only [UnpackedFloat.sub, decreaseExponent, unpackedSign_normalize]
  congr 2
  have hpos : (0 : ℝ) < 2 ^ min e₁ e₂ := by positivity
  have hsub := mantissa_sub s₁ s₂ m₁ m₂ e₁ e₂
  simp only [unpackedValue, EReal.coe_lt_coe_iff, eq_iff_iff]
  refine Iff.trans ?_ sub_neg
  rw [← hsub, mul_neg_iff]
  simp only [hpos, hpos.not_gt, and_true, and_false, false_or, Int.cast_lt_zero]

theorem sub_finite_of_value_eq (s₁ s₂ : Sign) (m₁ m₂ : ℕ) (e₁ e₂ : ℤ) (h₁ : 0 < m₁)
    (h₂ : 0 < m₂)
    (h : unpackedValue (.finite s₁ m₁ e₁ h₁) = unpackedValue (.finite s₂ m₂ e₂ h₂)) :
    UnpackedFloat.sub .binary64 (.finite s₁ m₁ e₁ h₁) (.finite s₂ m₂ e₂ h₂) =
      .zero .positive := by
  have hsub := mantissa_sub s₁ s₂ m₁ m₂ e₁ e₂
  simp only [unpackedValue, EReal.coe_eq_coe_iff] at h
  rw [h, sub_self, mul_eq_zero] at hsub
  have hzero := Int.cast_eq_zero.1 (hsub.resolve_right (by positivity))
  simp only [UnpackedFloat.sub, decreaseExponent, hzero]
  rfl

/-- What the sign of a difference says, for numbers without a minus. -/
theorem sign_sub {x y : Float} (hx : Unsigned x) (hy : Unsigned y) :
    (sign? (x - y) = some .negative → value x < value y) ∧
      (sign? (x - y) = some .positive → value y ≤ value x) ∧
      (value x = value y → value (x - y) = 0) := by
  unfold Unsigned sign? at hx hy
  unfold value
  change (sign? (.ofModel (.pack (UnpackedFloat.sub .binary64 _ _))) = _ → _) ∧
    (sign? (.ofModel (.pack (UnpackedFloat.sub .binary64 _ _))) = _ → _) ∧
    (_ → unpackedValue (unpack .binary64 (pack .binary64 (UnpackedFloat.sub .binary64 _ _))) = 0)
  rw [sign_pack]
  generalize x.toModel.unpack = a at hx ⊢
  generalize y.toModel.unpack = b at hy ⊢
  match a, b with
  | .notANumber, u =>
    rw [show UnpackedFloat.sub .binary64 .notANumber u = .notANumber by cases u <;> rfl]
    exact ⟨nofun, nofun, fun _ => rfl⟩
  | u, .notANumber =>
    rw [show UnpackedFloat.sub .binary64 u .notANumber = .notANumber by cases u <;> rfl]
    exact ⟨nofun, nofun, fun _ => rfl⟩
  | .infinity .negative, _ | .zero .negative, _ | .finite .negative .., _ => exact absurd rfl hx
  | _, .infinity .negative | _, .zero .negative | _, .finite .negative .. => exact absurd rfl hy
  | .infinity .positive, .infinity .positive => exact ⟨nofun, nofun, fun _ => rfl⟩
  | .infinity .positive, .zero .positive => exact ⟨nofun, fun _ => le_top, nofun⟩
  | .infinity .positive, .finite .positive .. =>
    exact ⟨nofun, fun _ => le_top, fun h => absurd h (EReal.coe_ne_top _).symm⟩
  | .zero .positive, .infinity .positive => exact ⟨fun _ => EReal.zero_lt_top, nofun, nofun⟩
  | .zero .positive, .zero .positive => exact ⟨nofun, fun _ => le_rfl, fun _ => rfl⟩
  | .zero .positive, .finite .positive .. =>
    exact ⟨fun _ => unpackedValue_positive_pos, nofun,
      fun h => absurd h unpackedValue_positive_pos.ne⟩
  | .finite .positive .., .infinity .positive =>
    exact ⟨fun _ => EReal.coe_lt_top _, nofun, fun h => absurd h (EReal.coe_ne_top _)⟩
  | .finite .positive .., .zero .positive =>
    exact ⟨nofun, fun _ => unpackedValue_positive_pos.le,
      fun h => absurd h unpackedValue_positive_pos.ne'⟩
  | .finite .positive m₁ e₁ h₁, .finite .positive m₂ e₂ h₂ =>
    rw [unpackedSign_sub_finite]
    refine ⟨?_, ?_, ?_⟩
    · intro h
      by_contra hlt
      simp [if_neg hlt] at h
    · intro h
      by_contra hlt
      simp [if_pos (not_le.1 hlt)] at h
    · intro h
      rw [sub_finite_of_value_eq _ _ _ _ _ _ _ _ h]
      rfl

theorem unpackedValue_zero (s : Sign) :
    unpackedValue (unpack .binary64 (pack .binary64 (.zero s))) = 0 := by
  cases s <;> rfl

theorem sign_eq_of_div_positive {s₁ s₂ : Sign} (h : some (s₁ / s₂) = some Sign.positive) :
    s₁ = s₂ :=
  match s₁, s₂, h with
  | .negative, .negative, _ | .positive, .positive, _ => rfl

theorem unpackedValue_finite_ne_zero (s : Sign) (m : ℕ) (e : ℤ) (hm : 0 < m) :
    unpackedValue (.finite s m e hm) ≠ 0 := by
  cases s
  · exact unpackedValue_negative_neg.ne
  · exact unpackedValue_positive_pos.ne'

/-- The sides of a positive quotient have one sign, and the numerator is no zero. -/
theorem sign_div {x y : Float} (h : 0 < value (x / y)) :
    ∃ s, sign? x = some s ∧ sign? y = some s ∧ value x ≠ 0 := by
  have hsign := sign_of_value_pos h
  unfold value at h ⊢
  unfold sign?
  change sign? (.ofModel (.pack (UnpackedFloat.div .binary64 _ _))) = _ at hsign
  change 0 < unpackedValue (unpack .binary64 (pack .binary64 (UnpackedFloat.div .binary64
    x.toModel.unpack y.toModel.unpack))) at h
  rw [sign_pack] at hsign
  generalize x.toModel.unpack = a at h hsign ⊢
  generalize y.toModel.unpack = b at h hsign ⊢
  match a, b with
  | .notANumber, u => cases u <;> cases hsign
  | u, .notANumber => cases u <;> cases hsign
  | .infinity _, .infinity _ | .zero _, .zero _ => cases hsign
  | .finite .., .infinity _ | .zero _, .infinity _ | .zero _, .finite .. =>
    simp only [UnpackedFloat.div, unpackedValue_zero, lt_irrefl] at h
  | .infinity s₁, .finite s₂ .. | .infinity s₁, .zero s₂ =>
    obtain rfl := sign_eq_of_div_positive hsign
    refine ⟨s₁, rfl, rfl, ?_⟩
    cases s₁
    · exact EReal.bot_ne_zero
    · exact EReal.top_ne_zero
  | .finite s₁ m e hm, .zero s₂ =>
    obtain rfl := sign_eq_of_div_positive hsign
    exact ⟨s₁, rfl, rfl, unpackedValue_finite_ne_zero s₁ m e hm⟩
  | .finite s₁ m e hm, .finite s₂ .. =>
    rw [UnpackedFloat.div, unpackedSign_roundWithAccuracy] at hsign
    obtain rfl := sign_eq_of_div_positive hsign
    exact ⟨s₁, rfl, rfl, unpackedValue_finite_ne_zero s₁ m e hm⟩

theorem isNaN_of_sign_sub {x y : Float} {s : Sign} (h : sign? (x - y) = some s) :
    x.isNaN = false ∧ y.isNaN = false := by
  change sign? (.ofModel (.pack (UnpackedFloat.sub .binary64 x.toModel.unpack
    y.toModel.unpack))) = _ at h
  change x.toModel.unpack.isNaN = false ∧ y.toModel.unpack.isNaN = false
  rw [sign_pack] at h
  generalize x.toModel.unpack = a at h ⊢
  generalize y.toModel.unpack = b at h ⊢
  cases a <;> cases b <;> simp_all [UnpackedFloat.sub, UnpackedFloat.isNaN, unpackedSign?]

theorem lt_of_sign_sub {x y : Float} (hx : Unsigned x) (hy : Unsigned y)
    (h : sign? (x - y) = some .negative) : x < y :=
  have hnan := isNaN_of_sign_sub h
  lt_iff_value.2 ⟨hnan.1, hnan.2, (sign_sub hx hy).1 h⟩

theorem le_of_sign_sub {x y : Float} (hx : Unsigned x) (hy : Unsigned y)
    (h : sign? (x - y) = some .positive) : y ≤ x :=
  have hnan := isNaN_of_sign_sub h
  le_iff_value.2 ⟨hnan.2, hnan.1, (sign_sub hx hy).2.1 h⟩

/-! ## Finite numbers -/

theorem isFinite_of_lt {x y : Float} (hx : Unsigned x) (h : x < y) : x.isFinite = true := by
  obtain ⟨hnan, -, hlt⟩ := lt_iff_value.1 h
  have htop : value x ≠ ⊤ := hlt.ne_top
  unfold Unsigned sign? at hx
  unfold value at htop
  change x.toModel.unpack.isNaN = false at hnan
  change x.toModel.unpack.isFinite = true
  generalize x.toModel.unpack = u at hx hnan htop ⊢
  match u with
  | .notANumber => cases hnan
  | .infinity .positive => exact absurd rfl htop
  | .infinity .negative => exact absurd rfl hx
  | .zero _ | .finite .. => rfl

theorem le_refl_of_isFinite {x : Float} (h : x.isFinite = true) : x ≤ x := by
  have hnan : x.isNaN = false := by
    change x.toModel.unpack.isFinite = true at h
    change x.toModel.unpack.isNaN = false
    cases hu : x.toModel.unpack <;> simp_all [UnpackedFloat.isFinite, UnpackedFloat.isNaN]
  exact le_iff_value.2 ⟨hnan, hnan, le_rfl⟩

theorem not_lt_of_isNaN {x y : Float} (h : x.isNaN = true) : ¬ x < y ∧ ¬ y < x := by
  rw [lt_iff_value, lt_iff_value, h]
  exact ⟨nofun, nofun⟩

theorem scalar_isFinite (x : Float) : Scalar.isFinite x = x.isFinite := by
  change (UnpackedFloat.compare (unpack .binary64 (pack .binary64
    (UnpackedFloat.sub .binary64 x.toModel.unpack x.toModel.unpack)))
      (.zero .positive) == some .eq) = x.toModel.unpack.isFinite
  generalize x.toModel.unpack = u
  match u with
  | .notANumber | .infinity .positive | .infinity .negative => rfl
  | .zero .positive | .zero .negative => rfl
  | .finite s m e hm =>
    rw [sub_finite_of_value_eq _ _ _ _ _ _ _ _ rfl]
    rfl

end LeastSquares.Double
