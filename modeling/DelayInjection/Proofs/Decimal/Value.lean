import Mathlib.Algebra.Order.Field.Power
import Mathlib.Algebra.Order.Ring.Rat
import Mathlib.Tactic.NormNum

-- The number that a double stands for, and what its comparisons with zero and one say about it.

namespace DelayInjection.Decimal

open Float.Model Float.Model.UnpackedFloat

-- Both zeros stand for zero; infinities and NaN stand for no number.
def valueOf? (x : Float) : Option ℚ :=
  match x.toModel.unpack with
  | .zero _ => some 0
  | .finite sign mantissa exponent _ => some (sign.apply mantissa * 2 ^ exponent)
  | .infinity _ => none
  | .notANumber => none

theorem unpack_zero : (0 : Float).toModel.unpack = .zero .positive := by rfl

theorem unpack_one :
    (1 : Float).toModel.unpack = .finite .positive (2 ^ 52) (-52) (by decide) := by rfl

section

variable {x : Float} {sign : Sign} {mantissa : Nat} {exponent : Int} {hpos : 0 < mantissa}

-- A mantissa has at most 53 bits, and exactly so many above the smallest exponent.
theorem mantissa_bounds (h : x.toModel.unpack = .finite sign mantissa exponent hpos) :
    mantissa < 2 ^ 53 ∧ (2 ^ 52 ≤ mantissa ∨ exponent = -1074) := by
  unfold Float.Model.unpack UnpackedFloat.unpack at h
  dsimp only at h
  rcases ite_eq_iff.mp h with ⟨-, h⟩ | ⟨-, h⟩
  · rcases ite_eq_iff.mp h with ⟨-, h⟩ | ⟨-, h⟩ <;> cases h
  · rcases ite_eq_iff.mp h with ⟨hsubnormal, h⟩ | ⟨-, h⟩
    · rcases dite_eq_iff.mp h with ⟨hzero, h⟩ | ⟨hzero, h⟩
      · cases h
      · obtain ⟨-, rfl, rfl⟩ := UnpackedFloat.finite.inj h
        refine ⟨Nat.lt_trans (BitVec.isLt _) (by decide), .inr ?_⟩
        rw [hsubnormal]
        rfl
    · obtain ⟨-, rfl, rfl⟩ := UnpackedFloat.finite.inj h
      -- a leading one stands before the 52 bits that are stored
      have hstored := (@unpackMantissa Format.binary64 x.toModel.toBits.toBitVec).isLt
      rw [BitVec.toNat_append, ← Nat.shiftLeft_add_eq_or_of_lt hstored, Nat.shiftLeft_eq]
      change _ < 2 ^ 52 at hstored
      change 1 * 2 ^ 52 + _ < 2 ^ 53 ∧ (2 ^ 52 ≤ 1 * 2 ^ 52 + _ ∨ _)
      omega

end

section

variable {x : Float} {value : ℚ}

theorem le_iff (x y : Float) : x ≤ y ↔ x.toModel.unpack.le y.toModel.unpack = true := by
  change decide (x.toModel.unpack.le y.toModel.unpack = true) = true ↔ _
  rw [decide_eq_true_eq]

theorem isFinite_iff (x : Float) : x.isFinite = true ↔ ∃ value, valueOf? x = some value := by
  rw [← Option.isSome_iff_exists, Float.isFinite, Float.Model.isFinite, valueOf?]
  cases x.toModel.unpack <;> exact Iff.rfl

-- Only doubles that stand for a number lie between two of them.
theorem exists_value (hlow : 0 ≤ x) (hhigh : x ≤ 1) : ∃ value, valueOf? x = some value := by
  rw [le_iff, unpack_zero] at hlow
  rw [le_iff, unpack_one] at hhigh
  rw [valueOf?]
  cases hx : x.toModel.unpack with
  | zero sign => exact ⟨_, rfl⟩
  | finite sign mantissa exponent hpos => exact ⟨_, rfl⟩
  | notANumber =>
      rw [hx] at hlow
      cases hlow
  | infinity sign =>
      rw [hx] at hlow hhigh
      cases sign with
      | negative => cases hlow
      | positive => cases hhigh

-- The two kinds of doubles that stand for a number.
theorem value_cases (h : valueOf? x = some value) :
    (∃ sign, x.toModel.unpack = .zero sign ∧ value = 0) ∨
      ∃ sign mantissa exponent hpos,
        x.toModel.unpack = .finite sign mantissa exponent hpos ∧
          value = sign.apply mantissa * 2 ^ exponent := by
  rw [valueOf?] at h
  cases hx : x.toModel.unpack with
  | zero sign =>
      rw [hx] at h
      exact .inl ⟨sign, rfl, (Option.some.inj h).symm⟩
  | finite sign mantissa exponent hpos =>
      rw [hx] at h
      exact .inr ⟨sign, mantissa, exponent, hpos, rfl, (Option.some.inj h).symm⟩
  | infinity sign | notANumber =>
      rw [hx] at h
      cases h

theorem sign_of_finite (sign : Sign) {mantissa : Nat} (hpos : 0 < mantissa) (exponent : Int) :
    (0 ≤ (sign.apply mantissa * 2 ^ exponent : ℚ) ↔ sign = .positive) := by
  have hscale : (0 : ℚ) < 2 ^ exponent := zpow_pos (by norm_num) _
  have hmantissa : (0 : ℚ) < mantissa := Nat.cast_pos.mpr hpos
  cases sign with
  | positive => simpa [Sign.apply] using (mul_pos hmantissa hscale).le
  | negative => simpa [Sign.apply] using mul_pos hmantissa hscale

theorem zero_le_iff (h : valueOf? x = some value) : 0 ≤ x ↔ 0 ≤ value := by
  rw [le_iff, unpack_zero]
  rcases value_cases h with ⟨sign, hx, rfl⟩ | ⟨sign, mantissa, exponent, hpos, hx, rfl⟩
  · rw [hx]
    exact ⟨fun _ => le_rfl, fun _ => rfl⟩
  · rw [hx, sign_of_finite sign hpos exponent]
    cases sign with
    | positive => exact ⟨fun _ => rfl, fun _ => rfl⟩
    | negative => exact ⟨fun hle => Bool.noConfusion hle, fun hsign => Sign.noConfusion hsign⟩

-- With mantissas of 53 bits, a smaller exponent means a smaller number.
theorem scaled_le_one_iff {mantissa : Nat} {exponent : Int} (hlt : mantissa < 2 ^ 53)
    (hlow : 2 ^ 52 ≤ mantissa ∨ exponent = -1074) :
    (mantissa * 2 ^ exponent : ℚ) ≤ 1 ↔
      exponent < -52 ∨ (exponent = -52 ∧ mantissa ≤ 2 ^ 52) := by
  have hscale : (0 : ℚ) < 2 ^ exponent := zpow_pos (by norm_num) _
  rcases lt_trichotomy exponent (-52) with hbelow | rfl | habove
  · refine iff_of_true ?_ (.inl hbelow)
    calc
      (mantissa * 2 ^ exponent : ℚ) ≤ 2 ^ 53 * 2 ^ exponent :=
        mul_le_mul_of_nonneg_right (by exact_mod_cast hlt.le) hscale.le
      _ ≤ 2 ^ 53 * 2 ^ (-53 : Int) :=
        mul_le_mul_of_nonneg_left (zpow_le_zpow_right₀ (by norm_num) (by omega)) (by norm_num)
      _ = 1 := by norm_num
  · have hunit : (mantissa * 2 ^ (-52 : Int) : ℚ) ≤ 1 ↔ (mantissa : ℚ) ≤ (2 ^ 52 : Nat) := by
      rw [zpow_neg, mul_inv_le_iff₀ (by norm_num)]
      norm_num
    rw [hunit, Nat.cast_le]
    exact ⟨fun hle => .inr ⟨rfl, hle⟩, fun hor => (hor.resolve_left (lt_irrefl _)).2⟩
  · refine iff_of_false (not_le.mpr ?_) (by omega)
    have hfull : 2 ^ 52 ≤ mantissa := hlow.resolve_right (by omega)
    calc
      (1 : ℚ) < 2 ^ 52 * 2 ^ (-51 : Int) := by norm_num
      _ ≤ 2 ^ 52 * 2 ^ exponent :=
        mul_le_mul_of_nonneg_left (zpow_le_zpow_right₀ (by norm_num) (by omega)) (by norm_num)
      _ ≤ mantissa * 2 ^ exponent :=
        mul_le_mul_of_nonneg_right (by exact_mod_cast hfull) hscale.le

theorem le_one_iff (h : valueOf? x = some value) : x ≤ 1 ↔ value ≤ 1 := by
  rw [le_iff, unpack_one]
  rcases value_cases h with ⟨sign, hx, rfl⟩ | ⟨sign, mantissa, exponent, hpos, hx, rfl⟩
  · rw [hx]
    exact ⟨fun _ => zero_le_one, fun _ => rfl⟩
  · obtain ⟨hlt, hlow⟩ := mantissa_bounds hx
    rw [hx]
    cases sign with
    | negative =>
        have hneg := (sign_of_finite .negative hpos exponent).not.mpr Sign.noConfusion
        exact ⟨fun _ => (not_le.mp hneg).le.trans zero_le_one, fun _ => rfl⟩
    | positive =>
        change ((compare exponent (-52)).then (compare mantissa (2 ^ 52))).isLE = true ↔
          ((mantissa : Int) * 2 ^ exponent : ℚ) ≤ 1
        rw [Int.cast_natCast, scaled_le_one_iff hlt hlow, Ordering.isLE_then_iff_or,
          Std.LawfulEqOrd.compare_eq_iff_eq, Std.compare_eq_lt, Nat.isLE_compare]

-- A double lies between zero and one exactly if the number it stands for does.
theorem unit_iff (x : Float) :
    (0 ≤ x ∧ x ≤ 1) ↔ ∃ value, valueOf? x = some value ∧ 0 ≤ value ∧ value ≤ 1 := by
  constructor
  · rintro ⟨hlow, hhigh⟩
    obtain ⟨value, h⟩ := exists_value hlow hhigh
    exact ⟨value, h, (zero_le_iff h).mp hlow, (le_one_iff h).mp hhigh⟩
  · rintro ⟨value, h, hlow, hhigh⟩
    exact ⟨(zero_le_iff h).mpr hlow, (le_one_iff h).mpr hhigh⟩

theorem finite_nonneg_iff (x : Float) :
    (x.isFinite = true ∧ 0 ≤ x) ↔ ∃ value, valueOf? x = some value ∧ 0 ≤ value := by
  rw [isFinite_iff]
  constructor
  · rintro ⟨⟨value, h⟩, hlow⟩
    exact ⟨value, h, (zero_le_iff h).mp hlow⟩
  · rintro ⟨value, h, hlow⟩
    exact ⟨⟨value, h⟩, (zero_le_iff h).mpr hlow⟩

end

end DelayInjection.Decimal
