import ArithTree.Proofs.Double.Arithmetic
import ArithTree.Proofs.Double.Conversion

/-!
# ArithTree.Proofs.Double.Exact

What is computed with doubles without rounding: the absolute value, the floor, and the double of an integer that
has no more than fifty-three bits.

* `Rounds.isFinite`: only numbers that are too large are rounded to an infinity.
* `value_abs`, `floor?_eq`, `value_ofInt`: the three operations.
-/

namespace ArithTree
namespace Double

open Float.Model UnpackedFloat

variable {x : Float}

/-! ## Size -/

theorem abs_value_lt (hx : isFinite x = true) : |value x| < 2 ^ (1024 : Int) := by
  cases hb : Binary.ofFloat x with
  | nan => simp [isFinite, hb, Binary.isFinite] at hx
  | infinite s => simp [isFinite, hb, Binary.isFinite] at hx
  | finite s m e =>
    have hm : ((signed s m).natAbs : Rat) < 2 ^ 53 := by
      rw [natAbs_signed]
      exact_mod_cast (ofFloat_canonical hb).lt
    have hunit : (0 : Rat) < 2 ^ e := by positivity
    rw [value_of_ofFloat hb, abs_mul, abs_of_pos hunit, ← Int.cast_abs, Int.abs_eq_natAbs, Int.cast_natCast]
    calc ((signed s m).natAbs : Rat) * 2 ^ e < 2 ^ 53 * 2 ^ e := mul_lt_mul_of_pos_right hm hunit
      _ ≤ 2 ^ 53 * 2 ^ (971 : Int) := by
        have hpow : (2 : Rat) ^ e ≤ 2 ^ (971 : Int) := zpow_le_zpow_right₀ (by norm_num) (ofFloat_exponent_le hb)
        exact mul_le_mul_of_nonneg_left hpow (by positivity)
      _ = 2 ^ (1024 : Int) := by
        rw [← zpow_natCast, ← zpow_add₀ two_ne_zero]
        rfl

/-- Nothing up to a representable number within the range is rounded out of the range. -/
theorem Rounds.isFinite {v w : Rat} (h : Rounds v x) (hw : Representable w) (hle : |v| ≤ w)
    (hlt : w < 2 ^ (1024 : Int)) : isFinite x = true := by
  cases h with
  | finite hx _ => exact hx
  | @infinite r s _ hnearest hlarge =>
    have hr := hnearest.abs.ge_of_ge hw hle
    have habs := le_abs_self r
    have hneg := neg_le_abs r
    rcases signValue_cases s with hs | hs <;> rw [hs] at hlarge <;> linarith

theorem ofFloat_zero : Binary.ofFloat 0 = .finite false 0 (-1074) := by decide

theorem isFinite_zero : isFinite 0 = true := by
  rw [isFinite, ofFloat_zero]
  rfl

theorem value_zero : value 0 = 0 := by
  rw [value_of_ofFloat ofFloat_zero]
  simp [signed]

theorem zero_lt_iff (hx : isFinite x = true) : 0 < x ↔ 0 < value x := by
  rw [lt_iff isFinite_zero hx, value_zero]

/-! ## Absolute values -/

theorem abs_unpacked {u : UnpackedFloat} (hu : Normalized u) :
    Normalized u.abs ∧ unpackedValue u.abs = |unpackedValue u| := by
  cases u with
  | notANumber => cases hu
  | infinity s => cases hu
  | zero s => exact ⟨trivial, abs_zero.symm⟩
  | finite s m e hm =>
    have hpos : (0 : Rat) ≤ m * 2 ^ e := by positivity
    refine ⟨hu, ?_⟩
    cases s with
    | positive => simp [UnpackedFloat.abs, unpackedValue, signValue, abs_of_nonneg hpos]
    | negative => simp [UnpackedFloat.abs, unpackedValue, signValue, abs_of_nonneg hpos]

theorem value_abs (hx : isFinite x = true) : isFinite x.abs = true ∧ value x.abs = |value x| := by
  obtain ⟨hnormal, habs⟩ := abs_unpacked (normalized_of_isFinite hx)
  have hrepresentable : Representable |value x| := ((Nearest.refl (representable_value hx)).abs).representable
  have hrounds : Rounds |value x| x.abs := by
    refine rounds_pack hnormal ?_
    rw [habs]
    exact .refl hrepresentable
  have hfinite : isFinite x.abs = true :=
    hrounds.isFinite hrepresentable (abs_abs _).le (abs_value_lt hx)
  exact ⟨hfinite, (hrounds.nearest hfinite).eq hrepresentable⟩

/-! ## Floors -/

theorem isSome_floor? (x : Float) : (floor? x).isSome = isFinite x := by
  rw [floor?, isFinite]
  cases Binary.ofFloat x with
  | nan => rfl
  | infinite s => rfl
  | finite s m e => rfl

theorem floorOf_eq (s : Bool) (m : Nat) (e : Int) :
    Binary.floorOf s m e = ⌊((signed s m : Int) * 2 ^ e : Rat)⌋ := by
  rw [Binary.floorOf]
  split
  · rename_i hnonneg
    have hpow : (2 : Rat) ^ e = ((2 ^ e.toNat : Nat) : Int) := by
      rw [← Int.toNat_of_nonneg hnonneg, zpow_natCast, Int.toNat_natCast]
      push_cast
      rfl
    rw [hpow, ← Int.cast_mul, Int.floor_intCast, Nat.shiftLeft_eq, signed_mul]
  · rename_i hneg
    have hpow : (2 : Rat) ^ e = (((1 <<< (-e).toNat : Nat) : Nat) : Rat)⁻¹ := by
      have hexponent : e = -((-e).toNat : Int) := by omega
      conv_lhs => rw [hexponent, zpow_neg, zpow_natCast]
      rw [Nat.one_shiftLeft]
      push_cast
      rfl
    rw [hpow, ← div_eq_mul_inv, Rat.floor_intCast_div_natCast, Int.fdiv_eq_ediv_of_nonneg _ (Int.natCast_nonneg _)]

theorem floor?_eq (hx : isFinite x = true) : floor? x = some ⌊value x⌋ := by
  cases hb : Binary.ofFloat x with
  | nan => simp [isFinite, hb, Binary.isFinite] at hx
  | infinite s => simp [isFinite, hb, Binary.isFinite] at hx
  | finite s m e => rw [floor?, hb, Binary.floor?, floorOf_eq, value_of_ofFloat hb]

/-! ## Integers -/

section Integers

variable {n : Nat}

/-- The fields of a normal double. -/
theorem ofFloat_ofBits {field fraction : Nat} (hfield : field < 2047) (hnormal : field ≠ 0)
    (hfraction : fraction < 2 ^ 52) :
    Binary.ofFloat (Float.ofBits (UInt64.ofNat (field * 2 ^ 52 + fraction))) =
      .finite false ((1 <<< 52) + fraction) ((field : Int) - 1075) := by
  have hsize : field * 2 ^ 52 + fraction < 2 ^ 64 := by omega
  have hnat : (UInt64.ofNat (field * 2 ^ 52 + fraction)).toNat = field * 2 ^ 52 + fraction :=
    UInt64.toNat_ofNat_of_lt' hsize
  have hshift : ((field * 2 ^ 52 + fraction) >>> 52) % (1 <<< 11) = field := by
    rw [Nat.shiftRight_eq_div_pow, Nat.one_shiftLeft]
    omega
  have hrest : (field * 2 ^ 52 + fraction) % (1 <<< 52) = fraction := by
    rw [Nat.one_shiftLeft]
    omega
  have hsign : ¬ 1 <<< 63 ≤ field * 2 ^ 52 + fraction := by
    rw [Nat.one_shiftLeft]
    omega
  have hbits : (Float.ofBits (UInt64.ofNat (field * 2 ^ 52 + fraction))).toBits =
      UInt64.ofNat (field * 2 ^ 52 + fraction) := by
    refine toBits_ofBits ?_
    rw [hnat, hshift]
    exact hfield.ne
  simp only [Binary.ofFloat, hbits, hnat, hshift, hrest, if_neg hfield.ne, if_neg hnormal, decide_eq_false hsign]

/-- With zeros appended up to the leading bit, the significand of an integer is full. -/
theorem full_significand (hn : n ≠ 0) (hlog : n.log2 ≤ 52) :
    2 ^ 52 ≤ n * 2 ^ (52 - n.log2) ∧ n * 2 ^ (52 - n.log2) < 2 ^ 53 := by
  have hunit : 0 < 2 ^ (52 - n.log2) := Nat.two_pow_pos _
  have hsplit : 2 ^ n.log2 * 2 ^ (52 - n.log2) = 2 ^ 52 := by
    rw [← Nat.pow_add]
    congr 1
    omega
  constructor
  · rw [← hsplit]
    exact Nat.mul_le_mul_right _ (Nat.log2_self_le hn)
  · calc n * 2 ^ (52 - n.log2) < 2 ^ (n.log2 + 1) * 2 ^ (52 - n.log2) :=
          Nat.mul_lt_mul_of_pos_right Nat.lt_log2_self hunit
      _ = 2 ^ 52 * 2 := by rw [Nat.pow_succ, Nat.mul_right_comm, hsplit]
      _ = 2 ^ 53 := by decide

theorem ofFloat_ofInt (hn : n ≠ 0) (h : n < 2 ^ 53) :
    Binary.ofFloat (ofInt n) = .finite false (n * 2 ^ (52 - n.log2)) ((n.log2 : Int) - 52) := by
  have hlog : n.log2 ≤ 52 := Nat.le_of_lt_succ ((Nat.log2_lt hn).mpr h)
  obtain ⟨hlead, hfull⟩ := full_significand hn hlog
  have hscaled : scaleTwo n 1 (-gridExponent n 1) = (n * 2 ^ (52 - n.log2), 1) := by
    rw [gridExponent_one hn]
    rcases scaleTwo_cases n n.log2 with ⟨-, hscaled⟩ | ⟨hlarge, -⟩
    · exact hscaled
    · omega
  have hexponent : (gridExponent n 1 + 1074).toNat = n.log2 + 1022 := by
    rw [gridExponent_one hn]
    omega
  obtain ⟨m, hm⟩ : ∃ m, n * 2 ^ (52 - n.log2) = m := ⟨_, rfl⟩
  rw [hm] at hlead hfull hscaled ⊢
  obtain ⟨fraction, rfl⟩ : ∃ fraction, m = 2 ^ 52 + fraction := ⟨m - 2 ^ 52, by omega⟩
  have hmagnitude : min (((n.log2 + 1022) <<< 52) + (2 ^ 52 + fraction)) (2047 <<< 52) =
      (n.log2 + 1023) * 2 ^ 52 + fraction := by
    rw [Nat.shiftLeft_eq, Nat.shiftLeft_eq]
    omega
  have hnonneg : decide ((n : Int) < 0) = false := decide_eq_false (by omega)
  have hofInt : ofInt n = Float.ofBits (UInt64.ofNat ((n.log2 + 1023) * 2 ^ 52 + fraction)) := by
    simp only [ofInt, ofRatio, Int.natAbs_natCast, if_neg hn, hscaled, hexponent, roundDiv_one, hmagnitude, hnonneg,
      if_neg Bool.false_ne_true, Nat.add_zero]
  have hbiased : ((n.log2 + 1023 : Nat) : Int) - 1075 = (n.log2 : Int) - 52 := by omega
  rw [hofInt, ofFloat_ofBits (by omega) (by omega) (by omega), Nat.one_shiftLeft, hbiased]

theorem value_ofInt (h : n < 2 ^ 53) : isFinite (ofInt n) = true ∧ value (ofInt n) = n := by
  by_cases hn : n = 0
  · subst hn
    have hzero : ofInt (0 : Nat) = 0 := by decide
    rw [hzero, Nat.cast_zero]
    exact ⟨isFinite_zero, value_zero⟩
  · have hb := ofFloat_ofInt hn h
    have hlog : n.log2 ≤ 52 := Nat.le_of_lt_succ ((Nat.log2_lt hn).mpr h)
    refine ⟨by rw [isFinite, hb]; rfl, ?_⟩
    have hunit : (2 : Rat) ^ ((n.log2 : Int) - 52) = ((2 : Rat) ^ (52 - n.log2))⁻¹ := by
      rw [← zpow_natCast, ← zpow_neg]
      congr 1
      omega
    rw [value_of_ofFloat hb, hunit, signed, if_neg Bool.false_ne_true]
    push_cast
    rw [mul_inv_cancel_right₀ (by positivity)]

end Integers

end Double
end ArithTree
