import ArithTree.Double.Rounding
import ArithTree.Proofs.Double.Equality
import Mathlib

/-!
# ArithTree.Proofs.Double.Conversion

Integers that fit into a double. An integer is rounded to a finite double if it is at most one away
from the largest of them (`isFinite_ofInt`). So a count that is the floor of a double can be
converted back, and so can its successor (`ofInt?_of_floor?`).
-/

namespace ArithTree
namespace Double

/-- The largest finite double. -/
def greatest : Nat := (2 ^ 53 - 1) * 2 ^ 971

/-! ## Bits -/

theorem toBits_ofBits {u : UInt64} (h : (u.toNat >>> 52) % (1 <<< 11) ≠ 2047) :
    (Float.ofBits u).toBits = u := by
  have hexponent :
      @Float.Model.UnpackedFloat.unpackExponent Float.Model.Format.binary64 u.toBitVec ≠ -1#_ := by
    intro hall
    refine h ?_
    have hnat := toNat_unpackExponent u.toBitVec
    rw [hall] at hnat
    exact hnat.symm
  -- Other than for a NaN, any bits are those of a double, and a double is read back from its bits.
  let model : Float.Model := ⟨u, ⟨fun hall => absurd hall hexponent⟩⟩
  exact congrArg Float.toBits (Float.ofBits_toBits ⟨model⟩)

theorem isFinite_ofBits {u : UInt64} (h : (u.toNat >>> 52) % (1 <<< 11) ≠ 2047) :
    isFinite (Float.ofBits u) = true := by
  simp only [isFinite, Binary.ofFloat, toBits_ofBits h, h, if_false]
  split <;> rfl

theorem isFinite_ofMagnitude {magnitude : Nat} (h : magnitude < 2047 <<< 52) (negative : Bool) :
    isFinite (Float.ofBits (UInt64.ofNat (magnitude + if negative then 1 <<< 63 else 0))) = true := by
  refine isFinite_ofBits ?_
  have hlt : (magnitude + if negative then 1 <<< 63 else 0) < 2 ^ 64 := by
    cases negative <;> simp <;> omega
  rw [UInt64.toNat_ofNat_of_lt' hlt, Nat.shiftRight_eq_div_pow]
  cases negative <;> simp <;> omega

/-! ## Rounding an integer -/

section Rounding

variable {n : Nat}

theorem scaleTwo_cases (n k : Nat) :
    (k ≤ 52 ∧ scaleTwo n 1 (-((k : Int) - 52)) = (n * 2 ^ (52 - k), 1)) ∨
      (52 < k ∧ scaleTwo n 1 (-((k : Int) - 52)) = (n, 2 ^ (k - 52))) := by
  rcases Nat.lt_or_ge 52 k with hk | hk
  · refine .inr ⟨hk, ?_⟩
    have hto : (-(-((k : Int) - 52))).toNat = k - 52 := by omega
    rw [scaleTwo, if_neg (by omega), hto, Nat.one_shiftLeft]
  · refine .inl ⟨hk, ?_⟩
    have hto : (-((k : Int) - 52)).toNat = 52 - k := by omega
    rw [scaleTwo, if_pos (by omega), hto, Nat.shiftLeft_eq]

/-- The first guess at the exponent is right for an integer. -/
theorem gridExponent_one (hn : n ≠ 0) : gridExponent n 1 = (Nat.log2 n : Int) - 52 := by
  have hle : 2 ^ Nat.log2 n ≤ n := Nat.log2_self_le hn
  have hone : ((Nat.log2 1 : Nat) : Int) = 0 := rfl
  have hwide : ¬ (scaleTwo n 1 (-((Nat.log2 n : Int) - 52))).1 <
      (scaleTwo n 1 (-((Nat.log2 n : Int) - 52))).2 <<< 52 := by
    rcases scaleTwo_cases n (Nat.log2 n) with ⟨hk, hscaled⟩ | ⟨hk, hscaled⟩
    · rw [hscaled, Nat.not_lt]
      calc 1 <<< 52 = 2 ^ (Nat.log2 n + (52 - Nat.log2 n)) := by
            rw [Nat.add_sub_cancel' hk, Nat.one_shiftLeft]
        _ = 2 ^ Nat.log2 n * 2 ^ (52 - Nat.log2 n) := Nat.pow_add ..
        _ ≤ n * 2 ^ (52 - Nat.log2 n) := Nat.mul_le_mul_right _ hle
    · rw [hscaled, Nat.not_lt]
      calc 2 ^ (Nat.log2 n - 52) <<< 52 = 2 ^ (Nat.log2 n - 52 + 52) := by
            rw [Nat.shiftLeft_eq, Nat.pow_add]
        _ = 2 ^ Nat.log2 n := by rw [Nat.sub_add_cancel (Nat.le_of_lt hk)]
        _ ≤ n := hle
  simp only [gridExponent, hone, Int.sub_zero, if_neg hwide]
  omega

theorem roundDiv_one (n : Nat) : roundDiv n 1 = n := by
  simp [roundDiv, Nat.mod_one]

theorem roundDiv_le {d : Nat} (h : n < 2 ^ 53 * d) : roundDiv n d ≤ 2 ^ 53 := by
  have hround := roundDiv_mul_le n d
  by_contra hlt
  have hmul : (2 ^ 53 + 1) * d ≤ roundDiv n d * d := Nat.mul_le_mul_right d (by omega)
  omega

theorem roundDiv_lt {d : Nat} (hd : 2 < d) (h : n ≤ (2 ^ 53 - 1) * d + 1) :
    roundDiv n d < 2 ^ 53 := by
  have hround := roundDiv_mul_le n d
  by_contra hle
  have hmul : 2 ^ 53 * d ≤ roundDiv n d * d := Nat.mul_le_mul_right d (by omega)
  omega

theorem two_lt_two_pow {k : Nat} (hk : 2 ≤ k) : 2 < 2 ^ k :=
  calc 2 < 2 ^ 2 := by decide
    _ ≤ 2 ^ k := Nat.pow_le_pow_right (by decide) hk

theorem log2_lt {k : Nat} (hk : 2 ≤ k) (hn : n ≠ 0) (h : n ≤ (2 ^ 53 - 1) * 2 ^ k + 1) :
    Nat.log2 n < 53 + k := by
  have hunit := two_lt_two_pow hk
  rw [Nat.log2_lt hn, Nat.pow_add]
  omega

/-- The magnitude of the double nearest to an integer is below that of an infinity. -/
theorem magnitude_lt (hn : n ≠ 0) (h : n ≤ greatest + 1) :
    ((gridExponent n 1 + 1074).toNat <<< 52) +
        roundDiv (scaleTwo n 1 (-gridExponent n 1)).1 (scaleTwo n 1 (-gridExponent n 1)).2 <
      2047 <<< 52 := by
  have hlt : n < 2 ^ (Nat.log2 n + 1) := Nat.lt_log2_self
  have hlog : Nat.log2 n < 53 + 971 := log2_lt (by decide) hn h
  have hto : ((Nat.log2 n : Int) - 52 + 1074).toNat = Nat.log2 n + 1022 := by omega
  rw [gridExponent_one hn, hto, Nat.shiftLeft_eq, Nat.shiftLeft_eq]
  rcases scaleTwo_cases n (Nat.log2 n) with ⟨hk, hscaled⟩ | ⟨hk, hscaled⟩
  · have hsmall : n * 2 ^ (52 - Nat.log2 n) < 2 ^ 53 :=
      calc n * 2 ^ (52 - Nat.log2 n) < 2 ^ (Nat.log2 n + 1) * 2 ^ (52 - Nat.log2 n) :=
            Nat.mul_lt_mul_of_pos_right hlt (Nat.two_pow_pos _)
        _ = 2 ^ (Nat.log2 n + 1 + (52 - Nat.log2 n)) := (Nat.pow_add ..).symm
        _ = 2 ^ 53 := by congr 1; omega
    rw [hscaled, roundDiv_one]
    omega
  · have hwhole : n < 2 ^ 53 * 2 ^ (Nat.log2 n - 52) := by
      have hsum : 53 + (Nat.log2 n - 52) = Nat.log2 n + 1 := by omega
      rwa [← Nat.pow_add, hsum]
    rw [hscaled]
    dsimp only
    -- Rounding up to `2 ^ 53` reaches the next exponent, which is too far for the largest one only.
    rcases Nat.lt_or_ge (Nat.log2 n) 1023 with hless | hmost
    · have hround := roundDiv_le hwhole
      omega
    · have hunit : Nat.log2 n - 52 = 971 := by omega
      have hround : roundDiv n (2 ^ (Nat.log2 n - 52)) < 2 ^ 53 := by
        rw [hunit]
        exact roundDiv_lt (two_lt_two_pow (by decide)) h
      omega

end Rounding

theorem isFinite_ofInt {k : Int} (h : k.natAbs ≤ greatest + 1) : isFinite (ofInt k) = true := by
  refine isFinite_ofMagnitude ?_ (decide (k < 0))
  by_cases hk : k.natAbs = 0
  · simp only [hk, if_true]
    decide
  · simp only [hk, if_false]
    exact Nat.lt_of_le_of_lt (Nat.min_le_left _ _) (magnitude_lt hk h)

theorem ofInt?_of_le {k : Int} (h : k.natAbs ≤ greatest + 1) : ofInt? k = some (ofInt k) := by
  simp only [ofInt?, isFinite_ofInt h, if_true]

/-! ## The floor of a double -/

theorem ofFloat_exponent_le {x : Float} {s : Bool} {m : Nat} {e : Int}
    (h : Binary.ofFloat x = .finite s m e) : e ≤ 971 := by
  have hfield : (x.toBits.toNat >>> 52) % (1 <<< 11) < 2 ^ 11 := Nat.mod_lt _ (by decide)
  simp only [Binary.ofFloat] at h
  split at h
  · split at h <;> cases h
  · split at h
    · cases h
      omega
    · cases h
      omega

theorem mul_two_pow_le {m k j : Nat} (hm : m ≤ 2 ^ 53 - 1) (hk : k ≤ j) :
    m * 2 ^ k ≤ (2 ^ 53 - 1) * 2 ^ j :=
  Nat.mul_le_mul hm (Nat.pow_le_pow_right Nat.two_pos hk)

theorem natAbs_fdiv_le (a : Int) (d : Nat) : (Int.fdiv a d).natAbs ≤ a.natAbs := by
  rw [Int.fdiv_eq_ediv_of_nonneg a (Int.natCast_nonneg d)]
  exact Int.natAbs_ediv_le_natAbs a d

theorem natAbs_floor?_le {x : Float} {n : Int} (h : floor? x = some n) : n.natAbs ≤ greatest := by
  unfold floor? at h
  cases hx : Binary.ofFloat x with
  | nan =>
    rw [hx] at h
    cases h
  | infinite s =>
    rw [hx] at h
    cases h
  | finite s m e =>
    rw [hx] at h
    cases h
    have hm : m ≤ 2 ^ 53 - 1 := Nat.le_sub_one_of_lt (ofFloat_canonical hx).lt
    have he := ofFloat_exponent_le hx
    unfold Binary.floorOf
    split
    · rw [natAbs_signed, Nat.shiftLeft_eq]
      exact mul_two_pow_le hm (by omega)
    · calc (Int.fdiv (signed s m) _).natAbs ≤ (signed s m).natAbs := natAbs_fdiv_le _ _
        _ = m * 2 ^ 0 := by rw [natAbs_signed, Nat.pow_zero, Nat.mul_one]
        _ ≤ greatest := mul_two_pow_le hm (by decide)

/-- No count up to the successor of a floor is too large for a double. -/
theorem ofInt?_of_floor? {x : Float} {n k : Int} (hx : floor? x = some n)
    (hk : k.natAbs ≤ n.natAbs + 1) : ofInt? k = some (ofInt k) := by
  have hn := natAbs_floor?_le hx
  exact ofInt?_of_le (by omega)

end Double
end ArithTree
