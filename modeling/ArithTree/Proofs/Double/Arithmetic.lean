import ArithTree.Proofs.Double.Value

/-!
# ArithTree.Proofs.Double.Arithmetic

The four operations on finite doubles. Each of them rounds the exact result, whatever the signs and the
exponents; only a quotient by zero has none.

* `add_rounds`, `sub_rounds`, `mul_rounds`, `div_rounds`: the operations.
* `reads_fraction`: a remainder says enough about a quotient to round it.
-/

namespace ArithTree
namespace Double

open Float.Model UnpackedFloat

/-! ## Sums and differences -/

section Sums

theorem apply_decreaseExponent (s : Sign) {m : Nat} {e t : Int} (h : t ≤ e) :
    ((s.apply (decreaseExponent m e t).1 : Int) : Rat) * 2 ^ t = signValue s * (m * 2 ^ e) := by
  have hexponent : (decreaseExponent m e t).2 = t := by
    simp only [decreaseExponent]
    omega
  have hvalue := decreaseExponent_value m e t
  rw [hexponent] at hvalue
  cases s with
  | positive => simpa [Sign.apply, signValue] using hvalue
  | negative => simpa [Sign.apply, signValue] using hvalue

variable {u v : UnpackedFloat}

theorem nearest_self (hu : Normalized u) : Normalized u ∧ Nearest (unpackedValue u) (unpackedValue u) :=
  ⟨hu, .refl (representable_unpackedValue hu)⟩

theorem add_nearest (hu : Normalized u) (hv : Normalized v) :
    Normalized (UnpackedFloat.add Format.binary64 u v) ∧
      Nearest (unpackedValue u + unpackedValue v) (unpackedValue (UnpackedFloat.add Format.binary64 u v)) := by
  cases u with
  | notANumber => cases hu
  | infinity s => cases hu
  | zero s =>
    have hzero : unpackedValue (.zero s) + unpackedValue v = unpackedValue v := zero_add _
    rw [hzero]
    cases v with
    | notANumber => cases hv
    | infinity t => cases hv
    | zero t =>
      cases s <;> cases t <;> exact nearest_self trivial
    | finite t n f hn => exact nearest_self hv
  | finite s m e hm =>
    cases v with
    | notANumber => cases hv
    | infinity t => cases hv
    | zero t =>
      have hzero : unpackedValue (.finite s m e hm) + unpackedValue (.zero t) = unpackedValue (.finite s m e hm) :=
        add_zero _
      rw [hzero]
      exact nearest_self hu
    | finite t n f hn =>
      have hround := normalize_nearest (s.apply (decreaseExponent m e (min e f)).1 +
        t.apply (decreaseExponent n f (min e f)).1) (min e f) .positive
      rw [Int.cast_add, add_mul, apply_decreaseExponent s (min_le_left e f),
        apply_decreaseExponent t (min_le_right e f)] at hround
      exact hround

theorem signValue_neg (s : Sign) : signValue (-s) = -signValue s := by
  cases s with
  | positive => rfl
  | negative => exact (neg_neg 1).symm

theorem unpackedValue_neg (v : UnpackedFloat) : unpackedValue v.neg = -unpackedValue v := by
  cases v with
  | finite t n f hn => simp [UnpackedFloat.neg, unpackedValue, signValue_neg]
  | _ => exact neg_zero.symm

theorem normalized_neg (hv : Normalized v) : Normalized v.neg := by
  cases v with
  | notANumber => cases hv
  | infinity t => cases hv
  | zero t => trivial
  | finite t n f hn => exact hv

theorem apply_neg (s : Sign) (a : Int) : (-s).apply a = -s.apply a := by
  cases s with
  | positive => rfl
  | negative => exact (Int.neg_neg a).symm

theorem sub_eq_add (hu : Normalized u) (hv : Normalized v) :
    UnpackedFloat.sub Format.binary64 u v = UnpackedFloat.add Format.binary64 u v.neg := by
  cases u with
  | notANumber => cases hu
  | infinity s => cases hu
  | zero s =>
    cases v with
    | notANumber => cases hv
    | infinity t => cases hv
    | zero t => rfl
    | finite t n f hn => rfl
  | finite s m e hm =>
    cases v with
    | notANumber => cases hv
    | infinity t => cases hv
    | zero t => rfl
    | finite t n f hn =>
      simp only [UnpackedFloat.sub, UnpackedFloat.add, UnpackedFloat.neg, apply_neg, Int.sub_eq_add_neg]

end Sums

/-! ## Products -/

section Products

variable {u v : UnpackedFloat}

theorem signValue_mul (s t : Sign) : signValue (s * t) = signValue s * signValue t := by
  cases s <;> cases t
  · exact (show (1 : Rat) = -1 * -1 by norm_num)
  · exact (mul_one _).symm
  · exact (one_mul _).symm
  · exact (one_mul _).symm

theorem le_log2 {m k : Nat} (h : 2 ^ k ≤ m) : k ≤ m.log2 :=
  (Nat.le_log2 (by have := Nat.two_pow_pos k; omega)).mpr h

/-- The product of two canonical significands is long enough, or its exponent small enough, to be rounded without
zeros appended. -/
theorem mul_exponent_le {m n : Nat} {e f : Int} (hm : m ≠ 0) (hn : n ≠ 0) (hcm : Canonical m e) (hcn : Canonical n f) :
    e + f ≤ max (((m * n).log2 : Int) + (e + f) - 52) (-1074) := by
  have hleft : m ≤ m * n := Nat.le_mul_of_pos_right m (by omega)
  have hright : n ≤ m * n := Nat.le_mul_of_pos_left n (by omega)
  rcases hcm.full with hlead | rfl
  · have hlog := le_log2 (hlead.trans hleft)
    omega
  · rcases hcn.full with hlead | rfl
    · have hlog := le_log2 (hlead.trans hright)
      omega
    · omega

theorem mul_nearest (hu : Normalized u) (hv : Normalized v) :
    Normalized (UnpackedFloat.mul Format.binary64 u v) ∧
      Nearest (unpackedValue u * unpackedValue v) (unpackedValue (UnpackedFloat.mul Format.binary64 u v)) := by
  cases u with
  | notANumber => cases hu
  | infinity s => cases hu
  | zero s =>
    have hzero : unpackedValue (.zero s) * unpackedValue v = 0 := zero_mul _
    rw [hzero]
    cases v with
    | notANumber => cases hv
    | infinity t => cases hv
    | zero t => exact nearest_self trivial
    | finite t n f hn => exact nearest_self trivial
  | finite s m e hm =>
    cases v with
    | notANumber => cases hv
    | infinity t => cases hv
    | zero t =>
      have hzero : unpackedValue (.finite s m e hm) * unpackedValue (.zero t) = 0 := mul_zero _
      rw [hzero]
      exact nearest_self trivial
    | finite t n f hn =>
      have hround := roundWithAccuracy_exact (s * t) (mul_exponent_le hm.ne' hn.ne' hu hv)
      have hexact : signValue (s * t) * (((m * n : Nat) : Rat) * 2 ^ (e + f)) =
          unpackedValue (.finite s m e hm) * unpackedValue (.finite t n f hn) := by
        rw [signValue_mul, zpow_add₀ two_ne_zero, unpackedValue, unpackedValue]
        push_cast
        ring
      rw [hexact] at hround
      exact hround

end Products

/-! ## Quotients -/

section Quotients

variable {u v : UnpackedFloat}

theorem reads_fraction (n : Nat) {d : Nat} (hd : 0 < d) :
    Reads (ExtendedMantissa.ofMantissaAndAccuracy (n / d) (accuracyOfFraction (n % d) d)) ((n : Rat) / d) := by
  have hpos : (0 : Rat) < d := by exact_mod_cast hd
  have hsplit : (n : Rat) = d * (n / d : Nat) + (n % d : Nat) := by exact_mod_cast (Nat.div_add_mod n d).symm
  obtain ⟨x, hx⟩ : ∃ x : Rat, x = n / d := ⟨_, rfl⟩
  have hmul : x * d = d * (n / d : Nat) + (n % d : Nat) := by
    rw [hx, div_mul_cancel₀ _ hpos.ne', ← hsplit]
  have hless : ((n % d : Nat) : Rat) < d := by exact_mod_cast Nat.mod_lt n hd
  rw [← hx]
  generalize n / d = q at hmul ⊢
  generalize n % d = r at hmul hless ⊢
  by_cases hr : r = 0
  · subst hr
    have heq : x = q := by
      rw [Nat.cast_zero, add_zero, mul_comm] at hmul
      exact mul_left_cancel₀ hpos.ne' hmul
    rw [heq]
    exact reads_exact q
  · have hr' : (0 : Rat) < r := by exact_mod_cast Nat.pos_of_ne_zero hr
    rw [accuracyOfFraction, if_neg hr]
    rcases lt_trichotomy (2 * r) d with hlt | heq | hgt
    · have hcast : 2 * (r : Rat) < d := by exact_mod_cast hlt
      rw [Nat.compare_eq_lt.mpr hlt]
      simp only [Reads, ExtendedMantissa.ofMantissaAndAccuracy]
      constructor <;> simp <;> nlinarith
    · have hcast : 2 * (r : Rat) = d := by exact_mod_cast heq
      rw [Nat.compare_eq_eq.mpr heq]
      simp only [Reads, ExtendedMantissa.ofMantissaAndAccuracy]
      simp
      nlinarith
    · have hcast : (d : Rat) < 2 * r := by exact_mod_cast hgt
      rw [Nat.compare_eq_gt.mpr hgt]
      simp only [Reads, ExtendedMantissa.ofMantissaAndAccuracy]
      constructor <;> simp <;> nlinarith

/-- The quotient is carried to as many bits as its exponent asks for. -/
theorem div_exponent_le {m n : Nat} {e f t : Int} (hm : m ≠ 0) (hn : n ≠ 0) (ht : t ≤ e - f)
    (htarget : t ≤ Format.binary64.targetExponent (totalExponent m e - totalExponent n f)) :
    t ≤ max (((m <<< (e - f - t).toNat / n).log2 : Int) + t - 52) (-1074) := by
  by_cases hleast : t ≤ -1074
  · omega
  · have hgap : n.log2 + 53 ≤ m.log2 + (e - f - t).toNat := by
      simp only [Format.targetExponent, totalExponent, Format.mantissaBits, Format.minExponent] at htarget
      omega
    have hlong : 2 ^ 52 ≤ m <<< (e - f - t).toNat / n := by
      rw [Nat.le_div_iff_mul_le (by omega), Nat.shiftLeft_eq]
      calc 2 ^ 52 * n ≤ 2 ^ 52 * 2 ^ (n.log2 + 1) := Nat.mul_le_mul_left _ Nat.lt_log2_self.le
        _ = 2 ^ (n.log2 + 53) := by rw [← Nat.pow_add]; congr 1; omega
        _ ≤ 2 ^ (m.log2 + (e - f - t).toNat) := Nat.pow_le_pow_right (by decide) hgap
        _ = 2 ^ m.log2 * 2 ^ (e - f - t).toNat := Nat.pow_add ..
        _ ≤ m * 2 ^ (e - f - t).toNat := Nat.mul_le_mul_right _ (Nat.log2_self_le hm)
    have hlog := le_log2 hlong
    omega

theorem divCore_nearest (s : Sign) {m n : Nat} (hm : m ≠ 0) (hn : n ≠ 0) (e f : Int) :
    let core := divCore Format.binary64 m e n f
    Normalized (roundWithAccuracy Format.binary64 s core.1 core.2.1 core.2.2) ∧
      Nearest (signValue s * (m * 2 ^ e / (n * 2 ^ f)))
        (unpackedValue (roundWithAccuracy Format.binary64 s core.1 core.2.1 core.2.2)) := by
  intro core
  obtain ⟨t, ht⟩ : ∃ t, t = min (e - f) (Format.binary64.targetExponent (totalExponent m e - totalExponent n f)) :=
    ⟨_, rfl⟩
  have hleft : t ≤ e - f := by omega
  have hright : t ≤ Format.binary64.targetExponent (totalExponent m e - totalExponent n f) := by omega
  have hcore : core = (m <<< (e - f - t).toNat / n, t,
      accuracyOfFraction (m <<< (e - f - t).toNat % n) n) := by
    rw [ht]
    rfl
  rw [hcore]
  refine roundWithAccuracy_nearest s ?_ (div_exponent_le hm hn hleft hright)
  have hvalue : (m * 2 ^ e / (n * 2 ^ f) / 2 ^ t : Rat) = ((m <<< (e - f - t).toNat : Nat) : Rat) / n := by
    have hsplit : (2 : Rat) ^ e = 2 ^ (e - f - t).toNat * 2 ^ f * 2 ^ t := by
      rw [← zpow_natCast, ← zpow_add₀ two_ne_zero, ← zpow_add₀ two_ne_zero]
      congr 1
      omega
    have hn' : (n : Rat) ≠ 0 := by exact_mod_cast hn
    rw [hsplit, Nat.shiftLeft_eq]
    push_cast
    field_simp
  rw [hvalue]
  exact reads_fraction _ (Nat.pos_of_ne_zero hn)

theorem signValue_div (s t : Sign) : signValue (s / t) = signValue s / signValue t := by
  cases s <;> cases t
  · exact (show (1 : Rat) = -1 / -1 by norm_num)
  · exact (div_one _).symm
  · exact (show (-1 : Rat) = 1 / -1 by norm_num)
  · exact (div_one _).symm

theorem div_nearest (hu : Normalized u) (hv : Normalized v) (hne : unpackedValue v ≠ 0) :
    Normalized (UnpackedFloat.div Format.binary64 u v) ∧
      Nearest (unpackedValue u / unpackedValue v) (unpackedValue (UnpackedFloat.div Format.binary64 u v)) := by
  cases v with
  | notANumber => cases hv
  | infinity t => cases hv
  | zero t => exact absurd rfl hne
  | finite t n f hn =>
    cases u with
    | notANumber => cases hu
    | infinity s => cases hu
    | zero s =>
      have hzero : unpackedValue (.zero s) / unpackedValue (.finite t n f hn) = 0 := zero_div _
      rw [hzero]
      exact nearest_self trivial
    | finite s m e hm =>
      have hround := divCore_nearest (s / t) hm.ne' hn.ne' e f
      have hexact : signValue (s / t) * (m * 2 ^ e / (n * 2 ^ f)) =
          unpackedValue (.finite s m e hm) / unpackedValue (.finite t n f hn) := by
        rw [signValue_div, unpackedValue, unpackedValue, div_mul_div_comm]
      rw [hexact] at hround
      exact hround

end Quotients

/-! ## Doubles -/

section Doubles

variable {x y : Float} (hx : isFinite x = true) (hy : isFinite y = true)

include hx hy

theorem add_rounds : Rounds (value x + value y) (x + y) := by
  obtain ⟨hnormal, hnearest⟩ := add_nearest (normalized_of_isFinite hx) (normalized_of_isFinite hy)
  exact rounds_pack hnormal hnearest

theorem sub_rounds : Rounds (value x - value y) (x - y) := by
  have hnormal := normalized_of_isFinite hy
  have hsum := add_nearest (normalized_of_isFinite hx) (normalized_neg hnormal)
  rw [← sub_eq_add (normalized_of_isFinite hx) hnormal, unpackedValue_neg, ← sub_eq_add_neg] at hsum
  exact rounds_pack hsum.1 hsum.2

theorem mul_rounds : Rounds (value x * value y) (x * y) := by
  obtain ⟨hnormal, hnearest⟩ := mul_nearest (normalized_of_isFinite hx) (normalized_of_isFinite hy)
  exact rounds_pack hnormal hnearest

theorem div_rounds (hne : value y ≠ 0) : Rounds (value x / value y) (x / y) := by
  obtain ⟨hnormal, hnearest⟩ := div_nearest (normalized_of_isFinite hx) (normalized_of_isFinite hy) hne
  exact rounds_pack hnormal hnearest

end Doubles

end Double
end ArithTree
