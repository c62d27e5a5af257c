import ArithTree.Proofs.Double.Equality
import ArithTree.Proofs.Double.Nearest

/-!
# ArithTree.Proofs.Double.Rounding

What the model of doubles does when it rounds. It drops bits of a significand one at a time and keeps two bits
about what was dropped; these are enough to round to a nearest number (`roundWithAccuracy_nearest`). The result
is canonical, and its exponent may still be too large for a double.

* `Reads`: what a significand and its two residual bits say about an exact number.
* `reads_shiftRight`: dropping bits keeps what they say.
* `roundWithAccuracy_nearest`, `round_nearest`, `normalize_nearest`: the results of the three ways to round.
-/

namespace ArithTree
namespace Double

open Float.Model UnpackedFloat

def signValue : Sign → Rat
  | .negative => -1
  | .positive => 1

/-- The number that a finite unpacked double stands for. -/
def unpackedValue : UnpackedFloat → Rat
  | .finite s m e _ => signValue s * (m * 2 ^ e)
  | _ => 0

/-- A finite double with a canonical significand. -/
def Normalized : UnpackedFloat → Prop
  | .zero _ => True
  | .finite _ m e _ => Canonical m e
  | _ => False

/-! ## Residual bits -/

/-- The round bit counts one half. The sticky bit says that there is more, but less than another half. -/
def Reads (em : ExtendedMantissa) (x : Rat) : Prop :=
  if em.stickyBit then
    2 * (em.mantissa : Rat) + em.roundBit.toNat < 2 * x ∧ 2 * x < 2 * em.mantissa + em.roundBit.toNat + 1
  else 2 * x = 2 * em.mantissa + em.roundBit.toNat

section Residual

variable {em : ExtendedMantissa} {x : Rat}

theorem Reads.bounds (h : Reads em x) : (em.mantissa : Rat) ≤ x ∧ x < em.mantissa + 1 := by
  obtain ⟨m, r, s⟩ := em
  cases r <;> cases s <;> simp [Reads] at h <;> constructor <;> linarith

theorem Reads.rounded (h : Reads em x) : |(em.roundedMantissa : Rat) - x| ≤ 1 / 2 := by
  obtain ⟨m, r, s⟩ := em
  have hparity : m % 2 = 0 ∨ m % 2 = 1 := by omega
  cases r <;> cases s <;> simp [Reads] at h <;>
    simp only [ExtendedMantissa.roundedMantissa, ExtendedMantissa.accuracy, Accuracy.roundToNearestEven] <;>
    rw [abs_le]
  · constructor <;> linarith
  · constructor <;> linarith
  · rcases hparity with heven | hodd
    · rw [heven]
      constructor <;> push_cast <;> linarith
    · rw [hodd]
      constructor <;> push_cast <;> linarith
  · constructor <;> push_cast <;> linarith

theorem reads_shiftRightOne (h : Reads em x) : Reads em.shiftRightOne (x / 2) := by
  obtain ⟨m, r, s⟩ := em
  have hsplit : (m : Rat) = 2 * (m / 2 : Nat) + (m % 2 : Nat) := by exact_mod_cast (Nat.div_add_mod m 2).symm
  have hbit : (((m % 2 != 0) : Bool).toNat : Rat) = (m % 2 : Nat) := by
    rcases Nat.mod_two_eq_zero_or_one m with heven | hodd
    · simp [heven]
    · simp [hodd]
  cases r <;> cases s <;> simp [Reads] at h <;> simp only [Reads, ExtendedMantissa.shiftRightOne, hbit] <;>
    simp <;> (try constructor) <;> linarith

/-- By induction on the number of bits dropped. -/
theorem reads_shiftRight (h : Reads em x) (k : Nat) : Reads (em >>> k) (x / 2 ^ k) := by
  show Reads (k.repeat ExtendedMantissa.shiftRightOne em) (x / 2 ^ k)
  induction k with
  | zero => simpa [Nat.repeat] using h
  | succ k ih =>
    rw [Nat.repeat, pow_succ, ← div_div]
    exact reads_shiftRightOne ih

theorem reads_exact (m : Nat) : Reads (ExtendedMantissa.ofMantissaAndAccuracy m .exact) m := by
  simp [Reads, ExtendedMantissa.ofMantissaAndAccuracy]

end Residual

/-! ## The exponent -/

theorem targetExponent_eq (m : Nat) (e : Int) :
    Format.binary64.targetExponent (totalExponent m e) = max ((m.log2 : Int) + e - 52) (-1074) := by
  simp only [Format.targetExponent, totalExponent, Format.mantissaBits, Format.minExponent]
  omega

/-- Nothing is dropped from a significand that fits already. -/
theorem shiftToTargetExponent_of_lt {m : Nat} {e : Int} (hm : m < 2 ^ 53) (he : -1074 ≤ e) :
    shiftToTargetExponent Format.binary64 m e .exact =
      (ExtendedMantissa.ofMantissaAndAccuracy m .exact, e) := by
  have hlog : m.log2 ≤ 52 := by
    by_cases hzero : m = 0
    · simp [hzero]
    · exact Nat.le_of_lt_succ ((Nat.log2_lt hzero).mpr hm)
  have hshift : (Format.binary64.targetExponent (totalExponent m e) - e).toNat = 0 := by
    rw [targetExponent_eq]
    omega
  simp only [shiftToTargetExponent, shiftToExponent, hshift]
  simp [HShiftRight.hShiftRight, Nat.repeat]

/-- A significand that was rounded up to the next power of two loses a bit, which is zero. -/
theorem shiftToTargetExponent_carry {e : Int} (he : -1074 ≤ e) :
    shiftToTargetExponent Format.binary64 (2 ^ 53) e .exact =
      (ExtendedMantissa.ofMantissaAndAccuracy (2 ^ 52) .exact, e + 1) := by
  have hshift : (Format.binary64.targetExponent (totalExponent (2 ^ 53) e) - e).toNat = 1 := by
    rw [targetExponent_eq, Nat.log2_two_pow]
    omega
  simp only [shiftToTargetExponent, shiftToExponent, hshift]
  simp [HShiftRight.hShiftRight, Nat.repeat, ExtendedMantissa.shiftRightOne,
    ExtendedMantissa.ofMantissaAndAccuracy]

theorem log2_bounds {m : Nat} (hm : m ≠ 0) :
    (2 : Rat) ^ m.log2 ≤ m ∧ (m : Rat) + 1 ≤ 2 ^ (m.log2 + 1) := by
  have hle : 2 ^ m.log2 ≤ m := Nat.log2_self_le hm
  have hlt : m + 1 ≤ 2 ^ (m.log2 + 1) := Nat.lt_log2_self
  constructor
  · exact_mod_cast hle
  · exact_mod_cast hlt

/-- An exact number whose leading bits are `m` lies where the exponent for `m` says. -/
theorem target_bounds {m : Nat} {e t : Int} {v : Rat} (hlow : m * 2 ^ e ≤ v) (hhigh : v < (m + 1) * 2 ^ e)
    (ht : t = max ((m.log2 : Int) + e - 52) (-1074)) (he : e ≤ t) :
    (t = -1074 ∨ 2 ^ 52 * 2 ^ t ≤ v) ∧ v < 2 ^ 53 * 2 ^ t := by
  have hunit : (0 : Rat) < 2 ^ e := by positivity
  by_cases hm : m = 0
  · subst hm
    rw [Nat.log2_zero] at ht
    obtain rfl : t = -1074 := by omega
    refine ⟨.inl rfl, ?_⟩
    have hpow : (2 : Rat) ^ e ≤ 2 ^ (-1074 : Int) := zpow_le_zpow_right₀ (by norm_num) he
    have hpos : (0 : Rat) < 2 ^ (-1074 : Int) := by positivity
    rw [Nat.cast_zero, zero_add, one_mul] at hhigh
    linarith
  · obtain ⟨hleast, hmost⟩ := log2_bounds hm
    refine ⟨?_, ?_⟩
    · rcases max_choice ((m.log2 : Int) + e - 52) (-1074) with hmax | hmax
      · right
        have hsplit : (2 : Rat) ^ 52 * 2 ^ t = 2 ^ m.log2 * 2 ^ e := by
          rw [← zpow_natCast, ← zpow_natCast, ← zpow_add₀ two_ne_zero, ← zpow_add₀ two_ne_zero]
          congr 1
          omega
        rw [hsplit]
        nlinarith
      · exact .inl (ht.trans hmax)
    · have hsplit : (2 : Rat) ^ (m.log2 + 1) * 2 ^ e ≤ 2 ^ 53 * 2 ^ t := by
        rw [← zpow_natCast, ← zpow_natCast, ← zpow_add₀ two_ne_zero, ← zpow_add₀ two_ne_zero]
        exact zpow_le_zpow_right₀ (by norm_num) (by omega)
      nlinarith

/-! ## Rounding -/

theorem signValue_cases (s : Sign) : signValue s = 1 ∨ signValue s = -1 := by
  cases s with
  | positive => exact .inl rfl
  | negative => exact .inr rfl

theorem Nearest.signed {v r : Rat} (h : Nearest v r) (s : Sign) : Nearest (signValue s * v) (signValue s * r) := by
  rcases signValue_cases s with hs | hs
  · rw [hs, one_mul, one_mul]
    exact h
  · rw [hs, neg_one_mul, neg_one_mul]
    exact h.neg

def finiteOrZero (s : Sign) (m : Nat) (e : Int) : UnpackedFloat :=
  if h : m = 0 then .zero s else .finite s m e (Nat.pos_of_ne_zero h)

theorem unpackedValue_finiteOrZero (s : Sign) (m : Nat) (e : Int) :
    unpackedValue (finiteOrZero s m e) = signValue s * (m * 2 ^ e) := by
  rw [finiteOrZero]
  split
  · rename_i hzero
    simp [unpackedValue, hzero]
  · rfl

theorem normalized_finiteOrZero (s : Sign) {m : Nat} {e : Int} (h : Canonical m e) :
    Normalized (finiteOrZero s m e) := by
  rw [finiteOrZero]
  split
  · trivial
  · exact h

/-- What is left to do once the significand is rounded to `r`. -/
theorem roundWithAccuracy_eq (s : Sign) {m r : Nat} {e t : Int} {acc : Accuracy} {em : ExtendedMantissa}
    (hfirst : shiftToTargetExponent Format.binary64 m e acc = (em, t)) (hem : em.roundedMantissa = r)
    (hr : r ≤ 2 ^ 53) (htarget : -1074 ≤ t) :
    roundWithAccuracy Format.binary64 s m e acc =
      if r < 2 ^ 53 then finiteOrZero s r t else finiteOrZero s (2 ^ 52) (t + 1) := by
  have hsecond : ∀ second, shiftToTargetExponent Format.binary64 r t .exact = second →
      roundWithAccuracy Format.binary64 s m e acc = finiteOrZero s second.1.mantissa second.2 := by
    rintro second rfl
    rw [roundWithAccuracy, hfirst]
    dsimp only
    rw [hem]
    rfl
  rcases Nat.lt_or_eq_of_le hr with hlt | rfl
  · rw [if_pos hlt, hsecond _ (shiftToTargetExponent_of_lt hlt htarget)]
    rfl
  · rw [if_neg (Nat.lt_irrefl _), hsecond _ (shiftToTargetExponent_carry htarget)]
    rfl

theorem roundWithAccuracy_value (s : Sign) {m r : Nat} {e t : Int} {acc : Accuracy} {em : ExtendedMantissa}
    (hfirst : shiftToTargetExponent Format.binary64 m e acc = (em, t)) (hem : em.roundedMantissa = r)
    (hr : r ≤ 2 ^ 53) (htarget : -1074 ≤ t) (hfull : t = -1074 ∨ 2 ^ 52 ≤ r) :
    Normalized (roundWithAccuracy Format.binary64 s m e acc) ∧
      unpackedValue (roundWithAccuracy Format.binary64 s m e acc) = signValue s * (r * 2 ^ t) := by
  rw [roundWithAccuracy_eq s hfirst hem hr htarget]
  rcases Nat.lt_or_eq_of_le hr with hlt | rfl
  · rw [if_pos hlt, unpackedValue_finiteOrZero]
    exact ⟨normalized_finiteOrZero s ⟨hlt, htarget, hfull.symm⟩, rfl⟩
  · rw [if_neg (Nat.lt_irrefl _), unpackedValue_finiteOrZero, zpow_add_one₀ two_ne_zero]
    refine ⟨normalized_finiteOrZero s ⟨by decide, by omega, .inl le_rfl⟩, ?_⟩
    push_cast
    ring

theorem mantissa_ofMantissaAndAccuracy (m : Nat) (acc : Accuracy) :
    (ExtendedMantissa.ofMantissaAndAccuracy m acc).mantissa = m := by
  cases acc with
  | exact => rfl
  | inexact o => cases o <;> rfl

section Shift

variable {m r : Nat} {e t : Int} {acc : Accuracy} {em : ExtendedMantissa} {v : Rat}

theorem shiftToTargetExponent_eq (ht : t = max ((m.log2 : Int) + e - 52) (-1074)) (he : e ≤ t) :
    shiftToTargetExponent Format.binary64 m e acc =
      (ExtendedMantissa.ofMantissaAndAccuracy m acc >>> (t - e).toNat, t) := by
  have hexponent : e + ((t - e).toNat : Int) = t := by omega
  simp only [shiftToTargetExponent, shiftToExponent, targetExponent_eq, ← ht, hexponent]

theorem reads_target (h : Reads em (v / 2 ^ e)) (he : e ≤ t) : Reads (em >>> (t - e).toNat) (v / 2 ^ t) := by
  have hdropped := reads_shiftRight h (t - e).toNat
  rw [div_div] at hdropped
  rw [two_zpow_split he, mul_comm]
  push_cast
  exact hdropped

/-- Rounding to the nearest integer, on the grid of the leading bit. -/
theorem Reads.nearest (h : Reads em (v / 2 ^ t)) (htarget : -1074 ≤ t) (hv : 0 ≤ v)
    (hfull : t = -1074 ∨ 2 ^ 52 * 2 ^ t ≤ v) (hlt : v < 2 ^ 53 * 2 ^ t) :
    Nearest v ((em.roundedMantissa : Int) * 2 ^ t : Rat) := by
  have hpos : (0 : Rat) < 2 ^ t := by positivity
  refine nearest_of_grid htarget (by rwa [abs_of_nonneg hv]) (by rwa [abs_of_nonneg hv]) ?_
  have hscale : ((em.roundedMantissa : Int) : Rat) * 2 ^ t - v = (em.roundedMantissa - v / 2 ^ t) * 2 ^ t := by
    push_cast
    field_simp
  rw [hscale, abs_mul, abs_of_pos hpos]
  have hhalf := mul_le_mul_of_nonneg_right h.rounded hpos.le
  linarith

/-- What is nearest to a number with a full significand has one itself, though perhaps one bit more. -/
theorem significand_bounds (h : Nearest v ((r : Int) * 2 ^ t : Rat)) (htarget : -1074 ≤ t)
    (hfull : t = -1074 ∨ 2 ^ 52 * 2 ^ t ≤ v) (hlt : v < 2 ^ 53 * 2 ^ t) :
    r ≤ 2 ^ 53 ∧ (t = -1074 ∨ 2 ^ 52 ≤ r) := by
  have hpos : (0 : Rat) < 2 ^ t := by positivity
  constructor
  · have hle := h.ge_of_ge (representable_of_le (a := 2 ^ 53) (by norm_num) htarget) (by push_cast; exact hlt.le)
    push_cast at hle
    exact_mod_cast le_of_mul_le_mul_right hle hpos
  · refine hfull.imp_right fun hlead => ?_
    have hle := h.le_of_le (representable_of_le (a := 2 ^ 52) (by norm_num) htarget) (by push_cast; exact hlead)
    push_cast at hle
    exact_mod_cast le_of_mul_le_mul_right hle hpos

end Shift

/-- If the bits that are given are the leading ones of `v`, then `v` is rounded to a nearest number. -/
theorem roundWithAccuracy_nearest (s : Sign) {m : Nat} {e : Int} {acc : Accuracy} {v : Rat}
    (hreads : Reads (ExtendedMantissa.ofMantissaAndAccuracy m acc) (v / 2 ^ e))
    (he : e ≤ max ((m.log2 : Int) + e - 52) (-1074)) :
    Normalized (roundWithAccuracy Format.binary64 s m e acc) ∧
      Nearest (signValue s * v) (unpackedValue (roundWithAccuracy Format.binary64 s m e acc)) := by
  obtain ⟨t, ht⟩ : ∃ t, t = max ((m.log2 : Int) + e - 52) (-1074) := ⟨_, rfl⟩
  rw [← ht] at he
  have htarget : -1074 ≤ t := by omega
  have hunit : (0 : Rat) < 2 ^ e := by positivity
  obtain ⟨hlow, hhigh⟩ := hreads.bounds
  rw [mantissa_ofMantissaAndAccuracy, le_div_iff₀ hunit] at hlow
  rw [mantissa_ofMantissaAndAccuracy, div_lt_iff₀ hunit] at hhigh
  have hv : 0 ≤ v := (by positivity : (0 : Rat) ≤ m * 2 ^ e).trans hlow
  obtain ⟨hfull, hlt⟩ := target_bounds hlow hhigh ht he
  have hnearest := (reads_target hreads he).nearest htarget hv hfull hlt
  obtain ⟨hmost, hlead⟩ := significand_bounds hnearest htarget hfull hlt
  obtain ⟨hnormal, hvalue⟩ :=
    roundWithAccuracy_value s (shiftToTargetExponent_eq ht he) rfl hmost htarget hlead
  refine ⟨hnormal, ?_⟩
  rw [hvalue]
  simpa using hnearest.signed s

theorem roundWithAccuracy_exact (s : Sign) {m : Nat} {e : Int} (he : e ≤ max ((m.log2 : Int) + e - 52) (-1074)) :
    Normalized (roundWithAccuracy Format.binary64 s m e .exact) ∧
      Nearest (signValue s * (m * 2 ^ e)) (unpackedValue (roundWithAccuracy Format.binary64 s m e .exact)) := by
  refine roundWithAccuracy_nearest s ?_ he
  rw [mul_div_cancel_right₀ _ (by positivity : (2 : Rat) ^ e ≠ 0)]
  exact reads_exact m

theorem log2_shiftLeft {m : Nat} (hm : m ≠ 0) (k : Nat) : (m <<< k).log2 = m.log2 + k := by
  induction k with
  | zero => rfl
  | succ k ih =>
    have hne : m <<< k ≠ 0 := by
      rw [Nat.shiftLeft_eq]
      positivity
    rw [Nat.shiftLeft_succ, Nat.log2_two_mul hne, ih]
    rfl

theorem decreaseExponent_value (m : Nat) (e t : Int) :
    ((decreaseExponent m e t).1 : Rat) * 2 ^ (decreaseExponent m e t).2 = m * 2 ^ e := by
  simp only [decreaseExponent, Nat.shiftLeft_eq]
  rw [two_zpow_split (by omega : e - ((e - t).toNat : Int) ≤ e)]
  have hshift : (e - (e - ((e - t).toNat : Int))).toNat = (e - t).toNat := by omega
  rw [hshift]
  push_cast
  ring

/-- Zeros are appended first where the significand is too short. -/
theorem round_nearest (s : Sign) {m : Nat} (hm : m ≠ 0) (e : Int) :
    Normalized (UnpackedFloat.round Format.binary64 s m e) ∧
      Nearest (signValue s * (m * 2 ^ e)) (unpackedValue (UnpackedFloat.round Format.binary64 s m e)) := by
  obtain ⟨t, ht⟩ : ∃ t, Format.binary64.targetExponent (totalExponent m e) = t := ⟨_, rfl⟩
  have hlong : e - ((e - t).toNat : Int) ≤
      max (((m <<< (e - t).toNat).log2 : Int) + (e - ((e - t).toNat : Int)) - 52) (-1074) := by
    rw [targetExponent_eq] at ht
    rw [log2_shiftLeft hm]
    omega
  have hround := roundWithAccuracy_exact s hlong
  have hvalue := decreaseExponent_value m e t
  simp only [decreaseExponent] at hvalue
  rw [hvalue] at hround
  simp only [UnpackedFloat.round, decreaseExponent, ht]
  exact hround

theorem normalize_nearest (a e : Int) (zero : Sign) :
    Normalized (UnpackedFloat.normalize Format.binary64 a e zero) ∧
      Nearest (a * 2 ^ e) (unpackedValue (UnpackedFloat.normalize Format.binary64 a e zero)) := by
  rcases lt_trichotomy a 0 with hneg | rfl | hpos
  · have hcast : (((-a).toNat : Nat) : Rat) = -a := by exact_mod_cast Int.toNat_of_nonneg (by omega : 0 ≤ -a)
    have hround := round_nearest .negative (by omega : (-a).toNat ≠ 0) e
    rw [UnpackedFloat.normalize, Int.compare_eq_lt.mpr hneg]
    simpa [signValue, hcast] using hround
  · refine ⟨trivial, ?_⟩
    simpa [UnpackedFloat.normalize, unpackedValue] using Nearest.refl representable_zero
  · have hcast : ((a.toNat : Nat) : Rat) = a := by exact_mod_cast Int.toNat_of_nonneg hpos.le
    have hround := round_nearest .positive (by omega : a.toNat ≠ 0) e
    rw [UnpackedFloat.normalize, Int.compare_eq_gt.mpr hpos]
    simpa [signValue, hcast] using hround

end Double
end ArithTree
