import ArithTree.Proofs.Double.Rounding

/-!
# ArithTree.Proofs.Double.Value

Doubles as rational numbers. A canonical number is packed into the bits of a double and read back without loss,
unless its exponent is too large; then the double is an infinity. So what an operation has rounded is the value
of the double that it returns (`rounds_pack`). Finite doubles compare as their values do.

* `value`: the number that a finite double stands for.
* `unpack_pack_finite`: packing and reading back.
* `Rounds`: a double is what a rational number is rounded to.
* `lt_iff`, `le_iff`, `beq_iff`: comparisons.
-/

namespace ArithTree
namespace Double

open Float.Model UnpackedFloat

/-! ## Packing -/

section Packing

variable (s : Sign) (E : BitVec 11) (M : BitVec 52)

theorem ofBitVec_toBitVec : Sign.ofBitVec s.toBitVec = s := by
  cases s <;> rfl

theorem unpackSign_packComponents :
    unpackSign (packComponents Format.binary64 s E M) = s.toBitVec := by
  show (s.toBitVec ++ E ++ M).extractLsb' 63 1 = s.toBitVec
  rw [BitVec.extractLsb'_append_eq_of_le (by decide), BitVec.extractLsb'_append_eq_of_le (by decide)]
  cases s <;> rfl

theorem unpack_infinity : UnpackedFloat.unpack Format.binary64 (packedInfinity Format.binary64 s) = .infinity s := by
  cases s <;> rfl

theorem unpack_zero : UnpackedFloat.unpack Format.binary64 (packedZero Format.binary64 s) = .zero s := by
  cases s <;> rfl

theorem unpack_subnormal (hM : 0 < M.toNat) :
    UnpackedFloat.unpack Format.binary64 (packComponents Format.binary64 s 0#11 M) = .finite s M.toNat (-1074) hM := by
  have hne : M ≠ 0#52 := by
    rintro rfl
    exact absurd hM (by decide)
  have hones : 0#11 ≠ -1#11 := by decide
  delta UnpackedFloat.unpack
  simp only [unpackMantissa_packComponents, unpackExponent_packComponents, unpackSign_packComponents,
    ofBitVec_toBitVec]
  rw [if_neg hones, if_pos trivial, dif_neg hne]
  rfl

theorem unpack_normal (hzero : E ≠ 0#11) (hones : E ≠ -1#11) :
    UnpackedFloat.unpack Format.binary64 (packComponents Format.binary64 s E M) =
      .finite s (2 ^ 52 + M.toNat) ((E.toNat : Int) - 1075) (by omega) := by
  have himplicit : (1#1 ++ M).toNat = 2 ^ 52 + M.toNat := by
    have hlt : M.toNat < 2 ^ 52 := M.isLt
    calc (1#1 ++ M).toNat = 2 ^ 52 ||| M.toNat := rfl
      _ = M.toNat ||| 2 ^ 52 := Nat.or_comm _ _
      _ = M.toNat + 2 ^ 52 := Nat.or_two_pow_eq_add_of_lt hlt
      _ = 2 ^ 52 + M.toNat := Nat.add_comm _ _
  delta UnpackedFloat.unpack
  simp only [unpackMantissa_packComponents, unpackExponent_packComponents, unpackSign_packComponents,
    ofBitVec_toBitVec]
  rw [if_neg hones, if_neg hzero]
  simp only [himplicit]
  rfl

/-- The fields of a full significand: its leading bit is implicit. -/
theorem unpack_fields {m k : Nat} (hlead : 2 ^ 52 ≤ m) (hmost : m < 2 ^ 53) (hpos : 0 < k) (hk : k < 2047) :
    UnpackedFloat.unpack Format.binary64
        (packComponents Format.binary64 s (BitVec.ofNat 11 k) (BitVec.ofNat 52 m)) =
      .finite s m ((k : Int) - 1075) (by omega) := by
  have hexponent : (BitVec.ofNat 11 k).toNat = k := by
    rw [BitVec.toNat_ofNat]
    omega
  have hne {F : BitVec 11} (hF : F.toNat ≠ k) : BitVec.ofNat 11 k ≠ F := by
    rintro rfl
    exact hF hexponent
  have hzero : (0#11).toNat ≠ k := by
    rw [BitVec.toNat_ofNat]
    omega
  have hones : (-1#11).toNat ≠ k := by
    have hall : (-1#11).toNat = 2047 := by decide
    omega
  have hmantissa : 2 ^ 52 + (BitVec.ofNat 52 m).toNat = m := by
    rw [BitVec.toNat_ofNat]
    omega
  rw [unpack_normal s _ _ (hne hzero) (hne hones)]
  simp only [hexponent, hmantissa]

theorem pack_finite {m : Nat} {e : Int} (hm : 0 < m) :
    UnpackedFloat.pack Format.binary64 (.finite s m e hm) =
      if 2048 ≤ (e + 1075).toNat + 1 then packedInfinity Format.binary64 s
      else if m.log2 + 1 = 53 then
        packComponents Format.binary64 s (BitVec.ofNat 11 (e + 1075).toNat) (BitVec.ofNat 52 m)
      else packComponents Format.binary64 s 0#11 (BitVec.ofNat 52 m) := by
  have hbiased :
      (e + (Format.binary64.exponentBias : Int) + (Format.binary64.mantissaBitsWithoutImplicit : Int)).toNat =
        (e + 1075).toNat := by
    show (e + 1023 + 52).toNat = _
    omega
  simp only [UnpackedFloat.pack, hbiased]
  rfl

end Packing

theorem unpack_pack_finite (s : Sign) {m : Nat} {e : Int} (hm : 0 < m) (hc : Canonical m e) :
    UnpackedFloat.unpack Format.binary64 (UnpackedFloat.pack Format.binary64 (.finite s m e hm)) =
      if e ≤ 971 then .finite s m e hm else .infinity s := by
  have hleast := hc.exponent_ge
  have hmost := hc.lt
  rw [pack_finite]
  by_cases he : e ≤ 971
  · rw [if_neg (by omega), if_pos he]
    by_cases hlead : 2 ^ 52 ≤ m
    · have hlog : m.log2 = 52 := (Nat.log2_eq_iff (by omega)).mpr ⟨hlead, hmost⟩
      have hexponent : ((e + 1075).toNat : Int) - 1075 = e := by omega
      rw [if_pos (by omega), unpack_fields s hlead hmost (by omega) (by omega)]
      simp only [hexponent]
    · obtain rfl : e = -1074 := hc.full.resolve_left hlead
      have hlog : m.log2 < 52 := (Nat.log2_lt (by omega)).mpr (by omega)
      have hmantissa : (BitVec.ofNat 52 m).toNat = m := by
        rw [BitVec.toNat_ofNat]
        omega
      rw [if_neg (by omega), unpack_subnormal s (BitVec.ofNat 52 m) (by omega)]
      simp only [hmantissa]
  · rw [if_pos (by omega), if_neg he]
    exact unpack_infinity s

theorem unpack_pack_zero (s : Sign) :
    UnpackedFloat.unpack Format.binary64 (UnpackedFloat.pack Format.binary64 (.zero s)) = .zero s :=
  unpack_zero s

/-! ## Values -/

def value (x : Float) : Rat := unpackedValue x.toModel.unpack

theorem signValue_mul_natCast (s : Sign) (m : Nat) : signValue s * m = (signed (isNegative s) m : Int) := by
  cases s with
  | positive => simp [signValue, isNegative, signed]
  | negative => simp [signValue, isNegative, signed]

theorem value_of_ofFloat {x : Float} {s : Bool} {m : Nat} {e : Int} (h : Binary.ofFloat x = .finite s m e) :
    value x = (signed s m : Int) * 2 ^ e := by
  rw [value]
  rcases unpack_of_ofFloat h with ⟨t, hu, rfl⟩ | ⟨t, hm, hu, rfl⟩
  · rw [hu]
    simp [unpackedValue, signed]
  · rw [hu, unpackedValue, ← mul_assoc, signValue_mul_natCast]

theorem normalized_of_isFinite {x : Float} (h : isFinite x = true) : Normalized x.toModel.unpack := by
  have hbinary := ofFloat_eq_ofUnpacked x
  cases hu : x.toModel.unpack with
  | notANumber =>
    rw [hu] at hbinary
    simp [isFinite, hbinary, Binary.ofUnpacked, Binary.isFinite] at h
  | infinity s =>
    rw [hu] at hbinary
    simp [isFinite, hbinary, Binary.ofUnpacked, Binary.isFinite] at h
  | zero s => trivial
  | finite s m e hm =>
    rw [hu] at hbinary
    exact ofFloat_canonical hbinary

theorem isFinite_of_normalized {x : Float} (h : Normalized x.toModel.unpack) : isFinite x = true := by
  rw [isFinite, ofFloat_eq_ofUnpacked]
  cases hu : x.toModel.unpack with
  | notANumber =>
    rw [hu] at h
    cases h
  | infinity s =>
    rw [hu] at h
    cases h
  | zero s => rfl
  | finite s m e hm => rfl

theorem representable_unpackedValue {u : UnpackedFloat} (h : Normalized u) : Representable (unpackedValue u) := by
  cases u with
  | notANumber => cases h
  | infinity s => cases h
  | zero s => exact representable_zero
  | finite s m e hm =>
    have hpos : Representable ((m : Int) * 2 ^ e) := ⟨m, e, rfl, by
      rw [abs_of_nonneg (Int.natCast_nonneg m)]
      exact_mod_cast h.lt, h.exponent_ge⟩
    exact ((Nearest.refl hpos).signed s).representable

theorem representable_value {x : Float} (h : isFinite x = true) : Representable (value x) :=
  representable_unpackedValue (normalized_of_isFinite h)

/-! ## Rounded results -/

/-- The double is what `v` is rounded to, namely a nearest number. An infinity stands for one that is too large. -/
inductive Rounds (v : Rat) (x : Float) : Prop where
  | finite : isFinite x = true → Nearest v (value x) → Rounds v x
  | infinite {r : Rat} (s : Sign) : x.toModel.unpack = .infinity s → Nearest v r →
      2 ^ (1024 : Int) ≤ signValue s * r → Rounds v x

theorem unpackedValue_overflow (s : Sign) {m : Nat} {e : Int} (hm : 0 < m) (hc : Canonical m e) (he : ¬ e ≤ 971) :
    2 ^ (1024 : Int) ≤ signValue s * unpackedValue (.finite s m e hm) := by
  have hsquare : signValue s * signValue s = 1 := by
    rcases signValue_cases s with hs | hs <;> rw [hs] <;> norm_num
  have hlead : (2 : Rat) ^ 52 ≤ m := by exact_mod_cast hc.full.resolve_right (by omega)
  have hunit : (2 : Rat) ^ (972 : Int) ≤ 2 ^ e := zpow_le_zpow_right₀ (by norm_num) (by omega)
  have hpos : (0 : Rat) < 2 ^ (972 : Int) := by positivity
  rw [unpackedValue, ← mul_assoc, hsquare, one_mul]
  calc (2 : Rat) ^ (1024 : Int) = 2 ^ 52 * 2 ^ (972 : Int) := by
        rw [← zpow_natCast, ← zpow_add₀ two_ne_zero]
        rfl
    _ ≤ m * 2 ^ e := mul_le_mul hlead hunit hpos.le (by positivity)

theorem rounds_pack {u : UnpackedFloat} {v : Rat} (hu : Normalized u) (h : Nearest v (unpackedValue u)) :
    Rounds v (.ofModel (Float.Model.pack u)) := by
  have hmodel : (Float.ofModel (Float.Model.pack u)).toModel.unpack =
      UnpackedFloat.unpack Format.binary64 (UnpackedFloat.pack Format.binary64 u) := rfl
  have hkept (hsame : (Float.ofModel (Float.Model.pack u)).toModel.unpack = u) :
      Rounds v (.ofModel (Float.Model.pack u)) :=
    .finite (isFinite_of_normalized (by rwa [hsame])) (by rwa [value, hsame])
  cases u with
  | notANumber => cases hu
  | infinity s => cases hu
  | zero s => exact hkept (hmodel.trans (unpack_pack_zero s))
  | finite s m e hm =>
    rw [unpack_pack_finite s hm hu] at hmodel
    by_cases he : e ≤ 971
    · rw [if_pos he] at hmodel
      exact hkept hmodel
    · rw [if_neg he] at hmodel
      exact .infinite s hmodel h (unpackedValue_overflow s hm hu he)

theorem Rounds.nearest {v : Rat} {x : Float} (h : Rounds v x) (hx : isFinite x = true) : Nearest v (value x) := by
  cases h with
  | finite _ h => exact h
  | infinite s hs h _ =>
    have hnormal := normalized_of_isFinite hx
    rw [hs] at hnormal
    cases hnormal

/-! ## Comparisons -/

section Compare

variable {m n : Nat} {e f : Int}

theorem Canonical.mul_lt_mul (hm : Canonical m e) (hn : Canonical n f) (h : e < f) :
    (m : Rat) * 2 ^ e < n * 2 ^ f := by
  have hunit : (0 : Rat) < 2 ^ e := by positivity
  have hsmall : (m : Rat) < 2 ^ 53 := by exact_mod_cast hm.lt
  have hexponent := hm.exponent_ge
  have hlarge : (2 : Rat) ^ 52 ≤ n := by exact_mod_cast hn.full.resolve_right (by omega)
  have hdouble : (2 : Rat) ^ e * 2 ≤ 2 ^ f := by
    rw [← zpow_add_one₀ two_ne_zero]
    exact zpow_le_zpow_right₀ (by norm_num) (by omega)
  calc (m : Rat) * 2 ^ e < 2 ^ 53 * 2 ^ e := mul_lt_mul_of_pos_right hsmall hunit
    _ = 2 ^ 52 * (2 ^ e * 2) := by ring
    _ ≤ n * 2 ^ f := mul_le_mul hlarge hdouble (by positivity) (by positivity)

/-- Canonical numbers are ordered by their exponents first. -/
theorem compare_canonical (hm : Canonical m e) (hn : Canonical n f) :
    (compare e f).then (compare m n) = cmp ((m : Rat) * 2 ^ e) (n * 2 ^ f) := by
  rcases lt_trichotomy e f with hlt | rfl | hgt
  · rw [Int.compare_eq_lt.mpr hlt, cmp_eq_lt_iff _ _ |>.mpr (hm.mul_lt_mul hn hlt)]
    rfl
  · have hunit : (0 : Rat) < 2 ^ e := by positivity
    rw [Int.compare_eq_eq.mpr rfl]
    show compare m n = _
    rcases lt_trichotomy m n with hlt | rfl | hgt
    · have hcast : (m : Rat) < n := by exact_mod_cast hlt
      rw [Nat.compare_eq_lt.mpr hlt, (cmp_eq_lt_iff _ _).mpr (mul_lt_mul_of_pos_right hcast hunit)]
    · rw [Nat.compare_eq_eq.mpr rfl, (cmp_eq_eq_iff _ _).mpr rfl]
    · have hcast : (n : Rat) < m := by exact_mod_cast hgt
      rw [Nat.compare_eq_gt.mpr hgt, (cmp_eq_gt_iff _ _).mpr (mul_lt_mul_of_pos_right hcast hunit)]
  · rw [Int.compare_eq_gt.mpr hgt, (cmp_eq_gt_iff _ _).mpr (hn.mul_lt_mul hm hgt)]
    rfl

theorem cmp_neg (v w : Rat) : cmp (-v) (-w) = (cmp v w).swap := by
  rw [cmp_swap]
  rcases lt_trichotomy v w with hlt | rfl | hgt
  · rw [(cmp_eq_gt_iff _ _).mpr (neg_lt_neg hlt), (cmp_eq_gt_iff _ _).mpr hlt]
  · rw [(cmp_eq_eq_iff _ _).mpr rfl, (cmp_eq_eq_iff _ _).mpr rfl]
  · rw [(cmp_eq_lt_iff _ _).mpr (neg_lt_neg hgt), (cmp_eq_lt_iff _ _).mpr hgt]

theorem compare_normalized {u v : UnpackedFloat} (hu : Normalized u) (hv : Normalized v) :
    u.compare v = some (cmp (unpackedValue u) (unpackedValue v)) := by
  have hpos {m : Nat} {e : Int} (hm : 0 < m) : (0 : Rat) < m * 2 ^ e := by positivity
  cases u with
  | notANumber => cases hu
  | infinity s => cases hu
  | zero s =>
    cases v with
    | notANumber => cases hv
    | infinity t => cases hv
    | zero t => exact congrArg some ((cmp_eq_eq_iff _ _).mpr rfl).symm
    | finite t n f hn =>
      cases t with
      | positive =>
        refine congrArg some ((cmp_eq_lt_iff _ _).mpr ?_).symm
        simpa [unpackedValue, signValue] using hpos hn
      | negative =>
        refine congrArg some ((cmp_eq_gt_iff _ _).mpr ?_).symm
        simpa [unpackedValue, signValue] using hpos hn
  | finite s m e hm =>
    cases v with
    | notANumber => cases hv
    | infinity t => cases hv
    | zero t =>
      cases s with
      | positive =>
        refine congrArg some ((cmp_eq_gt_iff _ _).mpr ?_).symm
        simpa [unpackedValue, signValue] using hpos hm
      | negative =>
        refine congrArg some ((cmp_eq_lt_iff _ _).mpr ?_).symm
        simpa [unpackedValue, signValue] using hpos hm
    | finite t n f hn =>
      have hm' : (0 : Rat) < m * 2 ^ e := hpos hm
      have hn' : (0 : Rat) < n * 2 ^ f := hpos hn
      have hcompare := compare_canonical hu hv
      cases s <;> cases t <;> simp only [unpackedValue, signValue, one_mul, neg_one_mul]
      · rw [cmp_neg, ← hcompare]
        rfl
      · exact congrArg some ((cmp_eq_lt_iff _ _).mpr (by linarith)).symm
      · exact congrArg some ((cmp_eq_gt_iff _ _).mpr (by linarith)).symm
      · exact congrArg some hcompare

end Compare

section Finite

variable {x y : Float} (hx : isFinite x = true) (hy : isFinite y = true)

include hx hy

theorem compare_value : x.toModel.unpack.compare y.toModel.unpack = some (cmp (value x) (value y)) :=
  compare_normalized (normalized_of_isFinite hx) (normalized_of_isFinite hy)

theorem lt_iff : x < y ↔ value x < value y := by
  show Float.lt x y = true ↔ _
  simp [Float.lt, LT.lt, Float.Model.lt, UnpackedFloat.lt, compare_value hx hy]

theorem beq_iff : (x == y) = true ↔ value x = value y := by
  rw [beq_iff_compare, compare_value hx hy, Option.some.injEq, cmp_eq_eq_iff]

theorem le_iff : x ≤ y ↔ value x ≤ value y := by
  constructor
  · intro h
    by_contra hlt
    exact not_le_of_lt ((lt_iff hy hx).mpr (not_le.mp hlt)) h
  · intro h
    refine le_of_not_lt hx hy fun hlt => ?_
    exact absurd ((lt_iff hy hx).mp hlt) (not_lt.mpr h)

end Finite

theorem lt_infinity {x y : Float} (hx : isFinite x = true) (hy : y.toModel.unpack = .infinity .positive) : x < y := by
  have hnormal := normalized_of_isFinite hx
  have hcompare : x.toModel.unpack.compare y.toModel.unpack = some .lt := by
    rw [hy]
    cases hu : x.toModel.unpack with
    | notANumber =>
      rw [hu] at hnormal
      cases hnormal
    | infinity s =>
      rw [hu] at hnormal
      cases hnormal
    | zero s => rfl
    | finite s m e hm => cases s <;> rfl
  show Float.lt x y = true
  simp [Float.lt, LT.lt, Float.Model.lt, UnpackedFloat.lt, hcompare]

end Double
end ArithTree
