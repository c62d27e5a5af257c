import ArithTree.Proofs.Double.Order
import Mathlib.Tactic.Ring

/-!
# ArithTree.Proofs.Double.Equality

When two doubles are equal as numbers. Either they are the same double and no NaN, or both are zeros
(`compare_eq_eq`). Equality is therefore symmetric and transitive, and it misses reflexivity only at NaN.
Whole doubles are equal exactly if they stand for the same integer: a double is `± m · 2 ^ e` in one
way only, because `m` is as large as it can be or `e` as small (`Canonical`).

* `ofFloat_eq_ofUnpacked`: the exact reading of the bits is the reading of the unpacked form.
* `beq_symm`, `beq_trans`, `le_of_beq`: equality as a relation, and beside the order.
* `toInt?_eq_of_beq`, `beq_of_toInt?`: equality of whole doubles.
* `beq_of_ofFloat`, `ofFloat_of_beq`: equality and the exact readings.
-/

namespace ArithTree
namespace Double

open Float.Model UnpackedFloat

/-! ## Bit fields -/

def isNegative : Sign → Bool
  | .negative => true
  | .positive => false

/-- The exact reading of an unpacked double. -/
def Binary.ofUnpacked : UnpackedFloat → Binary
  | .notANumber => .nan
  | .infinity s => .infinite (isNegative s)
  | .zero s => .finite (isNegative s) 0 (-1074)
  | .finite s m e _ => .finite (isNegative s) m e

section Fields

variable (bits : BitVec Format.binary64.numBits)

theorem toNat_unpackExponent :
    (unpackExponent bits).toNat = (bits.toNat >>> 52) % (1 <<< 11) := by
  simp [unpackExponent, BitVec.extractLsb_toNat]

theorem toNat_unpackMantissa : (unpackMantissa bits).toNat = bits.toNat % (1 <<< 52) := by
  simp [unpackMantissa, BitVec.extractLsb_toNat]

theorem isNegative_unpackSign :
    isNegative (Sign.ofBitVec (unpackSign bits)) = decide (1 <<< 63 ≤ bits.toNat) := by
  have hlt : bits.toNat < 2 ^ 64 := bits.isLt
  have hbit : (unpackSign bits).toNat = bits.toNat / 2 ^ 63 := by
    delta unpackSign
    simp [BitVec.extractLsb_toNat, Nat.shiftRight_eq_div_pow]
    omega
  by_cases h : 1 <<< 63 ≤ bits.toNat
  · have hone : unpackSign bits ≠ 0#1 := by
      intro hzero
      rw [hzero] at hbit
      simp at hbit h
      omega
    delta Sign.ofBitVec
    rw [if_neg hone, decide_eq_true h]
    rfl
  · have hzero : unpackSign bits = 0#1 := by
      apply BitVec.eq_of_toNat_eq
      rw [hbit]
      simp at h ⊢
      omega
    delta Sign.ofBitVec
    rw [if_pos hzero, decide_eq_false h]
    rfl

theorem toNat_implicit_append :
    (1#1 ++ unpackMantissa bits).toNat = (1 <<< 52) + (unpackMantissa bits).toNat := by
  have hlt : (unpackMantissa bits).toNat < 2 ^ 52 := (unpackMantissa bits).isLt
  calc (1#1 ++ unpackMantissa bits).toNat
      = 2 ^ 52 ||| (unpackMantissa bits).toNat := rfl
    _ = (unpackMantissa bits).toNat ||| 2 ^ 52 := Nat.or_comm _ _
    _ = (unpackMantissa bits).toNat + 2 ^ 52 := Nat.or_two_pow_eq_add_of_lt hlt
    _ = (1 <<< 52) + (unpackMantissa bits).toNat := Nat.add_comm _ _

end Fields

theorem ofFloat_eq_ofUnpacked (x : Float) :
    Binary.ofFloat x = Binary.ofUnpacked x.toModel.unpack := by
  let bits : BitVec Format.binary64.numBits := x.toModel.toBits.toBitVec
  have hexponent : (x.toBits.toNat >>> 52) % (1 <<< 11) = (unpackExponent bits).toNat :=
    (toNat_unpackExponent bits).symm
  have hmantissa : x.toBits.toNat % (1 <<< 52) = (unpackMantissa bits).toNat :=
    (toNat_unpackMantissa bits).symm
  have hsign : decide (1 <<< 63 ≤ x.toBits.toNat) =
    isNegative (Sign.ofBitVec (unpackSign bits)) := (isNegative_unpackSign bits).symm
  have hones : (unpackExponent bits).toNat = 2047 ↔ unpackExponent bits = -1#_ :=
    ⟨fun h => BitVec.eq_of_toNat_eq h, fun h => congrArg BitVec.toNat h⟩
  have hzeros : (unpackExponent bits).toNat = 0 ↔ unpackExponent bits = 0#_ :=
    ⟨fun h => BitVec.eq_of_toNat_eq h, fun h => congrArg BitVec.toNat h⟩
  have hwhole : (unpackMantissa bits).toNat = 0 ↔ unpackMantissa bits = 0#_ :=
    ⟨fun h => BitVec.eq_of_toNat_eq h, fun h => congrArg BitVec.toNat h⟩
  show _ = Binary.ofUnpacked (UnpackedFloat.unpack Format.binary64 bits)
  simp only [Binary.ofFloat, hexponent, hmantissa, hsign]
  delta UnpackedFloat.unpack
  dsimp only
  by_cases hinf : unpackExponent bits = -1#_
  · rw [if_pos (hones.mpr hinf), if_pos hinf]
    by_cases hm : unpackMantissa bits = 0#_
    · rw [if_pos (hwhole.mpr hm), if_pos hm]
      rfl
    · rw [if_neg (mt hwhole.mp hm), if_neg hm]
      rfl
  · rw [if_neg (mt hones.mp hinf), if_neg hinf]
    by_cases hsub : unpackExponent bits = 0#_
    · rw [if_pos (hzeros.mpr hsub), if_pos hsub]
      by_cases hm : unpackMantissa bits = 0#_
      · rw [dif_pos hm, hwhole.mpr hm]
        rfl
      · rw [dif_neg hm, hsub]
        rfl
    · rw [if_neg (mt hzeros.mp hsub), if_neg hsub]
      show Binary.finite _ _ _ = Binary.finite _ _ _
      rw [toNat_implicit_append]
      rfl

/-! ## Equality as a relation -/

theorem compare_self {u : UnpackedFloat} (h : u ≠ .notANumber) : u.compare u = some .eq := by
  cases u with
  | notANumber => exact absurd rfl h
  | infinity s => cases s <;> rfl
  | zero s => rfl
  | finite s m e hm =>
    have hthen : (compare e e).then (compare m m) = .eq := by simp
    cases s with
    | positive => exact congrArg some hthen
    | negative => exact congrArg (fun o => some o.swap) hthen

theorem compare_eq_eq {u v : UnpackedFloat} (h : u.compare v = some .eq) :
    u = v ∨ ∃ s t, u = .zero s ∧ v = .zero t := by
  cases u with
  | notANumber => cases h
  | infinity s =>
    cases v with
    | notANumber => cases h
    | infinity t =>
      cases s <;> cases t
      · exact .inl rfl
      · cases h
      · cases h
      · exact .inl rfl
    | zero t => cases s <;> cases h
    | finite t n f hn => cases s <;> cases h
  | zero s =>
    cases v with
    | notANumber => cases h
    | infinity t => cases t <;> cases h
    | zero t => exact .inr ⟨s, t, rfl, rfl⟩
    | finite t n f hn => cases t <;> cases h
  | finite s m e hm =>
    cases v with
    | notANumber => cases h
    | infinity t => cases t <;> cases h
    | zero t => cases s <;> cases h
    | finite t n f hn =>
      have same (hthen : (compare e f).then (compare m n) = .eq) : e = f ∧ m = n := by
        obtain ⟨he, hm⟩ := Ordering.then_eq_eq.mp hthen
        exact ⟨Std.LawfulEqCmp.eq_of_compare he, Std.LawfulEqCmp.eq_of_compare hm⟩
      cases s <;> cases t
      · have hthen : ((compare e f).then (compare m n)).swap = .eq := Option.some.inj h
        obtain ⟨rfl, rfl⟩ := same (by simpa using hthen)
        exact .inl rfl
      · cases h
      · cases h
      · obtain ⟨rfl, rfl⟩ := same (Option.some.inj h)
        exact .inl rfl

theorem beq_iff_compare {x y : Float} :
    (x == y) = true ↔ x.toModel.unpack.compare y.toModel.unpack = some .eq := by
  show (x.toModel.unpack.compare y.toModel.unpack == some .eq) = true ↔ _
  exact beq_iff_eq

theorem beq_symm {x y : Float} (h : (x == y) = true) : (y == x) = true := by
  rw [beq_iff_compare] at h ⊢
  rw [compare_swap, h]
  rfl

theorem beq_trans {x y z : Float} (hxy : (x == y) = true) (hyz : (y == z) = true) :
    (x == z) = true := by
  rw [beq_iff_compare] at hxy hyz ⊢
  rcases compare_eq_eq hxy with heq | ⟨s, t, hs, ht⟩
  · rw [heq]
    exact hyz
  · rcases compare_eq_eq hyz with heq | ⟨_, u, _, hu⟩
    · rw [← heq]
      exact hxy
    · rw [hs, hu]
      rfl

theorem le_of_beq {x y : Float} (h : (x == y) = true) : x ≤ y := by
  rw [beq_iff_compare] at h
  show Float.le x y = true
  simp [Float.le, LE.le, Float.Model.le, UnpackedFloat.le, h]

/-! ## Whole doubles -/

/-- The significand is as large as it can be, or the exponent as small. -/
structure Canonical (m : Nat) (e : Int) : Prop where
  lt : m < 2 ^ 53
  exponent_ge : -1074 ≤ e
  full : 2 ^ 52 ≤ m ∨ e = -1074

theorem ofFloat_canonical {x : Float} {s : Bool} {m : Nat} {e : Int}
    (h : Binary.ofFloat x = .finite s m e) : Canonical m e := by
  have hfraction : x.toBits.toNat % (1 <<< 52) < 2 ^ 52 := Nat.mod_lt _ (by decide)
  simp only [Binary.ofFloat] at h
  split at h
  · split at h <;> cases h
  · split at h
    · cases h
      exact ⟨by omega, by omega, .inr rfl⟩
    · cases h
      exact ⟨by omega, by omega, .inl (by omega)⟩

theorem signed_mul (s : Bool) (m n : Nat) : signed s (m * n) = signed s m * n := by
  cases s <;> simp [signed]

theorem natAbs_signed (s : Bool) (m : Nat) : (signed s m).natAbs = m := by
  cases s <;> simp [signed]

/-- A whole double and its integer, both brought to the least exponent. -/
theorem toInt?_mul {s : Bool} {m : Nat} {e : Int} {i : Int} (he : -1074 ≤ e)
    (h : (Binary.finite s m e).toInt? = some i) :
    i * (2 ^ 1074 : Nat) = signed s (m * 2 ^ (e + 1074).toNat) := by
  simp only [Binary.toInt?] at h
  split at h
  · rename_i hnonneg
    have hsplit : (e + 1074).toNat = e.toNat + 1074 := by omega
    cases h
    rw [← signed_mul, Nat.shiftLeft_eq, Nat.mul_assoc, ← Nat.pow_add, hsplit]
  · rename_i hneg
    split at h
    · rename_i hmod
      have hsplit : 1074 = (-e).toNat + (e + 1074).toNat := by omega
      rw [Nat.one_shiftLeft] at hmod
      cases h
      rw [← signed_mul, Nat.shiftRight_eq_div_pow, hsplit, Nat.pow_add, ← Nat.mul_assoc,
        Nat.div_mul_cancel (Nat.dvd_of_mod_eq_zero hmod)]
    · cases h

/-- A canonical significand at a larger exponent would not fit at the smaller one. -/
theorem Canonical.le_of_mul_eq {m n : Nat} {e f : Int} (hm : Canonical m e) (hn : Canonical n f)
    (h : m * 2 ^ (e + 1074).toNat = n * 2 ^ (f + 1074).toNat) : f ≤ e := by
  by_contra hlt
  have he := hm.exponent_ge
  obtain ⟨k, hk⟩ : ∃ k, (f + 1074).toNat = (k + 1) + (e + 1074).toNat :=
    ⟨(f - e).toNat - 1, by omega⟩
  have hfull : 2 ^ 52 ≤ n := hn.full.resolve_right (by omega)
  have hmn : m = n * 2 ^ (k + 1) := by
    rw [hk, Nat.pow_add, ← Nat.mul_assoc] at h
    exact Nat.eq_of_mul_eq_mul_right (Nat.two_pow_pos _) h
  have hlarge : 2 ^ 52 * 2 ^ 1 ≤ n * 2 ^ (k + 1) :=
    Nat.mul_le_mul hfull (Nat.pow_le_pow_right (by decide) (by omega))
  have := hm.lt
  omega

theorem Canonical.eq_of_mul_eq {m n : Nat} {e f : Int} (hm : Canonical m e) (hn : Canonical n f)
    (h : m * 2 ^ (e + 1074).toNat = n * 2 ^ (f + 1074).toNat) : m = n ∧ e = f := by
  have hef : e = f := Int.le_antisymm (hn.le_of_mul_eq hm h.symm) (hm.le_of_mul_eq hn h)
  subst hef
  exact ⟨Nat.eq_of_mul_eq_mul_right (Nat.two_pow_pos _) h, rfl⟩

/-- A whole double has one significand and one exponent, and unless it is zero one sign. -/
theorem finite_eq_of_toInt? {s t : Bool} {m n : Nat} {e f : Int} {i : Int} (hm : Canonical m e)
    (hn : Canonical n f) (hx : (Binary.finite s m e).toInt? = some i)
    (hy : (Binary.finite t n f).toInt? = some i) : m = n ∧ e = f ∧ (m = 0 ∨ s = t) := by
  have hsigned := (toInt?_mul hm.exponent_ge hx).symm.trans (toInt?_mul hn.exponent_ge hy)
  have habs := congrArg Int.natAbs hsigned
  rw [natAbs_signed, natAbs_signed] at habs
  obtain ⟨rfl, rfl⟩ := hm.eq_of_mul_eq hn habs
  refine ⟨rfl, rfl, ?_⟩
  have hpos : 0 < 2 ^ (e + 1074).toNat := Nat.two_pow_pos _
  generalize 2 ^ (e + 1074).toNat = c at hsigned hpos
  rcases Nat.eq_zero_or_pos m with hzero | hm
  · exact .inl hzero
  · have hprod : 0 < m * c := Nat.mul_pos hm hpos
    generalize m * c = p at hsigned hprod
    cases s <;> cases t
    · exact .inr rfl
    · simp only [signed] at hsigned
      simp at hsigned
      omega
    · simp only [signed] at hsigned
      simp at hsigned
      omega
    · exact .inr rfl

theorem toInt?_zero (s : Bool) : (Binary.finite s 0 (-1074)).toInt? = some 0 := by
  cases s <;> decide

theorem toInt?_eq_of_beq {x y : Float} (h : (x == y) = true) : toInt? x = toInt? y := by
  rw [toInt?, toInt?, ofFloat_eq_ofUnpacked, ofFloat_eq_ofUnpacked]
  rcases compare_eq_eq (beq_iff_compare.mp h) with heq | ⟨s, t, hs, ht⟩
  · rw [heq]
  · rw [hs, ht]
    exact (toInt?_zero _).trans (toInt?_zero _).symm

theorem unpack_of_ofFloat {x : Float} {s : Bool} {m : Nat} {e : Int}
    (h : Binary.ofFloat x = .finite s m e) :
    (∃ t, x.toModel.unpack = .zero t ∧ m = 0) ∨
      ∃ t hm, x.toModel.unpack = .finite t m e hm ∧ isNegative t = s := by
  rw [ofFloat_eq_ofUnpacked] at h
  cases hu : x.toModel.unpack with
  | notANumber =>
    rw [hu] at h
    cases h
  | infinity t =>
    rw [hu] at h
    cases h
  | zero t =>
    rw [hu] at h
    cases h
    exact .inl ⟨t, rfl, rfl⟩
  | finite t n f hn =>
    rw [hu] at h
    cases h
    exact .inr ⟨t, hn, rfl, rfl⟩

theorem ofFloat_of_toInt? {x : Float} {i : Int} (h : toInt? x = some i) :
    ∃ s m e, Binary.ofFloat x = .finite s m e ∧ (Binary.finite s m e).toInt? = some i := by
  rw [toInt?] at h
  cases hx : Binary.ofFloat x with
  | nan =>
    rw [hx] at h
    cases h
  | infinite s =>
    rw [hx] at h
    cases h
  | finite s m e =>
    rw [hx] at h
    exact ⟨s, m, e, rfl, h⟩

theorem isNegative_injective {s t : Sign} (h : isNegative s = isNegative t) : s = t := by
  cases s <;> cases t
  · rfl
  · cases h
  · cases h
  · rfl

theorem beq_of_toInt? {x y : Float} {i : Int} (hx : toInt? x = some i) (hy : toInt? y = some i) :
    (x == y) = true := by
  obtain ⟨s, m, e, hbx, hix⟩ := ofFloat_of_toInt? hx
  obtain ⟨t, n, f, hby, hiy⟩ := ofFloat_of_toInt? hy
  obtain ⟨rfl, rfl, hsign⟩ :=
    finite_eq_of_toInt? (ofFloat_canonical hbx) (ofFloat_canonical hby) hix hiy
  rw [beq_iff_compare]
  rcases unpack_of_ofFloat hbx with ⟨s', hux, hm⟩ | ⟨s', hm, hux, hs⟩
  · rcases unpack_of_ofFloat hby with ⟨t', huy, -⟩ | ⟨t', hm', -, -⟩
    · rw [hux, huy]
      rfl
    · omega
  · rcases unpack_of_ofFloat hby with ⟨t', -, hm'⟩ | ⟨t', _, huy, ht⟩
    · omega
    · have hst : s' = t' :=
        isNegative_injective (hs.trans ((hsign.resolve_left (by omega)).trans ht.symm))
      rw [huy, ← hst, ← hux]
      exact compare_self (by rw [hux]; exact fun h => nomatch h)

/-! ## Equality of exact readings -/

theorem ofUnpacked_injective {u v : UnpackedFloat} (h : Binary.ofUnpacked u = Binary.ofUnpacked v) :
    u = v := by
  cases u with
  | notANumber =>
    cases v with
    | notANumber => rfl
    | _ => cases h
  | infinity s =>
    cases v with
    | infinity t => rw [isNegative_injective (Binary.infinite.inj h)]
    | _ => cases h
  | zero s =>
    cases v with
    | zero t => rw [isNegative_injective (Binary.finite.inj h).1]
    | finite t n f hn =>
      have hzero : 0 = n := (Binary.finite.inj h).2.1
      omega
    | _ => cases h
  | finite s m e hm =>
    cases v with
    | zero t =>
      have hzero : m = 0 := (Binary.finite.inj h).2.1
      omega
    | finite t n f hn =>
      obtain ⟨hs, rfl, rfl⟩ := Binary.finite.inj h
      rw [isNegative_injective hs]
    | _ => cases h

theorem isNaN_iff {x : Float} : x.isNaN = true ↔ Binary.ofFloat x = .nan := by
  show x.toModel.unpack.isNaN = true ↔ _
  rw [ofFloat_eq_ofUnpacked]
  cases x.toModel.unpack with
  | notANumber => exact ⟨fun _ => rfl, fun _ => rfl⟩
  | _ => exact ⟨(fun h => nomatch h), (fun h => nomatch h)⟩

theorem isInf_iff {x : Float} : x.isInf = true ↔ ∃ s, Binary.ofFloat x = .infinite s := by
  show x.toModel.unpack.isInf = true ↔ _
  rw [ofFloat_eq_ofUnpacked]
  cases x.toModel.unpack with
  | infinity s => exact ⟨fun _ => ⟨_, rfl⟩, fun _ => rfl⟩
  | _ =>
    refine ⟨fun h => ?_, fun h => ?_⟩
    · cases h
    · obtain ⟨s, hs⟩ := h
      cases hs

/-- A double is finite unless it is a NaN or an infinity. -/
theorem isFinite_eq_false {x : Float} :
    isFinite x = false ↔ x.isNaN = true ∨ x.isInf = true := by
  rw [isNaN_iff, isInf_iff, isFinite]
  cases Binary.ofFloat x with
  | nan => exact ⟨fun _ => .inl rfl, fun _ => rfl⟩
  | infinite s => exact ⟨fun _ => .inr ⟨s, rfl⟩, fun _ => rfl⟩
  | finite s m e =>
    refine ⟨fun h => ?_, fun h => ?_⟩
    · cases h
    · obtain h | ⟨t, h⟩ := h <;> cases h

/-- A NaN equals no double, not even itself. -/
theorem beq_eq_false_of_isNaN {x y : Float} (h : x.isNaN = true ∨ y.isNaN = true) :
    (x == y) = false := by
  have hnone : x.toModel.unpack.compare y.toModel.unpack = none :=
    compare_notANumber (h.imp isNaN_unpack isNaN_unpack)
  rw [Bool.eq_false_iff, Ne, beq_iff_compare, hnone]
  intro heq
  cases heq

theorem beq_of_ofFloat {x y : Float} (hx : x.isNaN = false)
    (h : Binary.ofFloat x = Binary.ofFloat y) : (x == y) = true := by
  rw [ofFloat_eq_ofUnpacked, ofFloat_eq_ofUnpacked] at h
  rw [beq_iff_compare, ← ofUnpacked_injective h]
  refine compare_self fun hnan => ?_
  have hx' : x.toModel.unpack.isNaN = false := hx
  rw [hnan] at hx'
  cases hx'

theorem toInt?_of_zero {x : Float} {s : Bool} {e : Int} (h : Binary.ofFloat x = .finite s 0 e) :
    toInt? x = some 0 := by
  obtain rfl : e = -1074 := (ofFloat_canonical h).full.resolve_left (by decide)
  rw [toInt?, h, toInt?_zero]

theorem ofFloat_of_beq {x y : Float} (h : (x == y) = true) :
    Binary.ofFloat x = Binary.ofFloat y ∨
      ∃ s t, Binary.ofFloat x = .finite s 0 (-1074) ∧ Binary.ofFloat y = .finite t 0 (-1074) := by
  rw [ofFloat_eq_ofUnpacked, ofFloat_eq_ofUnpacked]
  rcases compare_eq_eq (beq_iff_compare.mp h) with heq | ⟨s, t, hs, ht⟩
  · rw [heq]
    exact .inl rfl
  · rw [hs, ht]
    exact .inr ⟨_, _, rfl, rfl⟩

end Double
end ArithTree
