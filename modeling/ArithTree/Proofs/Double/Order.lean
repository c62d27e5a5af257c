import ArithTree.Double.Binary

/-!
# ArithTree.Proofs.Double.Order

The order of doubles. Only a NaN is incomparable, so of two finite doubles one is at most the other
(`le_of_not_lt`). What is less is not above (`not_le_of_lt`). All comparisons with a NaN are false
(`not_lt_of_isNaN`).
-/

namespace ArithTree
namespace Double

open Float.Model

/-- A comparison that involves no NaN has a result. -/
theorem compare_isSome {x y : UnpackedFloat} (hx : x ≠ .notANumber) (hy : y ≠ .notANumber) :
    ∃ o, x.compare y = some o := by
  cases x with
  | notANumber => exact absurd rfl hx
  | infinity s =>
    cases y with
    | notANumber => exact absurd rfl hy
    | infinity t => exact ⟨_, rfl⟩
    | zero t => cases s <;> exact ⟨_, rfl⟩
    | finite t m e h => cases s <;> exact ⟨_, rfl⟩
  | zero s =>
    cases y with
    | notANumber => exact absurd rfl hy
    | infinity t => cases t <;> exact ⟨_, rfl⟩
    | zero t => exact ⟨_, rfl⟩
    | finite t m e h => cases t <;> exact ⟨_, rfl⟩
  | finite s m e h =>
    cases y with
    | notANumber => exact absurd rfl hy
    | infinity t => cases t <;> exact ⟨_, rfl⟩
    | zero t => cases s <;> exact ⟨_, rfl⟩
    | finite t n f h' => cases s <;> cases t <;> exact ⟨_, rfl⟩

theorem compare_swap (x y : UnpackedFloat) :
    y.compare x = (x.compare y).map Ordering.swap := by
  cases x with
  | notANumber => cases y <;> rfl
  | infinity s =>
    cases y with
    | notANumber => rfl
    | infinity t => cases s <;> cases t <;> rfl
    | zero t => cases s <;> rfl
    | finite t m e h => cases s <;> rfl
  | zero s =>
    cases y with
    | notANumber => rfl
    | infinity t => cases t <;> rfl
    | zero t => rfl
    | finite t m e h => cases t <;> rfl
  | finite s m e h =>
    cases y with
    | notANumber => rfl
    | infinity t => cases t <;> rfl
    | zero t => cases s <;> rfl
    | finite t n f h' =>
      have hexponent : compare f e = (compare e f).swap := Std.OrientedCmp.eq_swap
      have hmantissa : compare n m = (compare m n).swap := Std.OrientedCmp.eq_swap
      have hthen : (compare f e).then (compare n m) = ((compare e f).then (compare m n)).swap := by
        rw [hexponent, hmantissa, Ordering.swap_then]
      cases s with
      | positive =>
        cases t with
        | positive => exact congrArg some hthen
        | negative => rfl
      | negative =>
        cases t with
        | positive => rfl
        | negative => exact congrArg (fun o => some o.swap) hthen

theorem compare_notANumber {x y : UnpackedFloat} (h : x = .notANumber ∨ y = .notANumber) :
    x.compare y = none := by
  rcases h with rfl | rfl
  · rfl
  · cases x <;> rfl

theorem unpack_ne_notANumber {bits : BitVec Format.binary64.numBits}
    (h : UnpackedFloat.unpackExponent bits ≠ -1#_) :
    UnpackedFloat.unpack Format.binary64 bits ≠ .notANumber := by
  delta UnpackedFloat.unpack
  dsimp only
  rw [if_neg h]
  by_cases he : UnpackedFloat.unpackExponent bits = 0#_
  · rw [if_pos he]
    by_cases hm : UnpackedFloat.unpackMantissa bits = 0#_
    · rw [dif_pos hm]
      intro hnan
      cases hnan
    · rw [dif_neg hm]
      intro hnan
      cases hnan
  · rw [if_neg he]
    intro hnan
    cases hnan

/-- The exponent field of a finite double is not the one of infinities and NaNs. -/
theorem unpack_of_isFinite {x : Float} (h : isFinite x = true) :
    x.toModel.unpack ≠ .notANumber := by
  have hbits : (x.toBits.toNat >>> 52) % (1 <<< 11) ≠ 2047 := by
    intro hall
    simp only [isFinite, Binary.ofFloat, hall, if_true] at h
    by_cases hfraction : x.toBits.toNat % (1 <<< 52) = 0
    · rw [if_pos hfraction] at h
      exact absurd h Bool.false_ne_true
    · rw [if_neg hfraction] at h
      exact absurd h Bool.false_ne_true
  refine unpack_ne_notANumber ?_
  intro hall
  refine hbits ?_
  show (x.toModel.toBits.toNat >>> 52) % (1 <<< 11) = 2047
  simpa [UnpackedFloat.unpackExponent, BitVec.extractLsb_toNat] using congrArg BitVec.toNat hall

theorem le_of_not_lt {x y : Float} (hx : isFinite x = true) (hy : isFinite y = true)
    (h : ¬ y < x) : x ≤ y := by
  obtain ⟨o, ho⟩ := compare_isSome (unpack_of_isFinite hx) (unpack_of_isFinite hy)
  have hswap := compare_swap x.toModel.unpack y.toModel.unpack
  rw [ho, Option.map_some] at hswap
  have hle : x ≤ y ↔ o.isLE = true := by
    show Float.le x y = true ↔ _
    simp [Float.le, LE.le, Float.Model.le, UnpackedFloat.le, ho]
  have hlt : y < x ↔ o.swap = .lt := by
    show Float.lt y x = true ↔ _
    simp [Float.lt, LT.lt, Float.Model.lt, UnpackedFloat.lt, hswap]
  rw [hlt] at h
  rw [hle]
  cases o with
  | lt => rfl
  | eq => rfl
  | gt => exact absurd rfl h

theorem not_le_of_lt {x y : Float} (h : x < y) : ¬ y ≤ x := by
  have hlt : x.toModel.unpack.compare y.toModel.unpack = some .lt := by
    have hmodel : Float.lt x y = true := h
    simpa [Float.lt, LT.lt, Float.Model.lt, UnpackedFloat.lt] using hmodel
  have hswap := compare_swap x.toModel.unpack y.toModel.unpack
  rw [hlt, Option.map_some] at hswap
  intro hle
  have hmodel : Float.le y x = true := hle
  simp [Float.le, LE.le, Float.Model.le, UnpackedFloat.le, hswap] at hmodel

theorem isNaN_unpack {x : Float} (h : x.isNaN = true) : x.toModel.unpack = .notANumber := by
  have hmodel : x.toModel.unpack.isNaN = true := h
  cases hx : x.toModel.unpack with
  | notANumber => rfl
  | _ =>
    rw [hx] at hmodel
    cases hmodel

/-- A NaN is on no side of any double. -/
theorem not_lt_of_isNaN {x y : Float} (h : x.isNaN = true ∨ y.isNaN = true) : ¬ x < y ∧ ¬ x ≤ y := by
  have hnone : x.toModel.unpack.compare y.toModel.unpack = none :=
    compare_notANumber (h.imp isNaN_unpack isNaN_unpack)
  constructor
  · intro hlt
    have hmodel : Float.lt x y = true := hlt
    simp [Float.lt, LT.lt, Float.Model.lt, UnpackedFloat.lt, hnone] at hmodel
  · intro hle
    have hmodel : Float.le x y = true := hle
    simp [Float.le, LE.le, Float.Model.le, UnpackedFloat.le, hnone] at hmodel

end Double
end ArithTree
