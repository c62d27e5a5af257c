import ArithTree.Proofs.Sweep.Advance
import ArithTree.Proofs.Sweep.Shape

/-!
# ArithTree.Proofs.Sweep.Rounded

Sweeps in `count` mode, computed in doubles. Rounding moves a grid point by a few units of the larger bound's last
place. If the step is longer than three tolerances, then neighbouring points stay apart by more than that, and so
do the points before the last one and the upper bound that takes its place.

* `steps_mul_le`, `point_error`, `near_of_le`: the errors of the step count, of a grid point, and of the test for
  landing.
* `landsOn_of_near`, `near_of_landsOn`: the test itself.
* `Coarse`: the sweeps considered.
* `grid_spec`: a grid point in doubles.
* `distinct_count`: the points of such a sweep.
-/

namespace ArithTree
namespace Sweep

open Arithmetic Double

/-! ## Errors -/

section Errors

variable {l h s m d q p g t : Rat} {n k : Nat}

/-- What is rounded to one or more is large enough for the relative error. -/
theorem le_of_one_le {v r : Rat} (h : Nearest v r) (hr : 1 ≤ r) : r ≤ v + v / 2 ^ 53 := by
  have hpow : ((1 : Int) : Rat) * 2 ^ (-1 : Int) = 1 / 2 := by norm_num
  have hrep : Representable (1 / 2) := by
    rw [← hpow]
    exact representable_of_le (by norm_num) (by norm_num)
  have hhalf : 1 / 2 ≤ v := by
    by_contra hless
    have hsmall := h.ge_of_ge hrep (not_le.mp hless).le
    linarith
  have hnonneg : 0 ≤ v := by linarith
  have herror : |r - v| ≤ |v| / 2 ^ 53 := by
    refine h.error_of_normal ?_
    rw [abs_of_nonneg hnonneg]
    calc (2 : Rat) ^ (-1022 : Int) ≤ 2 ^ (-1 : Int) := zpow_le_zpow_right₀ (by norm_num) (by norm_num)
      _ = 1 / 2 := by norm_num
      _ ≤ v := hhalf
  rw [abs_of_nonneg hnonneg] at herror
  have hupper := (abs_le.mp herror).2
  linarith

theorem steps_mul_le (hl : Representable l) (hh : Representable h) (hlm : |l| ≤ m) (hhm : |h| ≤ m) (hle : l ≤ h)
    (hs : 0 < s) (hd : Nearest (h - l) d) (hq : Nearest (d / s) q) (hn : n ≤ q) :
    n * s ≤ h - l + 5 * (m / 2 ^ 53) := by
  obtain ⟨hlow, -⟩ := abs_le.mp hlm
  obtain ⟨-, hhigh⟩ := abs_le.mp hhm
  have hdiff : 0 ≤ h - l := by linarith
  rcases Nat.eq_zero_or_pos n with rfl | hpos
  · rw [Nat.cast_zero, zero_mul]
    linarith
  · have hone : (1 : Rat) ≤ n := by exact_mod_cast hpos
    have hquotient := le_of_one_le hq (hone.trans hn)
    have hmul : n * s ≤ d + d / 2 ^ 53 := by
      have hratio : (n : Rat) ≤ (d + d / 2 ^ 53) / s := by
        rw [add_div, div_right_comm]
        linarith
      rwa [le_div_iff₀ hs] at hratio
    have herror := hd.error (hh.onGrid.sub hl.onGrid)
    rw [abs_of_nonneg hdiff] at herror
    have hupper := (abs_le.mp herror).2
    linarith

theorem point_error (hl : Representable l) (hs : Representable s) (hlm : |l| ≤ m) (hpos : 0 ≤ s)
    (hp : Nearest (k * s) p) (hg : Nearest (l + p) g) (hk : k * s ≤ 5 / 2 * m) :
    |g - (l + k * s)| ≤ 7 * (m / 2 ^ 53) := by
  have hks : 0 ≤ k * s := by positivity
  have hperror := hp.error (hs.onGrid.intMul k)
  have hgerror := hg.error (hl.onGrid.add hp.representable.onGrid)
  have hm : 0 ≤ m := (abs_nonneg l).trans hlm
  rw [abs_of_nonneg hks] at hperror
  have hsum : |l + p| ≤ m + k * s + k * s / 2 ^ 53 := by
    have hpabs : |p| ≤ k * s + k * s / 2 ^ 53 := by
      have htriangle := abs_sub_abs_le_abs_sub p (k * s)
      rw [abs_of_nonneg hks] at htriangle
      linarith
    have htriangle := abs_add_le l p
    linarith
  have hsplit : g - (l + k * s) = (g - (l + p)) + (p - k * s) := by ring
  rw [hsplit]
  have htriangle := abs_add_le (g - (l + p)) (p - k * s)
  linarith

/-- What the computed test for landing says about the exact distance. -/
theorem near_of_le (hh : Representable h) (hg : Representable g) (hm : 0 ≤ m) (hd : Nearest (h - g) d)
    (ht : Nearest (8 / 2 ^ 52 * m) t) (hle : |d| ≤ t) : |h - g| ≤ 33 * (m / 2 ^ 53) := by
  have herror := hd.error (hh.onGrid.sub hg.onGrid)
  have htwice : t ≤ 2 * (8 / 2 ^ 52 * m) := by
    have hzero := ht.distance_le 0 representable_zero
    have hself := le_abs_self (t - 8 / 2 ^ 52 * m)
    rw [zero_sub, abs_neg, abs_of_nonneg (by positivity : (0 : Rat) ≤ 8 / 2 ^ 52 * m)] at hzero
    linarith
  have htriangle := abs_sub_abs_le_abs_sub (h - g) d
  rw [abs_sub_comm (h - g) d] at htriangle
  linarith

theorem le_of_near (hgh : h < g) (hg : g ≤ h + 12 * (m / 2 ^ 53)) (hd : Nearest (h - g) d)
    (ht : Nearest (8 / 2 ^ 52 * m) t) : |d| ≤ t := by
  refine hd.abs.mono ht ?_
  rw [abs_of_neg (by linarith)]
  linarith

/-- A grid point that is not far above the upper bound belongs to a step count that is not too large. -/
theorem mul_le_of_point_le (hl : Representable l) (hs : Representable s) (hlm : |l| ≤ m) (hpos : 0 ≤ s)
    (hp : Nearest (k * s) p) (hg : Nearest (l + p) g) (hle : g ≤ m + 33 * (m / 2 ^ 53)) : k * s ≤ 5 / 2 * m := by
  have hks : 0 ≤ k * s := by positivity
  have hperror := hp.error (hs.onGrid.intMul k)
  have hgerror := hg.error (hl.onGrid.add hp.representable.onGrid)
  have hm : 0 ≤ m := (abs_nonneg l).trans hlm
  obtain ⟨hlow, -⟩ := abs_le.mp hlm
  rw [abs_of_nonneg hks] at hperror
  obtain ⟨hpleast, -⟩ := abs_le.mp hperror
  obtain ⟨hgleast, -⟩ := abs_le.mp hgerror
  rcases abs_cases (l + p) with ⟨habs, -⟩ | ⟨habs, hneg⟩
  · rw [habs] at hgleast
    linarith
  · linarith

end Errors

/-! ## The test for landing -/

/-- Only a finite double has an absolute value up to a finite one. -/
theorem isFinite_of_abs_le {v : Rat} {x y : Float} (h : Rounds v x) (hy : isFinite y = true) (hle : x.abs ≤ y) :
    isFinite x = true := by
  cases h with
  | finite hx _ => exact hx
  | @infinite r s hs _ _ =>
    have habs : x.abs.toModel.unpack = .infinity .positive := by
      show (Float.Model.pack x.toModel.unpack.abs).unpack = _
      rw [hs]
      exact unpack_infinity .positive
    exact absurd hle (not_le_of_lt (lt_infinity hy habs))

theorem isFinite_of_beq {x y : Float} (h : (x == y) = true) (hy : isFinite y = true) : isFinite x = true := by
  rw [isFinite]
  rcases ofFloat_of_beq h with heq | ⟨s, t, hx, -⟩
  · rw [heq]
    exact hy
  · rw [hx]
    rfl

theorem value_slack : isFinite (slack : Float) = true ∧ value slack = 8 / 2 ^ 52 := by
  have hbinary : Binary.ofFloat (slack : Float) = .finite false (2 ^ 52) (-101) := by decide
  refine ⟨by rw [isFinite, hbinary]; rfl, ?_⟩
  rw [value_of_ofFloat hbinary, signed, if_neg Bool.false_ne_true]
  norm_num

section Landing

variable {low high : Float} (hlow : isFinite low = true) (hhigh : isFinite high = true)

/-- The magnitude of the larger bound. -/
def larger (low high : Float) : Rat := max |value low| |value high|

theorem abs_low_le (low high : Float) : |value low| ≤ larger low high := le_max_left _ _

theorem abs_high_le (low high : Float) : |value high| ≤ larger low high := le_max_right _ _

theorem larger_nonneg (low high : Float) : 0 ≤ larger low high := (abs_nonneg _).trans (abs_low_le low high)

theorem tolerance_eq (low high : Float) :
    tolerance (value low) (value high) = 16 * (larger low high / 2 ^ 53) := by
  rw [tolerance, larger]
  ring

/-- The larger bound, as the test computes it. -/
def scale (low high : Float) : Float := if high.abs ≤ low.abs then low.abs else high.abs

include hlow hhigh

theorem value_scale : isFinite (scale low high) = true ∧
    value (scale low high) = larger low high := by
  obtain ⟨hlow', hlowValue⟩ := value_abs hlow
  obtain ⟨hhigh', hhighValue⟩ := value_abs hhigh
  rw [scale]
  split
  · rename_i hle
    rw [le_iff hhigh' hlow', hlowValue, hhighValue] at hle
    exact ⟨hlow', by rw [hlowValue, larger, max_eq_left hle]⟩
  · rename_i hlt
    rw [le_iff hhigh' hlow', hlowValue, hhighValue, not_le] at hlt
    exact ⟨hhigh', by rw [hhighValue, larger, max_eq_right hlt.le]⟩

theorem tolerance_rounds : isFinite (slack * scale low high) = true ∧
    Nearest (tolerance (value low) (value high)) (value (slack * scale low high)) := by
  obtain ⟨hslack, hslackValue⟩ := value_slack
  obtain ⟨hscale, hscaleValue⟩ := value_scale hlow hhigh
  have hrounds := mul_rounds hslack hscale
  have hsize := abs_value_lt hscale
  have hnonneg : 0 ≤ value (scale low high) := by
    rw [hscaleValue]
    exact larger_nonneg low high
  rw [abs_of_nonneg hnonneg] at hsize
  have hfinite : isFinite (slack * scale low high) = true := by
    refine hrounds.isFinite (representable_value hscale) ?_ hsize
    rw [hslackValue, abs_of_nonneg (by positivity)]
    linarith
  have hnearest := hrounds.nearest hfinite
  rw [hslackValue, hscaleValue] at hnearest
  exact ⟨hfinite, hnearest⟩

omit hlow hhigh in
theorem landsOn_eq (x low high : Float) : landsOn x low high =
    ((x == high) || (isFinite x && isFinite high && decide ((high - x).abs ≤ slack * scale low high))) := by
  have hscale : (if le (Arithmetic.abs high) (Arithmetic.abs low) then Arithmetic.abs low else Arithmetic.abs high) =
      scale low high := by
    by_cases h : high.abs ≤ low.abs
    · rw [scale, if_pos h]
      exact if_pos (decide_eq_true h)
    · rw [scale, if_neg h]
      refine if_neg ?_
      exact fun hle => h (of_decide_eq_true hle)
  rw [landsOn, hscale]
  show ((x == high) || ((Double.floor? x).isSome && (Double.floor? high).isSome && _)) = _
  rw [isSome_floor?, isSome_floor?]
  rfl

/-- What lands on the upper bound is not far from it. -/
theorem near_of_landsOn {x : Float} (h : landsOn x low high = true) :
    isFinite x = true ∧ |value high - value x| ≤ 33 * (larger low high / 2 ^ 53) := by
  have hmax := larger_nonneg low high
  rw [landsOn_eq, Bool.or_eq_true] at h
  rcases h with hsame | hnear
  · have hx := isFinite_of_beq hsame hhigh
    rw [beq_iff hx hhigh] at hsame
    refine ⟨hx, ?_⟩
    rw [hsame, sub_self, abs_zero]
    positivity
  · simp only [Bool.and_eq_true, decide_eq_true_eq] at hnear
    obtain ⟨⟨hx, -⟩, hle⟩ := hnear
    obtain ⟨htolerance, hnearest⟩ := tolerance_rounds hlow hhigh
    have hrounds := sub_rounds hhigh hx
    have hdiff := isFinite_of_abs_le hrounds htolerance hle
    obtain ⟨habs, habsValue⟩ := value_abs hdiff
    rw [le_iff habs htolerance, habsValue] at hle
    refine ⟨hx, ?_⟩
    exact near_of_le (representable_value hhigh) (representable_value hx) hmax (hrounds.nearest hdiff) hnearest hle

/-- What is just above the upper bound lands on it. -/
theorem landsOn_of_near {x : Float} (hx : isFinite x = true) (hgt : value high < value x)
    (hle : value x ≤ value high + 12 * (larger low high / 2 ^ 53)) : landsOn x low high = true := by
  obtain ⟨htolerance, hnearest⟩ := tolerance_rounds hlow hhigh
  have hrounds := sub_rounds hhigh hx
  have hmax := abs_high_le low high
  have hdiff : isFinite (high - x) = true := by
    refine hrounds.isFinite (representable_value (value_scale hlow hhigh).1) ?_ ?_
    · rw [(value_scale hlow hhigh).2, abs_of_neg (by linarith)]
      have hnonneg := abs_nonneg (value high)
      linarith
    · have hsize := abs_value_lt (value_scale hlow hhigh).1
      exact (le_abs_self _).trans_lt hsize
  obtain ⟨habs, habsValue⟩ := value_abs hdiff
  have hnear : (high - x).abs ≤ slack * scale low high := by
    rw [le_iff habs htolerance, habsValue]
    exact le_of_near hgt hle (hrounds.nearest hdiff) hnearest
  rw [landsOn_eq, hx, hhigh, decide_eq_true hnear]
  exact Bool.or_true _

end Landing

/-! ## Grid points -/

/-- A sweep with finite bounds and a step that is long beside the tolerance. No difference of the bounds overflows,
nor any multiple of the step that the sweep comes to. -/
structure Coarse (low high step : Float) : Prop where
  finiteLow : isFinite low = true
  finiteHigh : isFinite high = true
  finiteStep : isFinite step = true
  ordered : value low ≤ value high
  range : larger low high ≤ 2 ^ (1022 : Int)
  long : 3 * tolerance (value low) (value high) < value step

/-- If a sum is finite, then so is a rounded summand. -/
theorem isFinite_right {v : Rat} {x y : Float} (hx : isFinite x = true) (h : Rounds v y)
    (hsum : isFinite (x + y) = true) : isFinite y = true := by
  cases h with
  | finite hy _ => exact hy
  | infinite s hs _ _ =>
    have hnormal := normalized_of_isFinite hsum
    have hunpack : (x + y).toModel.unpack = .infinity s := by
      have hx' := normalized_of_isFinite hx
      show (Float.Model.pack (.add Float.Model.Format.binary64 x.toModel.unpack y.toModel.unpack)).unpack = _
      rw [hs]
      cases hu : x.toModel.unpack with
      | notANumber =>
        rw [hu] at hx'
        cases hx'
      | infinity t =>
        rw [hu] at hx'
        cases hx'
      | zero t => exact unpack_infinity s
      | finite t m e hm => exact unpack_infinity s
    rw [hunpack] at hnormal
    cases hnormal

/-- An eighth of the range of doubles. -/
def eighth : Rat := 2 ^ (1021 : Int)

theorem representable_eighths {c : Nat} (h : c < 8) : Representable (c * eighth) := by
  have hsmall : |(c : Int)| ≤ 2 ^ 53 := by
    rw [Nat.abs_cast]
    omega
  exact representable_of_le hsmall (by norm_num : (-1074 : Int) ≤ 1021)

theorem isFinite_of_eighths {v : Rat} {x : Float} {c : Nat} (h : Rounds v x) (hc : c < 8) (hle : |v| ≤ c * eighth) :
    isFinite x = true := by
  refine h.isFinite (representable_eighths hc) hle ?_
  have hrange : (2 : Rat) ^ (1024 : Int) = 8 * eighth := by
    rw [eighth, (by norm_num : (1024 : Int) = 3 + 1021), zpow_add₀ two_ne_zero]
    norm_num
  have hcast : (c : Rat) < 8 := by exact_mod_cast hc
  rw [hrange]
  exact mul_lt_mul_of_pos_right hcast (zpow_pos two_pos _)

section Grid

variable {low high step : Float} (hc : Coarse low high step) {k : Nat}

include hc

theorem Coarse.step_pos : 0 < value step := by
  have hlong := hc.long
  have htolerance := tolerance_nonneg (value low) (value high)
  linarith

theorem Coarse.larger_le : larger low high ≤ 2 * eighth := by
  have hrange := hc.range
  rwa [(by norm_num : (1022 : Int) = 1 + 1021), zpow_add₀ two_ne_zero, zpow_one] at hrange

/-- What is rounded on the way to a grid point. -/
theorem grid_rounds (hk : k < 2 ^ 53) :
    Rounds (k * value step) (Double.ofInt k * step) := by
  obtain ⟨hfinite, hvalue⟩ := value_ofInt hk
  have hrounds := mul_rounds hfinite hc.finiteStep
  rwa [hvalue] at hrounds

theorem grid_nearest (hk : k < 2 ^ 53) (hfinite : isFinite (gridPoint low step k) = true) :
    ∃ p, Nearest (k * value step) p ∧ Nearest (value low + p) (value (gridPoint low step k)) := by
  have hrounds := grid_rounds hc hk
  have hproduct := isFinite_right hc.finiteLow hrounds hfinite
  exact ⟨_, hrounds.nearest hproduct, (add_rounds hc.finiteLow hproduct).nearest hfinite⟩

theorem grid_finite (hk : k < 2 ^ 53) (hks : k * value step ≤ 5 / 2 * larger low high) :
    isFinite (gridPoint low step k) = true := by
  have hrange := hc.larger_le
  have hnonneg : 0 ≤ k * value step := mul_nonneg (Nat.cast_nonneg k) hc.step_pos.le
  have hfive : k * value step ≤ (5 : Nat) * eighth := by
    push_cast
    linarith
  have hrounds := grid_rounds hc hk
  have hproduct := isFinite_of_eighths (c := 5) hrounds (by norm_num) (by rwa [abs_of_nonneg hnonneg])
  have hpoint := hrounds.nearest hproduct
  have hupper := hpoint.ge_of_ge (representable_eighths (by norm_num)) hfive
  have hlower := hpoint.nonneg hnonneg
  refine isFinite_of_eighths (c := 7) (add_rounds hc.finiteLow hproduct) (by norm_num) ?_
  have htriangle := abs_add_le (value low) (value (Double.ofInt k * step))
  have hlow := abs_low_le low high
  rw [abs_of_nonneg hlower] at htriangle
  refine htriangle.trans ?_
  push_cast at hupper ⊢
  linarith

theorem grid_spec (hk : k < 2 ^ 53) (hks : k * value step ≤ 5 / 2 * larger low high) :
    isFinite (gridPoint low step k) = true ∧ value low ≤ value (gridPoint low step k) ∧
      |value (gridPoint low step k) - (value low + k * value step)| ≤
        7 * (larger low high / 2 ^ 53) := by
  have hfinite := grid_finite hc hk hks
  obtain ⟨p, hp, hg⟩ := grid_nearest hc hk hfinite
  have hstep := hc.step_pos
  have hnonneg := hp.nonneg (by positivity)
  exact ⟨hfinite, hg.le_of_le (representable_value hc.finiteLow) (by linarith),
    point_error (representable_value hc.finiteLow) (representable_value hc.finiteStep) (abs_low_le low high)
      hstep.le hp hg hks⟩

/-- Grid points keep their order, whichever errors they have. -/
theorem grid_lt {j : Nat} (hjk : j < k) (hk : k < 2 ^ 53)
    (hks : k * value step ≤ 5 / 2 * larger low high) :
    value (gridPoint low step j) < value (gridPoint low step k) := by
  have hpos := hc.step_pos
  have hlong := hc.long
  rw [tolerance_eq] at hlong
  have hnext : (j : Rat) * value step + value step ≤ k * value step := by
    have hcast : (j : Rat) + 1 ≤ k := by exact_mod_cast hjk
    nlinarith
  obtain ⟨-, -, hj⟩ := grid_spec hc (hjk.trans hk) (by linarith : j * value step ≤ _)
  obtain ⟨-, -, hk'⟩ := grid_spec hc hk hks
  have hupper := (abs_le.mp hj).2
  have hlower := (abs_le.mp hk').1
  have hmax : 0 ≤ larger low high / 2 ^ 53 := div_nonneg (larger_nonneg low high) (by norm_num)
  linarith

/-! ## The mode -/

/-- What the points need beside their order: all but the last are clearly below the upper bound, and the last is not
above it. -/
theorem distinct_countPoints {n : Nat} {ends : Bool} (hn : n < 2 ^ 53)
    (hns : n * value step ≤ 5 / 2 * larger low high)
    (hbefore : ∀ k : Nat, k < n →
      value low + k * value step + 7 * (larger low high / 2 ^ 53) < value high)
    (hlast : ends = false → value (gridPoint low step n) ≤ value high) :
    Distinct low high (countPoints low high step n ends) := by
  have hpos := hc.step_pos
  have hks : ∀ k : Nat, k ≤ n → k * value step ≤ 5 / 2 * larger low high := by
    intro k hk
    have hcast : (k : Rat) ≤ n := by exact_mod_cast hk
    nlinarith
  have hspec := fun k (hk : k ≤ n) => grid_spec hc (by omega) (hks k hk)
  have hbelow : ∀ k : Nat, k < n → value (gridPoint low step k) < value high := by
    intro k hk
    have herror := (abs_le.mp (hspec k hk.le).2.2).2
    have hless := hbefore k hk
    linarith
  refine distinct_of_values hc.finiteLow hc.finiteHigh (by simp) (fun x hx => ?_) (pairwise_countPoints.mpr ⟨?_, ?_⟩)
  · rcases mem_countPoints hx with ⟨k, hk, rfl⟩ | rfl
    · obtain ⟨hfinite, hge, -⟩ := hspec k hk.le
      exact ⟨hfinite, hge, (hbelow k hk).le⟩
    · cases ends with
      | true => exact ⟨hc.finiteHigh, hc.ordered, le_rfl⟩
      | false =>
        obtain ⟨hfinite, hge, -⟩ := hspec n le_rfl
        exact ⟨hfinite, hge, hlast rfl⟩
  · intro j k hjk hk
    exact grid_lt hc hjk (by omega) (hks k hk.le)
  · intro k hk
    cases ends with
    | true => exact hbelow k hk
    | false => exact grid_lt hc hk hn hns

theorem difference_finite : isFinite (high - low) = true := by
  refine isFinite_of_eighths (c := 4) (sub_rounds hc.finiteHigh hc.finiteLow) (by norm_num) ?_
  have hrange := hc.larger_le
  have hlow := abs_low_le low high
  have hhigh := abs_high_le low high
  have htriangle := abs_sub (value high) (value low)
  push_cast
  linarith

/-- The computed number of steps goes little beyond the upper bound. -/
theorem floor_spec {i : Int} (hi : Double.floor? ((high - low) / step) = some i) :
    ∃ n : Nat, i = n ∧ n * value step ≤ value high - value low + 5 * (larger low high / 2 ^ 53) ∧
      n + 1 < 2 ^ 53 := by
  have hpos := hc.step_pos
  have hordered := hc.ordered
  have hlow := abs_low_le low high
  have hhigh := abs_high_le low high
  have hdiff := difference_finite hc
  have hd := (sub_rounds hc.finiteHigh hc.finiteLow).nearest hdiff
  have hquotient : isFinite ((high - low) / step) = true := by
    rw [← isSome_floor?, hi]
    rfl
  have hq := (div_rounds hdiff hc.finiteStep hpos.ne').nearest hquotient
  rw [floor?_eq hquotient] at hi
  have hnonneg : 0 ≤ value ((high - low) / step) :=
    hq.nonneg (div_nonneg (hd.nonneg (by linarith)) hpos.le)
  obtain ⟨n, hn⟩ := Int.eq_ofNat_of_zero_le (Int.floor_nonneg.mpr hnonneg)
  have hle : (n : Rat) ≤ value ((high - low) / step) := by
    have hfloor := Int.floor_le (value ((high - low) / step))
    rwa [hn, Int.cast_natCast] at hfloor
  have hsteps := steps_mul_le (representable_value hc.finiteLow) (representable_value hc.finiteHigh) hlow hhigh hordered
    hpos hd hq hle
  refine ⟨n, (Option.some.inj hi).symm.trans hn, hsteps, ?_⟩
  -- So many steps, each longer than the tolerance, are longer than the range.
  by_contra hmany
  have hcast : (2 : Rat) ^ 50 ≤ n := by exact_mod_cast (by omega : 2 ^ 50 ≤ n)
  have hlong := hc.long
  rw [tolerance_eq] at hlong
  have hmul := mul_le_mul_of_nonneg_right hcast hpos.le
  have hleast := (abs_le.mp hlow).1
  have hmost := (abs_le.mp hhigh).2
  linarith

/-- The two ways to count: the grid point beyond the computed number of steps lands on the upper bound, or it does
not. -/
theorem countSteps_float {i : Int} {ends : Bool} (h : countSteps low high step = .ok (i, ends)) :
    ∃ n : Nat, n * value step ≤ value high - value low + 5 * (larger low high / 2 ^ 53) ∧
      n + 1 < 2 ^ 53 ∧
      (i = (n + 1 : Nat) ∧ ends = true ∧ landsOn (gridPoint low step (n + 1 : Nat)) low high = true ∨
        i = n ∧ ends = landsOn (gridPoint low step n) low high) := by
  rw [countSteps] at h
  split at h
  · cases h
  · split at h
    · cases h
    · rename_i j hj
      obtain ⟨n, rfl, hsteps, hn⟩ := floor_spec hc hj
      refine ⟨n, hsteps, hn, ?_⟩
      split at h
      · rename_i hlands
        cases h
        exact .inl ⟨rfl, rfl, hlands⟩
      · cases h
        exact .inr ⟨rfl, rfl⟩

theorem distinct_count {limit : Int} {xs : Array Float} (h : points .count low high step limit = (xs, none)) :
    Distinct low high xs.toList := by
  have hpos := hc.step_pos
  have hlong := hc.long
  rw [tolerance_eq] at hlong
  have hmax : 0 ≤ larger low high / 2 ^ 53 := div_nonneg (larger_nonneg low high) (by norm_num)
  have hlow : -larger low high ≤ value low := (abs_le.mp (abs_low_le low high)).1
  have hhigh : value high ≤ larger low high := (abs_le.mp (abs_high_le low high)).2
  have hsucc : ∀ k n : Nat, k < n → (k : Rat) * value step + value step ≤ n * value step := by
    intro k n hk
    have hcast : (k : Rat) + 1 ≤ n := by exact_mod_cast hk
    nlinarith
  obtain ⟨i, ends, hcount, hpoints⟩ := countPoints_of_completed h
  obtain ⟨n, hsteps, hn, ⟨hi, rfl, hlands⟩ | ⟨hi, hends⟩⟩ := countSteps_float hc hcount
  · obtain ⟨hfinite, hnear⟩ := near_of_landsOn hc.finiteLow hc.finiteHigh hlands
    obtain ⟨p, hp, hg⟩ := grid_nearest hc hn hfinite
    have hclose := (abs_le.mp hnear).1
    have hns := mul_le_of_point_le (representable_value hc.finiteLow) (representable_value hc.finiteStep)
      (abs_low_le low high) hpos.le hp hg (by linarith)
    have herror := (abs_le.mp (grid_spec hc hn hns).2.2).1
    rw [hpoints _ hi]
    refine distinct_countPoints hc hn hns (fun k hk => ?_) nofun
    have hnext := hsucc k (n + 1) hk
    linarith
  · have hns : n * value step ≤ 5 / 2 * larger low high := by linarith
    obtain ⟨hfinite, -, hspec⟩ := grid_spec hc (by omega) hns
    have herror := (abs_le.mp hspec).2
    rw [hpoints _ hi]
    refine distinct_countPoints hc (by omega) hns (fun k hk => ?_) fun hfalse => ?_
    · have hnext := hsucc k n hk
      linarith
    · by_contra hgt
      have hlands := landsOn_of_near hc.finiteLow hc.finiteHigh hfinite (not_le.mp hgt) (by linarith)
      exact Bool.false_ne_true (hfalse.symm.trans (hends.trans hlands))

end Grid

end Sweep
end ArithTree
