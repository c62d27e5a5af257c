import Mathlib

/-!
# ArithTree.Proofs.Double.Nearest

Rounding to the numbers of fifty-three bits, as if their exponents had no upper limit. Which of two equally
near numbers is taken does not matter here: what rounding to a nearest one keeps, and how far it goes, is the
same for both.

* `nearest_of_grid`: on the grid of the leading bit, a nearest multiple is a nearest number of all.
* `Nearest.le_of_le`, `Nearest.mono`: rounding does not pass a representable number, and keeps the order.
* `Nearest.error`: the relative error. There is none in the sums of doubles that are too small for it.
-/

namespace ArithTree
namespace Double

/-- A number of fifty-three bits on a grid that is nowhere finer than `2 ^ (-1074)`. -/
def Representable (w : Rat) : Prop :=
  ∃ a e : Int, w = a * 2 ^ e ∧ |a| < 2 ^ 53 ∧ -1074 ≤ e

/-- No representable number is closer to `v` than `r`. -/
structure Nearest (v r : Rat) : Prop where
  representable : Representable r
  distance_le : ∀ w, Representable w → |r - v| ≤ |w - v|

def finest : Rat := 2 ^ (-1074 : Int)

def OnGrid (v : Rat) : Prop := ∃ k : Int, v = k * finest

variable {v w r s : Rat}

/-! ## Representable numbers -/

theorem finest_pos : 0 < finest := by
  unfold finest
  positivity

theorem two_zpow_least : (2 : Rat) ^ (-1022 : Int) = 2 ^ 52 * finest := by
  rw [finest, ← zpow_natCast, ← zpow_add₀ two_ne_zero]
  rfl

theorem two_zpow_split {e f : Int} (h : e ≤ f) : (2 : Rat) ^ f = ((2 ^ (f - e).toNat : Int) : Rat) * 2 ^ e := by
  have hsum : f = ((f - e).toNat : Int) + e := by omega
  conv_lhs => rw [hsum, zpow_add₀ two_ne_zero, zpow_natCast]
  push_cast
  rfl

/-- A full significand is the least one of the next exponent. -/
theorem representable_of_le {a e : Int} (ha : |a| ≤ 2 ^ 53) (he : -1074 ≤ e) :
    Representable (a * 2 ^ e) := by
  have hnext : (2 : Rat) ^ (e + 1) = 2 ^ e * 2 := by rw [zpow_add₀ two_ne_zero, zpow_one]
  rcases lt_or_eq_of_le ha with hlt | heq
  · exact ⟨a, e, rfl, hlt, he⟩
  · rcases eq_or_eq_neg_of_abs_eq heq with rfl | rfl
    · refine ⟨2 ^ 52, e + 1, ?_, by norm_num, by omega⟩
      rw [hnext]
      push_cast
      ring
    · refine ⟨-2 ^ 52, e + 1, ?_, by norm_num, by omega⟩
      rw [hnext]
      push_cast
      ring

theorem representable_zero : Representable 0 := ⟨0, 0, by simp, by norm_num, by norm_num⟩

theorem Representable.neg (h : Representable w) : Representable (-w) := by
  obtain ⟨a, e, rfl, ha, he⟩ := h
  exact ⟨-a, e, by push_cast; ring, by rwa [abs_neg], he⟩

theorem Representable.onGrid (h : Representable w) : OnGrid w := by
  obtain ⟨a, e, rfl, -, he⟩ := h
  refine ⟨a * 2 ^ (e - -1074).toNat, ?_⟩
  rw [two_zpow_split he, Int.cast_mul, mul_assoc]
  rfl

theorem OnGrid.neg (h : OnGrid v) : OnGrid (-v) := by
  obtain ⟨k, rfl⟩ := h
  exact ⟨-k, by push_cast; ring⟩

theorem OnGrid.add (hv : OnGrid v) (hw : OnGrid w) : OnGrid (v + w) := by
  obtain ⟨j, rfl⟩ := hv
  obtain ⟨k, rfl⟩ := hw
  exact ⟨j + k, by push_cast; ring⟩

theorem OnGrid.sub (hv : OnGrid v) (hw : OnGrid w) : OnGrid (v - w) := by
  rw [sub_eq_add_neg]
  exact hv.add hw.neg

theorem OnGrid.intMul (hv : OnGrid v) (k : Int) : OnGrid (k * v) := by
  obtain ⟨j, rfl⟩ := hv
  exact ⟨k * j, by push_cast; ring⟩

/-! ## Nearest numbers -/

theorem Nearest.refl (h : Representable v) : Nearest v v where
  representable := h
  distance_le w _ := by
    rw [sub_self, abs_zero]
    exact abs_nonneg _

theorem Nearest.eq (h : Nearest v r) (hv : Representable v) : r = v := by
  have hzero := h.distance_le v hv
  rw [sub_self, abs_zero] at hzero
  exact sub_eq_zero.mp (abs_nonpos_iff.mp hzero)

theorem Nearest.neg (h : Nearest v r) : Nearest (-v) (-r) where
  representable := h.representable.neg
  distance_le w hw := by
    have hle := h.distance_le (-w) hw.neg
    have hleft : |-r - -v| = |r - v| := by rw [← abs_neg]; ring_nf
    have hright : |-w - v| = |w - -v| := by rw [← abs_neg]; ring_nf
    rw [hleft, ← hright]
    exact hle

theorem Nearest.le_of_le (h : Nearest v r) (hw : Representable w) (hle : w ≤ v) : w ≤ r := by
  by_contra hlt
  rw [not_le] at hlt
  have hnear := h.distance_le w hw
  rw [abs_of_nonpos (by linarith), abs_of_nonpos (by linarith)] at hnear
  linarith

theorem Nearest.ge_of_ge (h : Nearest v r) (hw : Representable w) (hle : v ≤ w) : r ≤ w :=
  neg_le_neg_iff.mp (h.neg.le_of_le hw.neg (neg_le_neg hle))

/-- Of two different numbers the lesser is not rounded to the greater result: each result would be nearer to
the other number. -/
theorem Nearest.mono (hv : Nearest v r) (hw : Nearest w s) (hlt : v < w) : r ≤ s := by
  by_contra hgt
  rw [not_le] at hgt
  have hvs := hv.distance_le s hw.representable
  have hwr := hw.distance_le r hv.representable
  have hv' : s + r ≤ 2 * v := by
    cases abs_cases (r - v) <;> cases abs_cases (s - v) <;> linarith
  have hw' : 2 * w ≤ s + r := by
    cases abs_cases (s - w) <;> cases abs_cases (r - w) <;> linarith
  linarith

theorem Nearest.nonneg (h : Nearest v r) (hv : 0 ≤ v) : 0 ≤ r := h.le_of_le representable_zero hv

theorem Nearest.nonpos (h : Nearest v r) (hv : v ≤ 0) : r ≤ 0 := h.ge_of_ge representable_zero hv

theorem Nearest.abs (h : Nearest v r) : Nearest |v| |r| := by
  rcases le_total 0 v with hv | hv
  · rwa [abs_of_nonneg hv, abs_of_nonneg (h.nonneg hv)]
  · rw [abs_of_nonpos hv, abs_of_nonpos (h.nonpos hv)]
    exact h.neg

/-! ## The grid of the leading bit -/

theorem distance_le_of_multiple {a c e : Int} (ha : |a * 2 ^ e - v| ≤ 2 ^ e / 2) :
    |a * 2 ^ e - v| ≤ |c * 2 ^ e - v| := by
  have hunit : (0 : Rat) < 2 ^ e := by positivity
  rcases eq_or_ne a c with rfl | hne
  · exact le_rfl
  · have hone : (1 : Rat) ≤ |(a : Rat) - c| := by
      have hint : (1 : Int) ≤ |a - c| := Int.one_le_abs (sub_ne_zero.mpr hne)
      exact_mod_cast hint
    have hapart : 2 ^ e ≤ |(a * 2 ^ e - c * 2 ^ e : Rat)| := by
      rw [← sub_mul, abs_mul, abs_of_pos hunit]
      nlinarith
    have htriangle := abs_sub_le (a * 2 ^ e : Rat) v (c * 2 ^ e : Rat)
    rw [abs_sub_comm v] at htriangle
    linarith

/-- Finer numbers than those of the grid are all below the leading bit, which lies on the grid. -/
theorem nearest_of_grid {a e : Int} (he : -1074 ≤ e) (hfull : e = -1074 ∨ 2 ^ 52 * 2 ^ e ≤ |v|)
    (hlt : |v| < 2 ^ 53 * 2 ^ e) (ha : |a * 2 ^ e - v| ≤ 2 ^ e / 2) : Nearest v (a * 2 ^ e : Rat) := by
  have hunit : (0 : Rat) < 2 ^ e := by positivity
  have hbound : |a| ≤ 2 ^ 53 := by
    have hsize : |(a : Rat)| * 2 ^ e < (2 ^ 53 + 1) * 2 ^ e := by
      have htriangle := abs_sub_abs_le_abs_sub (a * 2 ^ e : Rat) v
      rw [abs_mul, abs_of_pos hunit] at htriangle
      linarith
    have hint : |a| < 2 ^ 53 + 1 := by exact_mod_cast lt_of_mul_lt_mul_right hsize hunit.le
    omega
  refine ⟨representable_of_le hbound he, ?_⟩
  rintro w ⟨b, f, rfl, hb, hf⟩
  rcases le_or_gt e f with hef | hfe
  · rw [two_zpow_split hef, ← mul_assoc, ← Int.cast_mul]
    exact distance_le_of_multiple ha
  · have hlead : 2 ^ 52 * 2 ^ e ≤ |v| := hfull.resolve_left (by omega)
    have hcoarse : (2 : Rat) ^ f * 2 ≤ 2 ^ e := by
      rw [← zpow_add_one₀ two_ne_zero]
      exact zpow_le_zpow_right₀ (by norm_num) (by omega)
    have hsmall : |(b : Rat) * 2 ^ f| ≤ 2 ^ 52 * 2 ^ e := by
      have hb' : |(b : Rat)| ≤ 2 ^ 53 := by exact_mod_cast hb.le
      rw [abs_mul, abs_of_pos (by positivity : (0 : Rat) < 2 ^ f)]
      nlinarith [abs_nonneg (b : Rat), (by positivity : (0 : Rat) < 2 ^ f)]
    obtain ⟨hlow, hhigh⟩ := abs_le.mp hsmall
    rcases le_total 0 v with hv | hv
    · rw [abs_of_nonneg hv] at hlead
      refine (distance_le_of_multiple (c := 2 ^ 52) ha).trans ?_
      push_cast
      rw [abs_of_nonpos (by linarith), abs_of_nonpos (by linarith)]
      linarith
    · rw [abs_of_nonpos hv] at hlead
      refine (distance_le_of_multiple (c := -2 ^ 52) ha).trans ?_
      push_cast
      rw [abs_of_nonneg (by linarith), abs_of_nonneg (by linarith)]
      linarith

/-! ## The error -/

/-- A number that is not below the least normal one has a representable number next to it. -/
theorem exists_representable_near (hv : 2 ^ (-1022 : Int) ≤ |v|) :
    ∃ w, Representable w ∧ |w - v| ≤ |v| / 2 ^ 53 := by
  have hpos : 0 < |v| := (by positivity : (0 : Rat) < 2 ^ (-1022 : Int)).trans_le hv
  obtain ⟨e, hlead, hlt⟩ : ∃ e : Int, 2 ^ 52 * 2 ^ e ≤ |v| ∧ |v| < 2 ^ 53 * 2 ^ e := by
    refine ⟨Int.log 2 |v| - 52, ?_, ?_⟩
    · have hlog := Int.zpow_log_le_self (by norm_num : 1 < 2) hpos
      have hsplit : (2 : Rat) ^ Int.log 2 |v| = 2 ^ 52 * 2 ^ (Int.log 2 |v| - 52) := by
        rw [← zpow_natCast, ← zpow_add₀ two_ne_zero]
        congr 1
        omega
      rwa [← hsplit]
    · have hlog := Int.lt_zpow_succ_log_self (by norm_num : 1 < 2) |v|
      have hsplit : (2 : Rat) ^ (Int.log 2 |v| + 1) = 2 ^ 53 * 2 ^ (Int.log 2 |v| - 52) := by
        rw [← zpow_natCast, ← zpow_add₀ two_ne_zero]
        congr 1
        omega
      rwa [← hsplit]
  have hunit : (0 : Rat) < 2 ^ e := by positivity
  have he : -1074 ≤ e := by
    have hexp : (2 : Rat) ^ (-1022 : Int) < 2 ^ (53 + e) := by
      rw [zpow_add₀ two_ne_zero]
      exact hv.trans_lt hlt
    have hlt' := (zpow_lt_zpow_iff_right₀ (by norm_num : (1 : Rat) < 2)).mp hexp
    omega
  have hround : |(round (v / 2 ^ e) : Rat) * 2 ^ e - v| ≤ 2 ^ e / 2 := by
    have hhalf := abs_sub_round (v / 2 ^ e)
    have hscale : (round (v / 2 ^ e) : Rat) * 2 ^ e - v = -((v / 2 ^ e - round (v / 2 ^ e)) * 2 ^ e) := by
      field_simp
      ring
    rw [hscale, abs_neg, abs_mul, abs_of_pos hunit]
    nlinarith
  refine ⟨_, (nearest_of_grid he (.inr hlead) hlt hround).representable, hround.trans ?_⟩
  linarith

theorem Nearest.error_of_normal (h : Nearest v r) (hv : 2 ^ (-1022 : Int) ≤ |v|) :
    |r - v| ≤ |v| / 2 ^ 53 := by
  obtain ⟨w, hw, hnear⟩ := exists_representable_near hv
  exact (h.distance_le w hw).trans hnear

/-- A sum or a multiple of doubles that is too small to be rounded relative to its size is not rounded. -/
theorem representable_of_small (hgrid : OnGrid v) (hv : |v| < 2 ^ (-1022 : Int)) : Representable v := by
  obtain ⟨k, rfl⟩ := hgrid
  rw [abs_mul, abs_of_pos finest_pos, two_zpow_least] at hv
  have hk : |k| < 2 ^ 52 := by exact_mod_cast lt_of_mul_lt_mul_right hv finest_pos.le
  exact representable_of_le (by omega) (le_refl (-1074))

theorem Nearest.error (h : Nearest v r) (hgrid : OnGrid v) : |r - v| ≤ |v| / 2 ^ 53 := by
  rcases le_or_gt (2 ^ (-1022 : Int)) |v| with hnormal | hsmall
  · exact h.error_of_normal hnormal
  · rw [h.eq (representable_of_small hgrid hsmall), sub_self, abs_zero]
    positivity

end Double
end ArithTree
