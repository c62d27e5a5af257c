import ArithTree.Proofs.Sweep.Rounded

/-!
# ArithTree.Proofs.Sweep.Distinct

Is a sample taken twice, or outside of the bounds? In `accumulate` mode never. In `count` mode the look-ahead can
take one twice: the distance at which a grid point counts as the upper bound is relative to the bounds and not to
the step, so with a step within the tolerance the point after the upper bound lands on it as well.

* `distinct_count_rat`: without rounding, this is the one way for it to happen.
* `points_distinct`: both modes, without rounding and in doubles.
* `points_not_distinct`: a range of one point that is sampled twice, and a sample beyond the bounds, where a multiple
  of the step overflows.
-/

namespace ArithTree
namespace Sweep

open Double

section Exact

variable {low high step : Rat} {n : Nat}

/-- The upper bound is a grid point, and the step takes it to one that still counts as the bound. -/
def Repeats (low high step : Rat) : Prop := step ≤ tolerance low high ∧ ∃ k : Nat, low + k * step = high

theorem repeats_iff (hstep : 0 < step) (hgrid : ∀ k : Nat, low + k * step ≤ high ↔ k ≤ n) :
    Repeats low high step ↔ Near low high step (n + 1) ∧ low + n * step = high := by
  have hnext : low + (n + 1 : Nat) * step = low + n * step + step := by
    push_cast
    ring
  constructor
  · rintro ⟨hshort, k, hk⟩
    have hlast : low + n * step = high := by
      have hwithin := (hgrid n).mpr le_rfl
      have hmost := gridPoint_le low hstep ((hgrid k).mp hk.le)
      linarith
    refine ⟨?_, hlast⟩
    rw [Near, hnext, hlast, add_sub_cancel_left, abs_of_pos hstep]
    exact hshort
  · rintro ⟨hnear, hlast⟩
    rw [Near, hnext, hlast, add_sub_cancel_left, abs_of_pos hstep] at hnear
    exact ⟨hnear, n, hlast⟩

theorem distinct_iff {xs : List Rat} (hne : 1 ≤ xs.length) (hwithin : ∀ x ∈ xs, low ≤ x ∧ x ≤ high) :
    Distinct low high xs ↔ xs.Pairwise (· < ·) := by
  refine ⟨fun h => h.increasing, fun hpair => ⟨hpair, hwithin, fun hge => ?_⟩⟩
  refine length_eq_one hne hpair fun x hx y hy hlt => ?_
  have hx' := (hwithin x hx).1
  have hy' := (hwithin y hy).2
  linarith

theorem distinct_count_rat (hle : low ≤ high) (hstep : 0 < step) {limit : Int} {xs : Array Rat}
    (h : points .count low high step limit = (xs, none)) :
    (∀ x ∈ xs.toList, low ≤ x ∧ x ≤ high) ∧ (Distinct low high xs.toList ↔ ¬ Repeats low high step) := by
  obtain ⟨i, ends, hcount, hpoints⟩ := countPoints_of_completed h
  obtain ⟨n, hgrid, hcases⟩ := countSteps_cases hle hstep
  have hlast := (hgrid n).mpr le_rfl
  rw [repeats_iff hstep hgrid]
  rw [hcount] at hcases
  rcases hcases with ⟨hnear, hok⟩ | ⟨hfar, hrest⟩
  · obtain ⟨hi, rfl⟩ := Prod.mk.inj (Except.ok.inj hok)
    rw [hpoints _ hi]
    have hwithin : ∀ x ∈ countPoints low high step (n + 1) true, low ≤ x ∧ x ≤ high :=
      within_countPoints hle hstep (fun k hk => (hgrid k).mpr (by omega)) nofun
    refine ⟨hwithin, ?_⟩
    rw [distinct_iff (by simp) hwithin, increasing_countPoints hstep]
    constructor
    · rintro hbefore ⟨-, heq⟩
      exact (hbefore rfl n (Nat.lt_succ_self n)).ne heq
    · intro hnot _ k hk
      have hk' := gridPoint_le low hstep (Nat.le_of_lt_succ hk)
      exact hk'.trans_lt (lt_of_le_of_ne hlast fun heq => hnot ⟨hnear, heq⟩)
  · -- Without a landing point ahead, a point before the last one is below the last grid point.
    have hok : i = n := by
      rcases hrest with ⟨-, hok⟩ | ⟨-, hok⟩
      · exact (Prod.mk.inj (Except.ok.inj hok)).1
      · exact (Prod.mk.inj (Except.ok.inj hok)).1
    rw [hpoints _ hok]
    have hbefore : ∀ k : Nat, k < n → low + k * step < high := fun k hk => (gridPoint_lt low hstep hk).trans_le hlast
    have hwithin : ∀ x ∈ countPoints low high step n ends, low ≤ x ∧ x ≤ high :=
      within_countPoints hle hstep (fun k hk => (hbefore k hk).le) fun _ => hlast
    refine ⟨hwithin, ?_⟩
    rw [distinct_iff (by simp) hwithin, increasing_countPoints hstep]
    exact ⟨fun _ hboth => hfar hboth.1, fun _ _ => hbefore⟩

end Exact

/-- Whether the samples of a completed sweep are distinct. Without rounding they are, unless the upper bound is
repeated in `count` mode. In doubles they are in `accumulate` mode; in `count` mode they are if the step is longer
than three tolerances, and if the bounds are so small that nothing overflows. -/
theorem points_distinct (mode : Mode) (limit : Int) :
    (∀ {low high step : Rat} {xs : Array Rat}, low ≤ high → 0 < step →
      points mode low high step limit = (xs, none) →
        (∀ x ∈ xs.toList, low ≤ x ∧ x ≤ high) ∧
          (Distinct low high xs.toList ↔ ¬ (mode = .count ∧ Repeats low high step))) ∧
      ∀ {low high step : Float} {xs : Array Float}, isFinite low = true → isFinite high = true →
        isFinite step = true → low ≤ high → 0 < step →
        (mode = .count → 3 * tolerance (value low) (value high) < value step ∧
          max |value low| |value high| ≤ 2 ^ (1022 : Int)) →
        points mode low high step limit = (xs, none) → Distinct low high xs.toList := by
  cases mode with
  | count =>
    refine ⟨fun hle hstep h => ?_, fun hlow hhigh hfinite hle hstep hcoarse h => ?_⟩
    · obtain ⟨hwithin, hiff⟩ := distinct_count_rat hle hstep h
      exact ⟨hwithin, by simpa using hiff⟩
    · obtain ⟨hlong, hrange⟩ := hcoarse rfl
      exact distinct_count ⟨hlow, hhigh, hfinite, (le_iff hlow hhigh).mp hle, hrange, hlong⟩ h
  | accumulate =>
    refine ⟨fun hle hstep h => ?_, fun hlow hhigh hfinite hle hstep _ h => ?_⟩
    · have hdistinct := distinct_accumulate_rat hle hstep h
      refine ⟨hdistinct.within, iff_of_true hdistinct ?_⟩
      rintro ⟨hmode, -⟩
      cases hmode
    · exact distinct_accumulate hlow hhigh hfinite hle hstep h

/-- The upper bound is a grid point in quarters of the unit interval, and not in thirds of a longer one. -/
theorem points_distinct_quarters :
    points .count (-1 : Rat) (1 / 2) (1 / 3) 5 = (#[-1, -2 / 3, -1 / 3, 0, 1 / 3], none) ∧
      (Distinct (-1 : Rat) (1 / 2) [-1, -2 / 3, -1 / 3, 0, 1 / 3] ↔
        ¬ (Mode.count = .count ∧ Repeats (-1) (1 / 2) (1 / 3))) ∧
      points .count (0 : Float) 1 0.25 5 = (#[0, 0.25, 0.5, 0.75, 1], none) ∧
      3 * tolerance (value 0) (value 1) < value 0.25 ∧ max |value 0| |value 1| ≤ 2 ^ (1022 : Int) ∧
      Distinct (0 : Float) 1 [0, 0.25, 0.5, 0.75, 1] := by
  have hexact : points .count (-1 : Rat) (1 / 2) (1 / 3) 5 = (#[-1, -2 / 3, -1 / 3, 0, 1 / 3], none) := by
    decide +kernel
  have hrounded : points .count (0 : Float) 1 0.25 5 = (#[0, 0.25, 0.5, 0.75, 1], none) := by decide +kernel
  have hone : value 1 = 1 := by
    rw [value_of_ofFloat (show Binary.ofFloat 1 = .finite false (2 ^ 52) (-52) by decide)]
    norm_num [signed]
  have hquarter : value 0.25 = 1 / 4 := by
    rw [value_of_ofFloat (show Binary.ofFloat 0.25 = .finite false (2 ^ 52) (-54) by decide)]
    norm_num [signed]
  have hlong : 3 * tolerance (value 0) (value 1) < value 0.25 := by
    rw [value_zero, hone, hquarter]
    norm_num [tolerance]
  have hrange : max |value 0| |value 1| ≤ 2 ^ (1022 : Int) := by
    rw [value_zero, hone, abs_zero, abs_one, max_eq_right zero_le_one]
    exact one_le_zpow₀ one_le_two (by norm_num)
  have hall := points_distinct .count 5
  exact ⟨hexact, (hall.1 (by norm_num) (by norm_num) hexact).2, hrounded, hlong, hrange,
    hall.2 (by decide) (by decide) (by decide) (by decide) (by decide) (fun _ => ⟨hlong, hrange⟩) hrounded⟩

/-- A range of one point whose step is absorbed by it is sampled twice, in doubles and without rounding. And where
the step is a third of the largest double, rounded up, the computed quotient is three, and three times the step is an
infinity. -/
theorem points_not_distinct :
    ((1 : Float) ≤ 1 ∧ (0 : Float) < 1e-20 ∧ points .count (1 : Float) 1 1e-20 10 = (#[1, 1], none) ∧
        ¬ (1 : Float) < 1) ∧
      (points .count (1 : Rat) 1 (1 / 2 ^ 60) 10 = (#[1, 1], none) ∧ ¬ (1 : Rat) < 1) ∧
      let high : Float := 1.7976931348623157e308
      let step : Float := 5.992310449541053e307
      points .count 0 high step 10 = (#[0, step, 2 * step, 1 / 0], none) ∧ high < 1 / 0 := by
  decide +kernel

end Sweep
end ArithTree
