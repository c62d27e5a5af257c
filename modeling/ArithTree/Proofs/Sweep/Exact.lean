import ArithTree.Proofs.Sweep.Visit
import Mathlib

/-!
# ArithTree.Proofs.Sweep.Exact

Sweeps without rounding: the definitions of a sweep, read over the rationals. The points of such a
sweep are points of the grid `low + k · step`, and the two modes can differ only where a grid point
lies close to the upper bound without being it.

* `landsOn_iff`: landing on the upper bound is lying within the tolerance of it.
* `grid_le_iff`: the grid points up to the upper bound are counted by a floor.
* `countSteps_exact`, `runningPoints_exact`: the closed form of one mode, the loop of the other.
* `modes_agree`: where only the upper bound itself is close to it, both modes list the grid.
-/

namespace ArithTree
namespace Sweep

open Arithmetic

/-- How far from the upper bound a grid point still counts as the bound. -/
def tolerance (low high : Rat) : Rat := 8 / 2 ^ 52 * max |low| |high|

/-! ## The operations -/

section Operations

variable (x y : Rat)

@[simp] theorem add_rat : add x y = x + y := rfl

@[simp] theorem sub_rat : sub x y = x - y := rfl

@[simp] theorem mul_rat : mul x y = x * y := rfl

@[simp] theorem div_rat : div x y = x / y := rfl

@[simp] theorem le_rat : (le x y = true) = (x ≤ y) := decide_eq_true_eq

@[simp] theorem same_rat : (same x y = true) = (x = y) := decide_eq_true_eq

@[simp] theorem ofInt_rat (k : Int) : (ofInt k : Rat) = k := rfl

@[simp] theorem floor?_rat : floor? x = some x.floor := rfl

@[simp] theorem abs_rat : Arithmetic.abs x = |x| := by
  show (if x < 0 then -x else x) = |x|
  split
  · rename_i hneg
    exact (abs_of_neg hneg).symm
  · rename_i hnonneg
    exact (abs_of_nonneg (not_lt.mp hnonneg)).symm

theorem slack_rat : (slack : Rat) = 8 / 2 ^ 52 := by
  have hshift : (1 <<< 52 : Nat) = 2 ^ 52 := by decide
  show mkRat 8 (1 <<< 52) = 8 / 2 ^ 52
  rw [hshift, Rat.mkRat_eq_div]
  norm_num

end Operations

variable {low high step : Rat}

theorem tolerance_nonneg (low high : Rat) : 0 ≤ tolerance low high := by
  have hscale : 0 ≤ max |low| |high| := le_max_of_le_left (abs_nonneg low)
  have hslack : (0 : Rat) ≤ 8 / 2 ^ 52 := by norm_num
  exact mul_nonneg hslack hscale

theorem landsOn_iff (x low high : Rat) :
    landsOn x low high = true ↔ |x - high| ≤ tolerance low high := by
  have hscale : max |low| |high| = if |high| ≤ |low| then |low| else |high| := by
    rw [max_comm, max_def]
  have hnear : x = high → |x - high| ≤ tolerance low high := by
    intro heq
    rw [heq, sub_self, abs_zero]
    exact tolerance_nonneg low high
  simp only [landsOn, abs_rat, slack_rat, floor?_rat, sub_rat, mul_rat, Option.isSome_some,
    Bool.true_and, Bool.or_eq_true, le_rat, same_rat]
  rw [abs_sub_comm high x, ← hscale]
  exact ⟨fun h => h.elim hnear id, .inr⟩

/-! ## The grid -/

theorem grid_le_iff (hstep : 0 < step) (k : Int) :
    low + k * step ≤ high ↔ k ≤ ((high - low) / step).floor := by
  rw [Rat.le_floor_iff, le_div_iff₀ hstep]
  constructor <;> intro h <;> linarith

theorem countSteps_exact (hstep : 0 < step) {n : Int} (hn : ((high - low) / step).floor = n) :
    countSteps low high step =
      if landsOn (low + (n + 1) * step) low high then .ok (n + 1, true)
      else .ok (n, landsOn (low + n * step) low high) := by
  have hzero : ¬ step = 0 := hstep.ne'
  simp [countSteps, gridPoint, hzero, hn]

/-- A running point goes through the grid. By induction on the visits left. -/
theorem runningPoints_exact (hstep : 0 < step) {n : Nat}
    (hgrid : ∀ k : Nat, low + k * step ≤ high ↔ k < n) {limit : Int} (hlimit : (n : Int) ≤ limit)
    (left : Nat) :
    ∀ k : Nat, n ≤ k + left →
      runningPoints high step limit left k (low + k * step) =
        ((List.range' k (n - k)).map fun k : Nat => low + k * step, none) := by
  induction left with
  | zero =>
    intro k hk
    have hdone : n - k = 0 := by omega
    rw [hdone]
    rfl
  | succ left ih =>
    intro k hk
    have hadvance : ¬ low + k * step + step = low + k * step := by
      intro heq
      linarith
    have hnext : low + k * step + step = low + (k + 1 : Nat) * step := by
      push_cast
      ring
    by_cases hle : low + k * step ≤ high
    · have hlt : k < n := (hgrid k).mp hle
      have hroom : ¬ limit < (k + 1 : Nat) := by omega
      have hcount : n - k = (n - (k + 1)) + 1 := by omega
      rw [hcount, List.range'_succ, List.map_cons]
      simp only [runningPoints, le_rat, same_rat, add_rat, if_pos hle, if_neg hadvance,
        if_neg hroom]
      rw [hnext, ih (k + 1) (by omega)]
    · have hdone : n - k = 0 := by
        have hge := mt (hgrid k).mpr hle
        omega
      rw [hdone]
      simp only [runningPoints, le_rat, if_neg hle]
      rfl

/-! ## The modes -/

/-- If only the upper bound itself lies near it, the look-ahead finds nothing. -/
theorem plan_exact (hstep : 0 < step)
    (hclose : ∀ k : Nat, |low + k * step - high| ≤ tolerance low high → low + k * step = high)
    {n : Nat} (hn : ((high - low) / step).floor = n) (limit : Int) :
    plan low high step limit =
      if limit < n + 1 then .error (.unbounded (.tooMany (n + 1) limit))
      else .ok (n, landsOn (low + n * step) low high) := by
  have hbeyond : landsOn (low + (n + 1) * step) low high = false := by
    rw [Bool.eq_false_iff, Ne, landsOn_iff]
    intro hnear
    have heq := hclose (n + 1) (by push_cast; exact hnear)
    have hmost := (grid_le_iff hstep (n + 1)).mp (by push_cast at heq ⊢; exact heq.le)
    omega
  simp only [plan, countSteps_exact hstep hn]
  rw [Int.cast_natCast, hbeyond]
  rfl

/-- Replacing the last point by the upper bound it lands on changes nothing. -/
theorem countPoint_exact
    (hclose : ∀ k : Nat, |low + k * step - high| ≤ tolerance low high → low + k * step = high)
    {n k : Nat} (hk : k ≤ n) :
    countPoint low high step n (landsOn (low + n * step) low high) k = low + k * step := by
  unfold countPoint
  rcases Nat.lt_or_eq_of_le hk with hlt | rfl
  · rw [if_pos (Int.ofNat_lt.mpr hlt)]
    rfl
  · rw [if_neg (lt_irrefl _)]
    split
    · rename_i hlands
      exact (hclose k ((landsOn_iff _ _ _).mp hlands)).symm
    · rfl

theorem modes_agree (hle : low ≤ high) (hstep : 0 < step)
    (hclose : ∀ k : Nat, |low + k * step - high| ≤ tolerance low high → low + k * step = high)
    (limit : Int) :
    ∃ n : Nat, (∀ k : Nat, low + k * step ≤ high ↔ k < n) ∧
      ∀ mode, points mode low high step limit =
        if (n : Int) ≤ limit then (((List.range n).map fun k : Nat => low + k * step).toArray, none)
        else (#[], some (.unbounded (.tooMany n limit))) := by
  have hfloor : 0 ≤ ((high - low) / step).floor := by
    rw [← grid_le_iff hstep]
    simpa using hle
  obtain ⟨n, hn⟩ := Int.eq_ofNat_of_zero_le hfloor
  have hgrid : ∀ k : Nat, low + k * step ≤ high ↔ k < n + 1 := by
    intro k
    have hk := @grid_le_iff low high step hstep k
    rw [hn, Int.cast_natCast] at hk
    rw [hk]
    omega
  refine ⟨n + 1, hgrid, fun mode => ?_⟩
  rw [points_eq]
  by_cases hlimit : ((n + 1 : Nat) : Int) ≤ limit
  · have hroom : ¬ limit < (n : Int) + 1 := by omega
    simp only [pointList, plan_exact hstep hclose hn, if_neg hroom, if_pos hlimit]
    cases mode with
    | count =>
      have hpoints : (List.range (n + 1)).map
          (countPoint low high step n (landsOn (low + n * step) low high)) =
            (List.range (n + 1)).map fun k : Nat => low + k * step := by
        refine List.map_congr_left fun k hk => ?_
        exact countPoint_exact hclose (Nat.le_of_lt_succ (List.mem_range.mp hk))
      simp only [Int.toNat_natCast, hpoints]
    | accumulate =>
      have hrun := runningPoints_exact hstep hgrid hlimit (limit.toNat + 1) 0 (by omega)
      rw [Nat.cast_zero, zero_mul, add_zero] at hrun
      simp only [hrun, List.range_eq_range', Nat.sub_zero]
  · have hroom : limit < (n : Int) + 1 := by omega
    simp only [pointList, plan_exact hstep hclose hn, if_pos hroom, if_neg hlimit]
    rfl

/-- Four points, the last of which is the upper bound. -/
theorem modes_agree_thirds :
    (-1 : Rat) ≤ 1 ∧ (0 : Rat) < 2 / 3 ∧
      (∀ k : Nat, |-1 + (k : Rat) * (2 / 3) - 1| ≤ tolerance (-1) 1 →
        -1 + (k : Rat) * (2 / 3) = 1) ∧
      ∃ n : Nat, (∀ k : Nat, -1 + (k : Rat) * (2 / 3) ≤ 1 ↔ k < n) ∧
        ∀ mode, points mode (-1 : Rat) 1 (2 / 3) 4 =
          if (n : Int) ≤ 4 then
            (((List.range n).map fun k : Nat => -1 + (k : Rat) * (2 / 3)).toArray, none)
          else (#[], some (.unbounded (.tooMany n 4))) := by
  have hle : (-1 : Rat) ≤ 1 := by norm_num
  have hstep : (0 : Rat) < 2 / 3 := by norm_num
  have hclose : ∀ k : Nat, |-1 + (k : Rat) * (2 / 3) - 1| ≤ tolerance (-1) 1 →
      -1 + (k : Rat) * (2 / 3) = 1 := by
    intro k hk
    have hnear : |-1 + (k : Rat) * (2 / 3) - 1| < 1 / 3 :=
      hk.trans_lt (by norm_num [tolerance])
    obtain ⟨hlow, hhigh⟩ := abs_lt.mp hnear
    have htwo : (2 : Rat) < k := by linarith
    have hfour : (k : Rat) < 4 := by linarith
    have hthree : k = 3 := by
      norm_cast at htwo hfour
      omega
    rw [hthree]
    norm_num
  exact ⟨hle, hstep, hclose, modes_agree hle hstep hclose 4⟩

end Sweep
end ArithTree
