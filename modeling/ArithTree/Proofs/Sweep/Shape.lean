import ArithTree.Proofs.Sweep.Exact

/-!
# ArithTree.Proofs.Sweep.Shape

The points of a sweep in `count` mode, as far as rounding does not matter. They are the points of the grid up to
the upper bound; only the last of them depends on what lies near the bound, where the step count looks one
point ahead.

* `countSteps_cases`: the three ways to count the steps. The grid point beyond the bound lands on it, or the
  last one within it does, or neither.
* `increasing_countPoints`: when the points increase. Nothing but the replacement of the last point can go
  against that.
* `points_shape`: one description of the points, for steps that are longer than the tolerance.
-/

namespace ArithTree
namespace Sweep

open Arithmetic

section Listing

variable {α : Type} [Arithmetic α] {low high step : α} {n : Nat} {ends : Bool}

/-- The points of `n` steps. -/
def countPoints (low high step : α) (n : Nat) (ends : Bool) : List α :=
  (List.range (n + 1)).map (countPoint low high step n ends)

@[simp] theorem length_countPoints : (countPoints low high step n ends).length = n + 1 := by
  simp [countPoints]

theorem points_count (h : countSteps low high step = .ok ((n : Int), ends)) (limit : Int) :
    points .count low high step limit =
      if (n : Int) + 1 ≤ limit then ((countPoints low high step n ends).toArray, none)
      else (#[], some (.unbounded (.tooMany (n + 1) limit))) := by
  rw [points_eq]
  by_cases hlimit : (n : Int) + 1 ≤ limit
  · have hroom : ¬ limit < (n : Int) + 1 := by omega
    simp only [pointList, plan, h, if_neg hroom, if_pos hlimit, countPoints, Int.toNat_natCast]
  · have hroom : limit < (n : Int) + 1 := by omega
    simp only [pointList, plan, h, if_pos hroom, if_neg hlimit]

theorem countPoints_of_completed {limit : Int} {xs : Array α}
    (h : points .count low high step limit = (xs, none)) :
    ∃ i ends, countSteps low high step = .ok (i, ends) ∧
      ∀ n : Nat, i = n → xs.toList = countPoints low high step n ends := by
  cases hcount : countSteps low high step with
  | error stop =>
    rw [points_eq, Prod.mk.injEq] at h
    have hnone := h.2
    simp only [pointList, plan, hcount] at hnone
    cases hnone
  | ok steps =>
    obtain ⟨i, ends⟩ := steps
    refine ⟨i, ends, rfl, ?_⟩
    rintro n rfl
    rw [points_count hcount] at h
    split at h
    · rw [← (Prod.mk.inj h).1]
    · cases (Prod.mk.inj h).2

theorem countPoint_of_lt {k : Nat} (hk : k < n) :
    countPoint low high step n ends k = gridPoint low step k := by
  rw [countPoint, if_pos (Int.ofNat_lt.mpr hk)]

theorem countPoint_last :
    countPoint low high step n ends n = if ends then high else gridPoint low step n := by
  rw [countPoint, if_neg (Int.lt_irrefl _)]

theorem getElem?_countPoints {k : Nat} (hk : k < n) :
    (countPoints low high step n ends)[k]? = some (gridPoint low step k) := by
  have hrange : k < n + 1 := by omega
  rw [countPoints, List.getElem?_map, List.getElem?_range hrange, Option.map_some, countPoint_of_lt hk]

theorem getLast?_countPoints :
    (countPoints low high step n ends).getLast? = some (if ends then high else gridPoint low step n) := by
  rw [countPoints, List.range_succ, List.map_append, List.map_singleton, List.getLast?_concat, countPoint_last]

theorem mem_countPoints {x : α} (h : x ∈ countPoints low high step n ends) :
    (∃ k < n, x = gridPoint low step k) ∨ x = if ends then high else gridPoint low step n := by
  obtain ⟨k, hk, rfl⟩ := List.mem_map.mp h
  rcases Nat.lt_or_eq_of_le (Nat.le_of_lt_succ (List.mem_range.mp hk)) with hlt | rfl
  · exact .inl ⟨k, hlt, countPoint_of_lt hlt⟩
  · exact .inr countPoint_last

/-- Apart from the last, the points are compared as grid points. -/
theorem pairwise_countPoints {R : α → α → Prop} :
    (countPoints low high step n ends).Pairwise R ↔
      (∀ j k : Nat, j < k → k < n → R (gridPoint low step j) (gridPoint low step k)) ∧
        ∀ k : Nat, k < n → R (gridPoint low step k) (if ends then high else gridPoint low step n) := by
  rw [countPoints, List.range_succ, List.map_append, List.map_singleton, countPoint_last, List.pairwise_append]
  constructor
  · rintro ⟨hgrid, -, hlast⟩
    refine ⟨fun j k hjk hk => ?_, fun k hk => ?_⟩
    · have hj : j < n := by omega
      have hpair := List.pairwise_iff_getElem.mp hgrid j k (by simpa using hj) (by simpa using hk) hjk
      simp only [List.getElem_map, List.getElem_range] at hpair
      rwa [countPoint_of_lt hj, countPoint_of_lt hk] at hpair
    · have hmem : gridPoint low step k ∈ (List.range n).map (countPoint low high step n ends) :=
        List.mem_map.mpr ⟨k, List.mem_range.mpr hk, countPoint_of_lt hk⟩
      exact hlast _ hmem _ (List.mem_singleton_self _)
  · rintro ⟨hgrid, hlast⟩
    refine ⟨List.pairwise_iff_getElem.mpr fun j k hj hk hjk => ?_, List.pairwise_singleton _ _, ?_⟩
    · simp only [List.length_map, List.length_range] at hj hk
      simp only [List.getElem_map, List.getElem_range]
      rw [countPoint_of_lt hj, countPoint_of_lt hk]
      exact hgrid j k hjk hk
    · intro x hx y hy
      obtain ⟨k, hk, rfl⟩ := List.mem_map.mp hx
      rw [List.mem_singleton] at hy
      rw [hy, countPoint_of_lt (List.mem_range.mp hk)]
      exact hlast k (List.mem_range.mp hk)

end Listing

/-! ## Without rounding -/

/-- Does the grid point count as the upper bound? -/
def Near (low high step : Rat) (k : Nat) : Prop := |low + k * step - high| ≤ tolerance low high

variable {low high step : Rat} {n : Nat} {ends : Bool}

theorem gridPoint_rat (low step : Rat) (k : Nat) : gridPoint low step k = low + k * step := rfl

variable (low) in
theorem gridPoint_lt (hstep : 0 < step) {j k : Nat} (h : j < k) : low + j * step < low + k * step := by
  have hcast : (j : Rat) < k := Nat.cast_lt.mpr h
  have hmul := mul_lt_mul_of_pos_right hcast hstep
  linarith

variable (low) in
theorem gridPoint_le (hstep : 0 < step) {j k : Nat} (h : j ≤ k) : low + j * step ≤ low + k * step := by
  rcases Nat.lt_or_eq_of_le h with hlt | rfl
  · exact (gridPoint_lt low hstep hlt).le
  · exact le_rfl

/-- The points increase unless the upper bound takes the place of a point that is not above the one before it. -/
theorem increasing_countPoints (hstep : 0 < step) :
    (countPoints low high step n ends).Pairwise (· < ·) ↔
      (ends = true → ∀ k : Nat, k < n → low + k * step < high) := by
  rw [pairwise_countPoints]
  simp only [gridPoint_rat]
  constructor
  · rintro ⟨-, hlast⟩ hends k hk
    simpa only [hends, if_true] using hlast k hk
  · intro h
    refine ⟨fun j k hjk _ => gridPoint_lt low hstep hjk, fun k hk => ?_⟩
    cases ends with
    | false => exact gridPoint_lt low hstep hk
    | true => exact h rfl k hk

theorem countSteps_cases (hle : low ≤ high) (hstep : 0 < step) :
    ∃ n : Nat, (∀ k : Nat, low + k * step ≤ high ↔ k ≤ n) ∧
      (Near low high step (n + 1) ∧ countSteps low high step = .ok ((n + 1 : Nat), true) ∨
        ¬ Near low high step (n + 1) ∧
          (Near low high step n ∧ countSteps low high step = .ok ((n : Nat), true) ∨
            ¬ Near low high step n ∧ countSteps low high step = .ok ((n : Nat), false))) := by
  have hfloor : 0 ≤ ((high - low) / step).floor := by
    rw [← grid_le_iff hstep]
    simpa using hle
  obtain ⟨n, hn⟩ := Int.eq_ofNat_of_zero_le hfloor
  have hcount := countSteps_exact hstep hn
  have hahead : landsOn (low + ((n : Int) + 1) * step) low high = true ↔ Near low high step (n + 1) := by
    rw [landsOn_iff, Near]
    push_cast
    rfl
  have hhere : landsOn (low + (n : Int) * step) low high = true ↔ Near low high step n := landsOn_iff _ _ _
  refine ⟨n, fun k => ?_, ?_⟩
  · have hk := @grid_le_iff low high step hstep k
    rw [hn, Int.cast_natCast] at hk
    rw [hk]
    omega
  · by_cases hnext : Near low high step (n + 1)
    · rw [if_pos (hahead.mpr hnext)] at hcount
      exact .inl ⟨hnext, hcount⟩
    · rw [if_neg (mt hahead.mp hnext)] at hcount
      by_cases hlast : Near low high step n
      · rw [hhere.mpr hlast] at hcount
        exact .inr ⟨hnext, .inl ⟨hlast, hcount⟩⟩
      · rw [Bool.eq_false_iff.mpr (mt hhere.mp hlast)] at hcount
        exact .inr ⟨hnext, .inr ⟨hlast, hcount⟩⟩

/-! ## The points -/

/-- What the points of a sweep are if its step is longer than the tolerance. -/
structure Shape (low high step : Rat) (xs : List Rat) : Prop where
  /-- There are as many points as grid points up to the upper bound, within the tolerance. -/
  length : ∀ k : Nat, low + k * step ≤ high + tolerance low high ↔ k < xs.length
  inner : ∀ k : Nat, k + 1 < xs.length → xs[k]? = some (low + k * step)
  bound : (∃ k, Near low high step k) → xs.getLast? = some high
  grid : (¬ ∃ k, Near low high step k) →
    ∃ k : Nat, xs.getLast? = some (low + k * step) ∧ low + k * step ≤ high ∧
      ∀ j : Nat, low + j * step ≤ high → low + j * step ≤ low + k * step
  increasing : xs.Pairwise (· < ·)
  within : ∀ x ∈ xs, low ≤ x ∧ x ≤ high

theorem near_iff : Near low high step n ↔
    high - tolerance low high ≤ low + n * step ∧ low + n * step ≤ high + tolerance low high := by
  rw [Near, abs_le]
  constructor <;> rintro ⟨h₁, h₂⟩ <;> constructor <;> linarith

/-- Points between the bounds, whichever grid point the last one is. -/
theorem within_countPoints (hle : low ≤ high) (hstep : 0 < step)
    (hgrid : ∀ k : Nat, k < n → low + k * step ≤ high) (hlast : ends = false → low + n * step ≤ high) :
    ∀ x ∈ countPoints low high step n ends, low ≤ x ∧ x ≤ high := by
  have hfirst : ∀ k : Nat, low ≤ low + k * step := fun k => by
    simpa using gridPoint_le low hstep k.zero_le
  intro x hx
  rcases mem_countPoints hx with ⟨k, hk, rfl⟩ | rfl
  · exact ⟨hfirst k, hgrid k hk⟩
  · cases ends with
    | false => exact ⟨hfirst n, hlast rfl⟩
    | true => exact ⟨hle, le_rfl⟩

theorem counted_iff (hstep : 0 < step) {top : Rat} (hwithin : low + n * step ≤ top)
    (hbeyond : top < low + (n + 1 : Nat) * step) (k : Nat) : low + k * step ≤ top ↔ k ≤ n := by
  constructor
  · intro hk
    by_contra hmore
    have hlong := gridPoint_le low hstep (show n + 1 ≤ k by omega)
    linarith
  · intro hk
    exact (gridPoint_le low hstep hk).trans hwithin

/-- One description for the three ways to count: the steps go as far as grid points are within the tolerance. -/
theorem countSteps_shape (hle : low ≤ high) (hstep : tolerance low high < step) :
    ∃ (n : Nat) (ends : Bool), countSteps low high step = .ok ((n : Int), ends) ∧
      (∀ k : Nat, low + k * step ≤ high + tolerance low high ↔ k ≤ n) ∧
      (∀ k : Nat, k < n → low + k * step < high) ∧
      (ends = true ↔ ∃ k, Near low high step k) ∧ (ends = false → low + n * step ≤ high) := by
  have htol := tolerance_nonneg low high
  have hpos : 0 < step := htol.trans_lt hstep
  obtain ⟨n, hgrid, hcases⟩ := countSteps_cases hle hpos
  have hn : low + n * step ≤ high := (hgrid n).mpr le_rfl
  have hnext : high < low + (n + 1 : Nat) * step := by
    rw [← not_le, hgrid]
    omega
  rcases hcases with ⟨hnear, hcount⟩ | ⟨hfar, hrest⟩
  · obtain ⟨hlower, hupper⟩ := near_iff.mp hnear
    have hbeyond : high + tolerance low high < low + (n + 1 + 1 : Nat) * step := by
      push_cast at hnext ⊢
      linarith
    have hbefore : ∀ k : Nat, k < n + 1 → low + k * step < high := by
      intro k hk
      have hshort := gridPoint_le low hpos (Nat.le_of_lt_succ hk)
      push_cast at hupper
      linarith
    exact ⟨n + 1, true, hcount, counted_iff hpos hupper hbeyond, hbefore,
      ⟨fun _ => ⟨n + 1, hnear⟩, fun _ => rfl⟩, nofun⟩
  · have hbeyond : high + tolerance low high < low + (n + 1 : Nat) * step := by
      by_contra hnot
      exact hfar (near_iff.mpr ⟨by linarith, by linarith⟩)
    have hcounted := counted_iff hpos (by linarith : low + n * step ≤ high + tolerance low high) hbeyond
    have hbefore : ∀ k : Nat, k < n → low + k * step < high := fun k hk => (gridPoint_lt low hpos hk).trans_le hn
    rcases hrest with ⟨hnear, hcount⟩ | ⟨hlast, hcount⟩
    · exact ⟨n, true, hcount, hcounted, hbefore, ⟨fun _ => ⟨n, hnear⟩, fun _ => rfl⟩, nofun⟩
    · refine ⟨n, false, hcount, hcounted, hbefore, ⟨nofun, ?_⟩, fun _ => hn⟩
      rintro ⟨k, hk⟩
      obtain ⟨hlower, hupper⟩ := near_iff.mp hk
      have hshort := gridPoint_le low hpos ((hcounted k).mp hupper)
      exact absurd (near_iff.mpr ⟨by linarith, by linarith⟩) hlast

theorem points_shape (hle : low ≤ high) (hstep : tolerance low high < step) :
    ∃ xs : List Rat, Shape low high step xs ∧
      ∀ limit, points .count low high step limit =
        if (xs.length : Int) ≤ limit then (xs.toArray, none)
        else (#[], some (.unbounded (.tooMany xs.length limit))) := by
  have hpos : 0 < step := (tolerance_nonneg low high).trans_lt hstep
  obtain ⟨n, ends, hcount, hcounted, hbefore, hends, hlast⟩ := countSteps_shape hle hstep
  refine ⟨countPoints low high step n ends, ?_, fun limit => ?_⟩
  · exact
      { length := fun k => by
          rw [hcounted, length_countPoints, Nat.lt_succ_iff]
        inner := fun k hk => by
          rw [length_countPoints, Nat.succ_lt_succ_iff] at hk
          exact getElem?_countPoints hk
        bound := fun hnear => by
          rw [getLast?_countPoints, if_pos (hends.mpr hnear)]
        grid := fun hfar => by
          have hnone := mt hends.mp hfar
          have hfalse := Bool.eq_false_iff.mpr hnone
          refine ⟨n, ?_, hlast hfalse, fun j hj => ?_⟩
          · rw [getLast?_countPoints, if_neg hnone, gridPoint_rat]
          · have htol := tolerance_nonneg low high
            exact gridPoint_le low hpos ((hcounted j).mp (by linarith))
        increasing := (increasing_countPoints hpos).mpr fun _ => hbefore
        within := within_countPoints hle hpos (fun k hk => (hbefore k hk).le) hlast }
  · rw [points_count hcount, length_countPoints]
    push_cast
    rfl

/-- Steps of a third, of which the last is cut off: the grid goes on beyond the upper bound. -/
theorem points_shape_thirds :
    (-1 : Rat) ≤ 1 / 2 ∧ tolerance (-1) (1 / 2) < 1 / 3 ∧
      ∃ xs : List Rat, Shape (-1) (1 / 2) (1 / 3) xs ∧
        ∀ limit, points .count (-1 : Rat) (1 / 2) (1 / 3) limit =
          if (xs.length : Int) ≤ limit then (xs.toArray, none)
          else (#[], some (.unbounded (.tooMany xs.length limit))) := by
  have hle : (-1 : Rat) ≤ 1 / 2 := by norm_num
  have hstep : tolerance (-1) (1 / 2) < 1 / 3 := by norm_num [tolerance]
  exact ⟨hle, hstep, points_shape hle hstep⟩

end Sweep
end ArithTree
