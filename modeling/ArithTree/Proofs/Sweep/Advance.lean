import ArithTree.Proofs.Double.Exact
import ArithTree.Proofs.Sweep.Bounds
import ArithTree.Proofs.Sweep.Exact

/-!
# ArithTree.Proofs.Sweep.Advance

The points of a sweep in `accumulate` mode increase, also in doubles: a rounded sum does not fall below the
point that the step was added to, and the test for a stall excludes that it is the same.

* `Distinct`: no sample is taken twice, and none outside of the bounds.
* `Runs.chain`: what holds of neighbouring points holds of all points of a loop.
* `distinct_accumulate_rat`, `distinct_accumulate`: the mode over the rationals, and in doubles.
-/

namespace ArithTree
namespace Sweep

open Arithmetic

/-! ## A loop -/

section Loop

variable {α : Type}

/-- The samples of a sweep increase from one to the next, and they lie within its bounds. -/
structure Distinct [LE α] [LT α] (low high : α) (xs : List α) : Prop where
  increasing : xs.Pairwise (· < ·)
  within : ∀ x ∈ xs, low ≤ x ∧ x ≤ high
  single : high ≤ low → xs.length = 1

theorem length_eq_one {R : α → α → Prop} {xs : List α} (hne : 1 ≤ xs.length) (hpair : xs.Pairwise R)
    (hnone : ∀ x ∈ xs, ∀ y ∈ xs, ¬ R x y) : xs.length = 1 := by
  cases xs with
  | nil => simp at hne
  | cons x xs =>
    cases xs with
    | nil => rfl
    | cons y xs => exact absurd (List.rel_of_pairwise_cons hpair List.mem_cons_self) (hnone x (by simp) y (by simp))

variable [Arithmetic α] {high step : α} {limit : Int} {produced : Nat} {x : α} {out : List α × Option (Stop α)}

theorem Runs.le_of_mem (h : Runs high step limit produced x out) {y : α} (hy : y ∈ out.1) :
    Arithmetic.le x high = true := by
  cases h with
  | passed _ => cases hy
  | stalled hle _ => exact hle
  | exceeded hle _ _ => exact hle
  | advanced hle _ _ _ => exact hle

/-- By induction on the loop. The relation need not hold between a point and one that has passed the bound, since
that is no point of the sweep. -/
theorem Runs.chain {P : α → Prop} {R : α → α → Prop} (htrans : ∀ {x y z}, R x y → R y z → R x z)
    (hnext : ∀ {x}, P x → Arithmetic.le x high = true → same (add x step) x = false →
      Arithmetic.le (add x step) high = true → P (add x step) ∧ R x (add x step))
    (h : Runs high step limit produced x out) :
    (Arithmetic.le x high = true → P x) → out.1.Pairwise R ∧ ∀ y ∈ out.1, P y ∧ (y = x ∨ R x y) := by
  induction h with
  | passed hle =>
    intro _
    exact ⟨.nil, fun y hy => nomatch hy⟩
  | stalled hle _ =>
    intro hx
    refine ⟨List.pairwise_singleton _ _, fun y hy => ?_⟩
    obtain rfl := List.mem_singleton.mp hy
    exact ⟨hx hle, .inl rfl⟩
  | exceeded hle _ _ =>
    intro hx
    refine ⟨List.pairwise_singleton _ _, fun y hy => ?_⟩
    obtain rfl := List.mem_singleton.mp hy
    exact ⟨hx hle, .inl rfl⟩
  | @advanced produced x out hle hsame _ hrest ih =>
    intro hx
    obtain ⟨hpair, hall⟩ := ih fun hle' => (hnext (hx hle) hle hsame hle').1
    have hlater : ∀ y ∈ out.1, P y ∧ R x y := by
      intro y hy
      have hstep := (hnext (hx hle) hle hsame (hrest.le_of_mem hy)).2
      obtain ⟨hP, rfl | hR⟩ := hall y hy
      · exact ⟨hP, hstep⟩
      · exact ⟨hP, htrans hstep hR⟩
    refine ⟨List.pairwise_cons.mpr ⟨fun y hy => (hlater y hy).2, hpair⟩, fun y hy => ?_⟩
    rcases List.mem_cons.mp hy with rfl | hy
    · exact ⟨hx hle, .inl rfl⟩
    · exact ⟨(hlater y hy).1, .inr (hlater y hy).2⟩

/-- A sweep that completes has made its loop, whatever the limit. One that allows no sample would have cut it
short. -/
theorem runs_of_completed {low : α} {xs : Array α} (hle : le low high = true)
    (h : points .accumulate low high step limit = (xs, none)) : Runs high step limit 0 low (xs.toList, none) := by
  rw [points_eq, Prod.mk.injEq] at h
  obtain ⟨rfl, hnone⟩ := h
  by_cases hlimit : 0 ≤ limit
  · obtain ⟨stop, -, hpoints⟩ | ⟨n, ends, -, hmode, -⟩ | ⟨n, ends, -, -, hruns⟩ :=
      @pointList_cases α _ low high step limit .accumulate hlimit
    · rw [hpoints] at hnone
      cases hnone
    · cases hmode
    · rw [← hnone]
      exact hruns
  · have hto : limit.toNat = 0 := by omega
    have hpast : limit < (0 + 1 : Nat) := by omega
    simp only [pointList] at hnone
    split at hnone
    · cases hnone
    · simp only [runningPoints, hto, hle, hpast, if_true] at hnone
      split at hnone <;> cases hnone

end Loop

/-! ## The mode -/

theorem distinct_accumulate_rat {low high step : Rat} (hle : low ≤ high) (hstep : 0 < step) {limit : Int}
    {xs : Array Rat} (h : points .accumulate low high step limit = (xs, none)) : Distinct low high xs.toList := by
  have hruns := runs_of_completed (decide_eq_true hle) h
  obtain ⟨hpair, hall⟩ := hruns.chain (P := fun x => low ≤ x) (R := fun x y => x < y) lt_trans
    (fun {x} hx _ _ _ => ⟨by rw [add_rat]; linarith, by rw [add_rat]; linarith⟩) fun _ => le_rfl
  have hwithin : ∀ x ∈ xs.toList, low ≤ x ∧ x ≤ high := fun x hx =>
    ⟨(hall x hx).1, by simpa using hruns.le x hx⟩
  refine ⟨hpair, hwithin, fun hge => ?_⟩
  refine length_eq_one (hruns.nonempty (decide_eq_true hle)) hpair fun x hx y hy hlt => ?_
  have hx' := (hwithin x hx).1
  have hy' := (hwithin y hy).2
  linarith

/-- A sum that is not above a finite double is finite itself, if it is not below another. -/
theorem isFinite_sum {v : Rat} {x y z : Float} (h : Double.Rounds v y) (hx : Double.isFinite x = true)
    (hle : Double.value x ≤ v) (hz : Double.isFinite z = true) (hyz : y ≤ z) : Double.isFinite y = true := by
  cases h with
  | finite hy _ => exact hy
  | @infinite r s hs hnearest hlarge =>
    cases s with
    | positive => exact absurd hyz (Double.not_le_of_lt (Double.lt_infinity hz hs))
    | negative =>
      have hr := hnearest.le_of_le (Double.representable_value hx) hle
      have hsize := neg_abs_le (Double.value x)
      have hlt := Double.abs_value_lt hx
      rw [Double.signValue] at hlarge
      linarith

section Doubles

open Double

variable {low high step : Float} (hlow : isFinite low = true) (hhigh : isFinite high = true)

include hlow hhigh in
/-- For finite points the laws of a sweep can be read off their values. -/
theorem distinct_of_values {xs : List Float} (hne : 1 ≤ xs.length)
    (hall : ∀ x ∈ xs, isFinite x = true ∧ value low ≤ value x ∧ value x ≤ value high)
    (hpair : xs.Pairwise fun x y => value x < value y) : Distinct low high xs where
  increasing := hpair.imp_of_mem fun {x y} hx hy hlt => (lt_iff (hall x hx).1 (hall y hy).1).mpr hlt
  within x hx := by
    obtain ⟨hfinite, hge, hle⟩ := hall x hx
    exact ⟨(le_iff hlow hfinite).mpr hge, (le_iff hfinite hhigh).mpr hle⟩
  single hge := by
    refine length_eq_one hne hpair fun x hx y hy hlt => ?_
    have hx' := (hall x hx).2.1
    have hy' := (hall y hy).2.2
    have hge' := (le_iff hhigh hlow).mp hge
    linarith

variable (hfinite : isFinite step = true)

include hhigh hfinite

/-- One step of the loop, from a finite point to one that is still within the bound. -/
theorem advance {x : Float} (hx : isFinite x = true) (hstep : 0 < value step)
    (hsame : same (add x step) x = false) (hle : x + step ≤ high) :
    isFinite (x + step) = true ∧ value x < value (x + step) := by
  have hrounds := add_rounds hx hfinite
  have hsum : value x ≤ value x + value step := by linarith
  have hnext := isFinite_sum hrounds hx hsum hhigh hle
  have hne : value x ≠ value (x + step) := by
    intro heq
    have hbeq : (x + step == x) = true := (beq_iff hnext hx).mpr heq.symm
    exact Bool.false_ne_true (hsame.symm.trans hbeq)
  exact ⟨hnext, lt_of_le_of_ne ((hrounds.nearest hnext).le_of_le (representable_value hx) hsum) hne⟩

include hlow in
theorem distinct_accumulate (hle : low ≤ high) (hstep : 0 < step) {limit : Int}
    {xs : Array Float} (h : points .accumulate low high step limit = (xs, none)) :
    Distinct low high xs.toList := by
  have hruns := runs_of_completed (decide_eq_true hle) h
  have hpos := (zero_lt_iff hfinite).mp hstep
  obtain ⟨hpair, hall⟩ := hruns.chain (P := fun x => isFinite x = true ∧ value low ≤ value x)
    (R := fun x y => value x < value y) lt_trans
    (fun {x} hx _ hsame hle' => by
      obtain ⟨hnext, hlt⟩ := advance hhigh hfinite hx.1 hpos hsame (of_decide_eq_true hle')
      exact ⟨⟨hnext, hx.2.trans hlt.le⟩, hlt⟩) fun _ => ⟨hlow, le_rfl⟩
  refine distinct_of_values hlow hhigh (hruns.nonempty (decide_eq_true hle)) (fun x hx => ?_) hpair
  obtain ⟨hx', hge⟩ := (hall x hx).1
  exact ⟨hx', hge, (le_iff hx' hhigh).mp (of_decide_eq_true (hruns.le x hx))⟩

end Doubles

end Sweep
end ArithTree
