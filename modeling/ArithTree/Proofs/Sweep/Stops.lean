import ArithTree.Proofs.Double.Equality
import ArithTree.Proofs.Sweep.Visit
import ArithTree.Sweep.Sampling

/-!
# ArithTree.Proofs.Sweep.Stops

What cuts a sweep short. A step that is not zero leaves one kind of stop only: the sweep has no
reasonable end (`pointList_stop`). A step above zero is such a step (`same_zero`), so a plot, which
checks its step first, never divides by zero. The mode of a plot is found by its name
(`pointsNamed_name`), so it is never refused as unknown (`pointsNamed_stop`).
-/

namespace ArithTree
namespace Sweep

open Arithmetic

section Stops

variable {α : Type} [Arithmetic α] {low high step : α} {limit : Int} {stop : Stop α}

theorem countSteps_stop (hstep : same step (ofInt 0) = false)
    (h : countSteps low high step = .error stop) : ∃ why, stop = .unbounded why := by
  simp only [countSteps, hstep, Bool.false_eq_true, if_false] at h
  split at h
  · cases h
    exact ⟨_, rfl⟩
  · split at h <;> cases h

theorem plan_stop (hstep : same step (ofInt 0) = false)
    (h : plan low high step limit = .error stop) : ∃ why, stop = .unbounded why := by
  unfold plan at h
  split at h
  · rename_i s hs
    cases h
    exact countSteps_stop hstep hs
  · split at h
    · cases h
      exact ⟨_, rfl⟩
    · cases h

theorem runningPoints_stop (left : Nat) :
    ∀ (produced : Nat) (x : α), (runningPoints high step limit left produced x).2 = some stop →
      ∃ why, stop = .unbounded why := by
  induction left with
  | zero =>
    intro produced x h
    cases h
  | succ left ih =>
    intro produced x h
    simp only [runningPoints] at h
    split at h
    · split at h
      · cases h
        exact ⟨_, rfl⟩
      · split at h
        · cases h
          exact ⟨_, rfl⟩
        · exact ih _ _ h
    · cases h

theorem pointList_stop (hstep : same step (ofInt 0) = false) {mode : Mode}
    (h : (pointList mode low high step limit).2 = some stop) : ∃ why, stop = .unbounded why := by
  unfold pointList at h
  split at h
  · rename_i s hs
    cases h
    exact plan_stop hstep hs
  · cases mode with
    | count => cases h
    | accumulate => exact runningPoints_stop _ _ _ h

end Stops

theorem same_zero {step : Float} (h : ¬ step ≤ 0) : same step (ofInt 0) = false := by
  have hzero : Double.ofInt 0 = 0 := by decide
  rw [Bool.eq_false_iff]
  intro hsame
  have hbeq : (step == Double.ofInt 0) = true := hsame
  rw [hzero] at hbeq
  exact h (Double.le_of_beq hbeq)

section Named

variable {low high step : Float} {limit : Int}

/-- The points of a mode that is given by its name are the points of the mode. -/
theorem pointsNamed_name (mode : Mode) (low high step : Float) (limit : Int) :
    pointsNamed mode.name low high step limit =
      ((points mode low high step limit).1, (points mode low high step limit).2.map Failure.ofStop) := by
  rw [pointsNamed, visitNamed_name, visitPoints_eq, visitAll_push]
  simp [endWith]

theorem pointsNamed_stop (hstep : ¬ step ≤ 0) {mode : Mode} {f : Failure}
    (h : (pointsNamed mode.name low high step limit).2 = some f) : ∃ why, f = .unbounded why := by
  rw [pointsNamed_name, points_eq] at h
  obtain ⟨stop, hstop, rfl⟩ := Option.map_eq_some_iff.mp h
  obtain ⟨why, rfl⟩ := pointList_stop (same_zero hstep) hstop
  exact ⟨why, rfl⟩

end Named

end Sweep
end ArithTree
