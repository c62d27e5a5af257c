import ArithTree.Proofs.Sweep.Bounds
import ArithTree.Proofs.Sweep.Uniform

/-!
# ArithTree.Proofs.Sweep.First

How a sweep goes is settled at its first point. Before it stand the checks of the number of steps; at it the swept
expression has a value or has none; after it only the sweep itself can be cut short.

* `countSteps_coarse`, `exists_countSteps`: whether the steps can be counted.
* `pointList_first`: a sweep whose steps are counted and few enough starts with its first point.
* `sample_refused`, `sample_first_failed`, `sample_ok`: the three ways of taking the samples.
-/

namespace ArithTree

theorem Double.floor?_isSome (x : Float) : (Double.floor? x).isSome = Double.isFinite x := by
  rw [Double.floor?, Double.isFinite]
  cases Double.Binary.ofFloat x <;> rfl

namespace Sweep

section Points

variable {mode : Mode} {low high step : Float} {limit : Int} {n : Int} {ends : Bool}

/-- The first point of a sweep of `n` steps. -/
def firstPoint (mode : Mode) (low high step : Float) (n : Int) (ends : Bool) : Float :=
  match mode with
  | .count => countPoint low high step n ends 0
  | .accumulate => low

theorem countSteps_coarse (hstep : ¬ step ≤ 0) (h : Double.isFinite ((high - low) / step) = false) :
    countSteps low high step = .error (.unbounded (.coarse step low high)) := by
  have hfloor : Double.floor? ((high - low) / step) = none := by
    rw [← Option.isNone_iff_eq_none, ← Option.isSome_eq_false_iff, Double.floor?_isSome, h]
  have hratio : Arithmetic.floor? (Arithmetic.div (Arithmetic.sub high low) step) = none := hfloor
  simp only [countSteps, same_zero hstep, hratio, Bool.false_eq_true, if_false]

theorem exists_countSteps (hstep : ¬ step ≤ 0) (h : Double.isFinite ((high - low) / step) = true) :
    ∃ n ends, countSteps low high step = .ok (n, ends) := by
  rw [← Double.floor?_isSome, Option.isSome_iff_exists] at h
  obtain ⟨k, hk⟩ := h
  have hratio : Arithmetic.floor? (Arithmetic.div (Arithmetic.sub high low) step) = some k := hk
  simp only [countSteps, same_zero hstep, hratio, Bool.false_eq_true, if_false]
  split
  · exact ⟨_, _, rfl⟩
  · exact ⟨_, _, rfl⟩

theorem pointList_first (mode : Mode) (hle : low ≤ high) (hplan : plan low high step limit = .ok (n, ends)) :
    ∃ rest, (pointList mode low high step limit).1 = firstPoint mode low high step n ends :: rest := by
  cases mode with
  | count =>
    simp only [pointList, hplan, List.range_succ_eq_map, List.map_cons]
    exact ⟨_, rfl⟩
  | accumulate =>
    simp only [pointList, hplan]
    exact runningPoints_head step limit limit.toNat 0 (decide_eq_true hle)

end Points

/-! ## Samples -/

section Samples

variable [Numerics] {env : Environment} {span : Span} {mode : Mode} {limit : Nat}

theorem sample_refused {stop : Stop Float} (h : plan span.low span.high span.step limit = .error stop)
    (logger : LoggerId) (log : Log) :
    (sample mode limit logger span env log).2 = some (Failure.ofStop stop) := by
  simp only [sample, visitNamed_name, visitPoints, h]

variable {x : Float} (hwf : env.bindings.WellFormed) (hn : env.isBound span.name = false)

include hwf hn

theorem sample_first_failed {rest : List Float}
    (hfirst : (pointList mode span.low span.high span.step limit).1 = x :: rest) {f : Failure}
    (hx : span.valueAt env.bindings x = .error f) (logger : LoggerId) (log : Log) :
    (sample mode limit logger span env log).2 = some f := by
  have huniform := sample_uniform hwf hn mode limit logger log
  generalize sample mode limit logger span env log = out at huniform ⊢
  cases huniform with
  | everywhere p visited stop hpoints hall hxs =>
    rw [points_eq, hfirst] at hpoints
    cases hpoints
    obtain ⟨y, hy⟩ := hall x List.mem_cons_self
    rw [hx] at hy
    cases hy
  | nowhere p y ys g hpoints hall hxs =>
    rw [hall x] at hx
    cases hx
    rfl

/-- Where one point has a value, all have. -/
theorem sample_ok {y : Float} (hx : span.valueAt env.bindings x = .ok y) (logger : LoggerId) (log : Log) :
    (sample mode limit logger span env log).2 =
      (pointList mode span.low span.high span.step limit).2.map Failure.ofStop := by
  have huniform := sample_uniform hwf hn mode limit logger log
  generalize sample mode limit logger span env log = out at huniform ⊢
  cases huniform with
  | everywhere p visited stop hpoints hall hxs =>
    rw [points_eq] at hpoints
    cases hpoints
    rfl
  | nowhere p z zs g hpoints hall hxs =>
    rw [hall x] at hx
    cases hx

end Samples

end Sweep
end ArithTree
