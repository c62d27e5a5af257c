import ArithTree.Sweep.Points

/-!
# ArithTree.Proofs.Sweep.Visit

Which points a sweep visits does not depend on the visitor. `pointList` lists them without one, and
every traversal visits the points of this list in order, up to the first failure of the visitor; if
there is none, what cuts the sweep short comes last.

* `visitGrid_eq`, `visitRunning_eq`: the two loops as traversals of a list.
* `visitPoints_eq`: a sweep as a traversal of its points.
* `points_nonempty`: a sweep that is not cut short has a point.
-/

namespace ArithTree
namespace Sweep

open Arithmetic

variable {α σ ε : Type}

/-- Visits the elements of a list, up to the first failure. -/
def visitAll (visit : σ → α → σ × Option ε) : List α → σ → σ × Option ε
  | [], s => (s, none)
  | x :: xs, s =>
    match visit s x with
    | (s, some e) => (s, some e)
    | (s, none) => visitAll visit xs s

/-- A traversal that has not failed ends with `stop`. -/
def endWith (raise : Stop α → ε) (stop : Option (Stop α)) : σ × Option ε → σ × Option ε
  | (s, some e) => (s, some e)
  | (s, none) => (s, stop.map raise)

theorem visitAll_ok {visit : σ → α → σ × Option ε} {x : α} {s s' : σ}
    (h : visit s x = (s', none)) (xs : List α) :
    visitAll visit (x :: xs) s = visitAll visit xs s' := by
  simp only [visitAll, h]

theorem visitAll_failed {visit : σ → α → σ × Option ε} {x : α} {s s' : σ} {e : ε}
    (h : visit s x = (s', some e)) (xs : List α) :
    visitAll visit (x :: xs) s = (s', some e) := by
  simp only [visitAll, h]

/-- What one visit keeps, whether it fails or not, a traversal keeps. -/
theorem visitAll_keeps {visit : σ → α → σ × Option ε} {I : σ → Prop}
    (hvisit : ∀ s x, I s → I (visit s x).1) (xs : List α) :
    ∀ s : σ, I s → I (visitAll visit xs s).1 := by
  induction xs with
  | nil =>
    intro s hs
    exact hs
  | cons x xs ih =>
    intro s hs
    have hnext := hvisit s x hs
    rcases hv : visit s x with ⟨s', _ | e⟩
    · rw [hv] at hnext
      rw [visitAll_ok hv]
      exact ih s' hnext
    · rw [hv] at hnext
      rw [visitAll_failed hv]
      exact hnext

theorem visitAll_push (xs : List α) :
    ∀ seen : Array α,
      visitAll (fun (seen : Array α) x => (seen.push x, (none : Option ε))) xs seen =
        (seen ++ xs.toArray, none) := by
  induction xs with
  | nil => intro seen; simp [visitAll]
  | cons x xs ih =>
    intro seen
    simp only [visitAll, ih]
    simp

theorem visitGrid_eq (point : Nat → α) (visit : σ → α → σ × Option ε) (left : Nat) :
    ∀ (k : Nat) (s : σ),
      visitGrid point visit left k s = visitAll visit ((List.range' k left).map point) s := by
  induction left with
  | zero => intro k s; rfl
  | succ left ih =>
    intro k s
    rw [List.range'_succ, List.map_cons]
    rcases hv : visit s (point k) with ⟨s', _ | e⟩
    · rw [visitAll_ok hv, ← ih]
      simp only [visitGrid, hv]
    · rw [visitAll_failed hv]
      simp only [visitGrid, hv]

variable [Arithmetic α]

/-- The values that a running point takes, and what stops it. -/
def runningPoints (high step : α) (limit : Int) : Nat → Nat → α → List α × Option (Stop α)
  | 0, _, _ => ([], none)
  | left + 1, produced, x =>
    if le x high then
      if same (add x step) x then ([x], some (.unbounded (.stalled step x)))
      else if limit < (produced + 1 : Nat) then
        ([x], some (.unbounded (.exceeded limit (produced + 1))))
      else
        let rest := runningPoints high step limit left (produced + 1) (add x step)
        (x :: rest.1, rest.2)
    else ([], none)

/-- The points of a sweep, and what cuts it short. -/
def pointList (mode : Mode) (low high step : α) (limit : Int) : List α × Option (Stop α) :=
  match plan low high step limit with
  | .error stop => ([], some stop)
  | .ok (n, ends) =>
    match mode with
    | .count => ((List.range (n.toNat + 1)).map (countPoint low high step n ends), none)
    | .accumulate => runningPoints high step limit (limit.toNat + 1) 0 low

/-- A running point that has not passed the bound is a point of the sweep, whatever comes after it. -/
theorem runningPoints_head {high x : α} (step : α) (limit : Int) (left produced : Nat)
    (h : le x high = true) :
    ∃ rest, (runningPoints high step limit (left + 1) produced x).1 = x :: rest := by
  simp only [runningPoints, h, if_true]
  split
  · exact ⟨_, rfl⟩
  · split <;> exact ⟨_, rfl⟩

theorem visitRunning_eq (high step : α) (limit : Int) (raise : Stop α → ε)
    (visit : σ → α → σ × Option ε) (left : Nat) :
    ∀ (produced : Nat) (x : α) (s : σ),
      visitRunning high step limit raise visit left produced x s =
        endWith raise (runningPoints high step limit left produced x).2
          (visitAll visit (runningPoints high step limit left produced x).1 s) := by
  induction left with
  | zero => intro produced x s; rfl
  | succ left ih =>
    intro produced x s
    cases hle : le x high with
    | false =>
      simp only [visitRunning, runningPoints, hle, Bool.false_eq_true, if_false, visitAll, endWith,
        Option.map]
    | true =>
      rcases hv : visit s x with ⟨s', _ | e⟩
      · cases hsame : same (add x step) x with
        | true =>
          simp only [visitRunning, runningPoints, hle, hsame, hv, if_true, visitAll, endWith,
            Option.map]
        | false =>
          by_cases hlimit : limit < (produced + 1 : Nat)
          · simp only [visitRunning, runningPoints, hle, hsame, hlimit, hv, Bool.false_eq_true,
              if_true, if_false, visitAll, endWith, Option.map]
          · simp only [visitRunning, runningPoints, hle, hsame, hlimit, hv, Bool.false_eq_true,
              if_true, if_false, ih, visitAll_ok hv]
      · -- The failure of the visitor comes first, whatever the tests for a stop would say.
        obtain ⟨rest, hrest⟩ := runningPoints_head step limit left produced hle
        rw [hrest, visitAll_failed hv]
        simp only [visitRunning, hle, hv, if_true, endWith]

theorem visitPoints_eq_pointList (mode : Mode) (low high step : α) (limit : Int)
    (raise : Stop α → ε) (visit : σ → α → σ × Option ε) (s : σ) :
    visitPoints mode low high step limit raise visit s =
      endWith raise (pointList mode low high step limit).2
        (visitAll visit (pointList mode low high step limit).1 s) := by
  cases hplan : plan low high step limit with
  | error stop => simp only [visitPoints, pointList, hplan, visitAll, endWith, Option.map]
  | ok steps =>
    cases mode with
    | count =>
      simp only [visitPoints, pointList, hplan, visitGrid_eq, List.range_eq_range']
      rcases visitAll visit _ s with ⟨s', _ | e⟩ <;> rfl
    | accumulate => simp only [visitPoints, pointList, hplan, visitRunning_eq]

theorem points_eq (mode : Mode) (low high step : α) (limit : Int) :
    points mode low high step limit =
      ((pointList mode low high step limit).1.toArray, (pointList mode low high step limit).2) := by
  rw [points, visitPoints_eq_pointList, visitAll_push]
  simp [endWith]

theorem visitPoints_eq (mode : Mode) (low high step : α) (limit : Int) (raise : Stop α → ε)
    (visit : σ → α → σ × Option ε) (s : σ) :
    visitPoints mode low high step limit raise visit s =
      endWith raise (points mode low high step limit).2
        (visitAll visit (points mode low high step limit).1.toList s) := by
  rw [visitPoints_eq_pointList, points_eq]

theorem points_nonempty {mode : Mode} {low high step : α} {limit : Int} (h : le low high = true)
    (hstop : (points mode low high step limit).2 = none) :
    1 ≤ (points mode low high step limit).1.size := by
  rw [points_eq] at hstop ⊢
  simp only [pointList] at hstop ⊢
  split
  · rename_i hplan
    simp [hplan] at hstop
  · cases mode with
    | count => simp
    | accumulate =>
      obtain ⟨rest, hrest⟩ := runningPoints_head step limit limit.toNat 0 h
      simp [hrest]

end Sweep
end ArithTree
