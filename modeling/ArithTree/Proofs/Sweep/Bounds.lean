import ArithTree.Proofs.Double.Conversion
import ArithTree.Proofs.Sweep.Stops

/-!
# ArithTree.Proofs.Sweep.Bounds

Every sweep comes to an end within its limit, however its arithmetic rounds. In `count` mode this is
the check made beforehand. The loop of `accumulate` mode has a test of its own that need not ever
fail, since the step may be absorbed; what ends it is the test for a stall and the count of the points
together.

* `Runs`: the loop by its tests alone, with nothing that counts it down.
* `runs_runningPoints`: the visits that the limit allows are enough for the loop.
* `Runs.unique`: a loop has one end.
* `Runs.le`, `Runs.completed`, `Runs.length_le`, `Runs.stopped`: what a loop that has ended yielded.
* `points_bounded`: both modes, for any four operations in place of the rounded ones.
-/

namespace ArithTree
namespace Sweep

open Arithmetic

section Loop

variable {α : Type} [Arithmetic α] {low high step : α} {limit : Int}

/-- `Runs high step limit produced x out`: from the point `x`, with `produced` points before it, the
loop ends having yielded `out.1`, and `out.2` is what cut it short. -/
inductive Runs (high step : α) (limit : Int) : Nat → α → List α × Option (Stop α) → Prop where
  | passed {produced : Nat} {x : α} : le x high = false → Runs high step limit produced x ([], none)
  | stalled {produced : Nat} {x : α} : le x high = true → same (add x step) x = true →
      Runs high step limit produced x ([x], some (.unbounded (.stalled step x)))
  | exceeded {produced : Nat} {x : α} : le x high = true → same (add x step) x = false →
      limit < (produced + 1 : Nat) →
      Runs high step limit produced x
        ([x], some (.unbounded (.exceeded limit (produced + 1))))
  | advanced {produced : Nat} {x : α} {out : List α × Option (Stop α)} : le x high = true →
      same (add x step) x = false → (produced + 1 : Nat) ≤ limit →
      Runs high step limit (produced + 1) (add x step) out →
      Runs high step limit produced x (x :: out.1, out.2)

/-- By induction on the visits left. They cannot run out: the last of them is one more than the limit
allows. -/
theorem runs_runningPoints (left : Nat) :
    ∀ (produced : Nat) (x : α), (produced : Int) ≤ limit → limit < (produced + left : Nat) →
      Runs high step limit produced x (runningPoints high step limit left produced x) := by
  induction left with
  | zero =>
    intro produced x hproduced hleft
    omega
  | succ left ih =>
    intro produced x hproduced hleft
    cases hle : le x high with
    | false =>
      simp only [runningPoints, hle, Bool.false_eq_true, if_false]
      exact .passed hle
    | true =>
      cases hsame : same (add x step) x with
      | true =>
        simp only [runningPoints, hle, hsame, if_true]
        exact .stalled hle hsame
      | false =>
        by_cases hlimit : limit < (produced + 1 : Nat)
        · simp only [runningPoints, hle, hsame, hlimit, Bool.false_eq_true, if_true, if_false]
          exact .exceeded hle hsame hlimit
        · simp only [runningPoints, hle, hsame, hlimit, Bool.false_eq_true, if_true, if_false]
          exact .advanced hle hsame (by omega) (ih _ _ (by omega) (by omega))

variable {produced : Nat} {x : α} {out : List α × Option (Stop α)}

theorem Runs.le (h : Runs high step limit produced x out) :
    ∀ y ∈ out.1, Arithmetic.le y high = true := by
  induction h with
  | passed hle =>
    intro y hy
    cases hy
  | stalled hle hsame =>
    intro y hy
    rw [List.mem_singleton] at hy
    exact hy ▸ hle
  | exceeded hle hsame hlimit =>
    intro y hy
    rw [List.mem_singleton] at hy
    exact hy ▸ hle
  | advanced hle hsame hlimit hrest ih =>
    intro y hy
    rcases List.mem_cons.mp hy with rfl | hy
    · exact hle
    · exact ih y hy

theorem Runs.completed (h : Runs high step limit produced x out) (hlimit : (produced : Int) ≤ limit)
    (hout : out.2 = none) : (produced + out.1.length : Nat) ≤ limit := by
  induction h with
  | passed hle => simpa using hlimit
  | stalled hle hsame => cases hout
  | exceeded hle hsame hlimit => cases hout
  | advanced hle hsame hroom hrest ih =>
    have hlength := ih hroom hout
    rw [List.length_cons]
    omega

theorem Runs.length_le (h : Runs high step limit produced x out)
    (hlimit : (produced : Int) ≤ limit) : (produced + out.1.length : Nat) ≤ limit + 1 := by
  induction h with
  | passed hle =>
    rw [List.length_nil]
    omega
  | stalled hle hsame =>
    rw [List.length_singleton]
    omega
  | exceeded hle hsame hpast =>
    rw [List.length_singleton]
    omega
  | advanced hle hsame hroom hrest ih =>
    have hlength := ih hroom
    rw [List.length_cons]
    omega

/-- A loop that is cut short has stalled, or it yielded the first point beyond the limit and says how
many points that makes. -/
theorem Runs.stopped (h : Runs high step limit produced x out)
    (hlimit : (produced : Int) ≤ limit) {stop : Stop α} (hout : out.2 = some stop) :
    (∃ y, stop = .unbounded (.stalled step y)) ∨
      stop = .unbounded (.exceeded limit (produced + out.1.length)) ∧
        (produced + out.1.length : Nat) = limit + 1 := by
  induction h with
  | passed hle => cases hout
  | @stalled produced x hle hsame =>
    cases hout
    exact .inl ⟨x, rfl⟩
  | exceeded hle hsame hpast =>
    cases hout
    refine .inr ⟨rfl, ?_⟩
    rw [List.length_singleton]
    omega
  | @advanced produced x out hle hsame hroom hrest ih =>
    have hlength : produced + (x :: out.1).length = produced + 1 + out.1.length := by
      rw [List.length_cons]
      omega
    rw [hlength]
    exact ih hroom hout

theorem Runs.nonempty (h : Runs high step limit produced x out)
    (hle : Arithmetic.le x high = true) : 1 ≤ out.1.length := by
  cases h with
  | passed hpast =>
    rw [hle] at hpast
    cases hpast
  | stalled hle hsame => exact Nat.le_refl 1
  | exceeded hle hsame hlimit => exact Nat.le_refl 1
  | advanced hle hsame hlimit hrest =>
    rw [List.length_cons]
    omega

/-- The tests at a point exclude each other, so a loop has one end. -/
theorem Runs.unique (h : Runs high step limit produced x out) :
    ∀ {out'}, Runs high step limit produced x out' → out' = out := by
  induction h with
  | passed hle =>
    intro out' h'
    cases h' with
    | passed _ => rfl
    | stalled hle' _ => rw [hle] at hle'; cases hle'
    | exceeded hle' _ _ => rw [hle] at hle'; cases hle'
    | advanced hle' _ _ _ => rw [hle] at hle'; cases hle'
  | stalled hle hsame =>
    intro out' h'
    cases h' with
    | passed hle' => rw [hle] at hle'; cases hle'
    | stalled _ _ => rfl
    | exceeded _ hsame' _ => rw [hsame] at hsame'; cases hsame'
    | advanced _ hsame' _ _ => rw [hsame] at hsame'; cases hsame'
  | exceeded hle hsame hlimit =>
    intro out' h'
    cases h' with
    | passed hle' => rw [hle] at hle'; cases hle'
    | stalled _ hsame' => rw [hsame] at hsame'; cases hsame'
    | exceeded _ _ _ => rfl
    | advanced _ _ hroom _ => omega
  | advanced hle hsame hroom _ ih =>
    intro out' h'
    cases h' with
    | passed hle' => rw [hle] at hle'; cases hle'
    | stalled _ hsame' => rw [hsame] at hsame'; cases hsame'
    | exceeded _ _ hlimit => omega
    | advanced _ _ _ h' => rw [ih h']

theorem plan_ok {n : Int} {ends : Bool} (h : plan low high step limit = .ok (n, ends)) :
    countSteps low high step = .ok (n, ends) ∧ n + 1 ≤ limit := by
  unfold plan at h
  split at h
  · cases h
  · rename_i n' ends' hcount
    split at h
    · cases h
    · rename_i hlimit
      cases h
      exact ⟨hcount, by omega⟩

/-- The three ways a sweep goes: it is refused, its points are listed, or it runs. -/
theorem pointList_cases (mode : Mode) (hlimit : 0 ≤ limit) :
    (∃ stop, plan low high step limit = .error stop ∧
        pointList mode low high step limit = ([], some stop)) ∨
      (∃ n ends, plan low high step limit = .ok (n, ends) ∧ mode = .count ∧
        pointList mode low high step limit =
          ((List.range (n.toNat + 1)).map (countPoint low high step n ends), none)) ∨
      ∃ n ends, plan low high step limit = .ok (n, ends) ∧ mode = .accumulate ∧
        Runs high step limit 0 low (pointList mode low high step limit) := by
  cases hplan : plan low high step limit with
  | error stop =>
    refine .inl ⟨stop, rfl, ?_⟩
    simp only [pointList, hplan]
  | ok steps =>
    obtain ⟨n, ends⟩ := steps
    cases mode with
    | count =>
      refine .inr (.inl ⟨n, ends, rfl, rfl, ?_⟩)
      simp only [pointList, hplan]
    | accumulate =>
      refine .inr (.inr ⟨n, ends, rfl, rfl, ?_⟩)
      simp only [pointList, hplan]
      exact runs_runningPoints _ _ _ hlimit (by omega)

end Loop

/-! ## Doubles -/

/-- The arithmetic of doubles with any operations in place of the four that round. With these four
themselves it is the arithmetic that sweeps use. -/
abbrev rounding (add sub mul div : Float → Float → Float) : Arithmetic Float :=
  { (inferInstance : Arithmetic Float) with add := add, sub := sub, mul := mul, div := div }

/-- What a sweep from `low` to `high` has come to when it has yielded `xs` and `stop` cut it short. -/
structure Bounded (A : Arithmetic Float) (mode : Mode) (low high step : Float) (limit : Int)
    (xs : Array Float) (stop : Option (Stop Float)) : Prop where
  ends : mode = .accumulate → ∀ n e, plan low high step limit = .ok (n, e) →
    Runs high step limit 0 low (xs.toList, stop)
  completed : stop = none → 1 ≤ xs.size ∧ xs.size ≤ limit
  unbounded : ∀ s, stop = some s → ∃ why, s = .unbounded why
  counted : mode = .count → stop ≠ none → xs = #[]
  produced : mode = .accumulate → xs.size ≤ limit + 1
  exceeded : xs ≠ #[] → ∀ s, stop = some s → (∃ x, s = .unbounded (.stalled step x)) ∨
    ∃ why, s = .unbounded why ∧ why = .exceeded limit xs.size ∧
      why.samples? = some (xs.size : Int) ∧ xs.size = limit + 1
  within : mode = .accumulate → ∀ x ∈ xs, x ≤ high
  /-- All counts of steps that the sweep computes with have a double. -/
  countable : ∀ n, floor? (div (sub high low) step) = some n →
    ∀ k : Int, k.natAbs ≤ n.natAbs + 1 → ∃ x, Double.ofInt? k = some x

theorem points_bounded (add sub mul div : Float → Float → Float) (mode : Mode)
    {low high step : Float} (hle : low ≤ high) (hstep : 0 < step) {limit : Int}
    (hlimit : 1 ≤ limit) :
    Bounded (rounding add sub mul div) mode low high step limit
      (@points Float (rounding add sub mul div) mode low high step limit).1
      (@points Float (rounding add sub mul div) mode low high step limit).2 := by
  let A : Arithmetic Float := rounding add sub mul div
  have hzero : A.same step (A.ofInt 0) = false := same_zero (Double.not_le_of_lt hstep)
  have hcountable : ∀ n, A.floor? (A.div (A.sub high low) step) = some n →
      ∀ k : Int, k.natAbs ≤ n.natAbs + 1 → ∃ x, Double.ofInt? k = some x :=
    fun n hn k hk => ⟨_, Double.ofInt?_of_floor? hn hk⟩
  have hnonneg : (0 : Int) ≤ limit := by omega
  rw [points_eq]
  obtain ⟨stop, hplan, hpoints⟩ | ⟨n, ends, hplan, rfl, hpoints⟩ | ⟨n, ends, hplan, rfl, hruns⟩ :=
    @pointList_cases Float A low high step limit mode hnonneg
  · rw [hpoints]
    exact
      { ends := fun _ n e hok => by simp [A, hplan] at hok
        completed := fun hnone => nomatch hnone
        unbounded := fun s hs => Option.some.inj hs ▸ plan_stop hzero hplan
        counted := fun _ _ => rfl
        produced := fun _ => by simp; omega
        exceeded := fun hne => absurd rfl hne
        within := fun _ x hx => by simp at hx
        countable := hcountable }
  · obtain ⟨-, hn⟩ := plan_ok hplan
    rw [hpoints]
    exact
      { ends := fun hmode => nomatch hmode
        completed := fun _ => by simp; omega
        unbounded := fun s hs => nomatch hs
        counted := fun _ hstop => absurd rfl hstop
        produced := fun hmode => nomatch hmode
        exceeded := fun _ s hs => nomatch hs
        within := fun hmode => nomatch hmode
        countable := hcountable }
  · have hfirst : 1 ≤ _ := hruns.nonempty (decide_eq_true hle)
    have hcompleted := hruns.completed hnonneg
    have hlength := hruns.length_le hnonneg
    have hstopped := fun s => @Runs.stopped Float A high step limit 0 low _ hruns hnonneg s
    rw [Nat.zero_add] at hlength
    exact
      { ends := fun _ _ _ _ => hruns
        completed := fun hnone => ⟨hfirst, by simpa using hcompleted hnone⟩
        unbounded := fun s hs => pointList_stop hzero hs
        counted := fun hmode => nomatch hmode
        produced := fun _ => by simpa using hlength
        exceeded := fun _ s hs => by
          rcases hstopped s hs with hstall | ⟨rfl, hcount⟩
          · exact .inl hstall
          · rw [Nat.zero_add] at hcount ⊢
            exact .inr ⟨_, rfl, by simp, by simp [Unbounded.samples?], by simpa using hcount⟩
        within := fun _ x hx => of_decide_eq_true (hruns.le x (by simpa using hx))
        countable := hcountable }

/-- Every step is absorbed, so the running sweep stalls at its first point. -/
theorem points_bounded_absorbing :
    (0 : Float) ≤ 1 ∧ (0 : Float) < 0.25 ∧ (1 : Int) ≤ 10 ∧
      Bounded (rounding (fun x _ => x) (· - ·) (· * ·) (· / ·)) .accumulate 0 1 0.25 10
        (@points Float (rounding (fun x _ => x) (· - ·) (· * ·) (· / ·)) .accumulate 0 1 0.25 10).1
        (@points Float (rounding (fun x _ => x) (· - ·) (· * ·) (· / ·)) .accumulate 0 1 0.25 10).2 :=
  have hle : (0 : Float) ≤ 1 := by decide
  have hstep : (0 : Float) < 0.25 := by decide
  have hlimit : (1 : Int) ≤ 10 := by decide
  ⟨hle, hstep, hlimit, points_bounded _ _ _ _ .accumulate hle hstep hlimit⟩

end Sweep
end ArithTree
