import ArithTree.Sweep.Arithmetic
import ArithTree.Sweep.Unbounded

/-!
# ArithTree.Sweep.Points

The points of a sweep from `low` to `high`. In `count` mode the number of steps is fixed first and
the points are `low + k · step`; the last of them is `high` itself when it lies there up to rounding.
In `accumulate` mode the step is added to a running point as long as that is at most `high`, so
rounding drifts along.

The points are visited one at a time (`visitPoints`), because a visitor may fail at any of them;
`points` is the visitor that writes them down.
-/

namespace ArithTree
namespace Sweep

inductive Mode where
  | count
  | accumulate
  deriving DecidableEq, Repr

def Mode.name : Mode → String
  | .count => "count"
  | .accumulate => "accumulate"

def Mode.all : List Mode := [.count, .accumulate]

def Mode.ofName? (s : String) : Option Mode := Mode.all.find? fun m => m.name == s

open Arithmetic

variable {α : Type} [Arithmetic α]

/-- Is `x` the upper bound up to rounding? The distance allowed is relative to the larger bound. -/
def landsOn (x low high : α) : Bool :=
  let scale := if le (abs high) (abs low) then abs low else abs high
  same x high ||
    ((floor? x).isSome && (floor? high).isSome && le (abs (sub high x)) (mul slack scale))

def gridPoint (low step : α) (k : Int) : α := add low (mul (ofInt k) step)

/-- The number of whole steps from `low` that stay within `high`, and whether the last one ends on
`high`. -/
def countSteps (low high step : α) : Except (Stop α) (Int × Bool) :=
  if same step (ofInt 0) then .error .zeroStep
  else
    match floor? (div (sub high low) step) with
    | none => .error (.unbounded (.coarse step low high))
    | some n =>
      if landsOn (gridPoint low step (n + 1)) low high then .ok (n + 1, true)
      else .ok (n, landsOn (gridPoint low step n) low high)

/-- The number of steps, if they need at most `limit` samples. -/
def plan (low high step : α) (limit : Int) : Except (Stop α) (Int × Bool) :=
  match countSteps low high step with
  | .error stop => .error stop
  | .ok (n, ends) =>
    if limit < n + 1 then .error (.unbounded (.tooMany (n + 1) limit)) else .ok (n, ends)

variable {σ ε : Type}

/-- Visits `point k`, `point (k + 1)`, … as many as asked. -/
def visitGrid (point : Nat → α) (visit : σ → α → σ × Option ε) : Nat → Nat → σ → σ × Option ε
  | 0, _, s => (s, none)
  | left + 1, k, s =>
    match visit s (point k) with
    | (s, some e) => (s, some e)
    | (s, none) => visitGrid point visit left (k + 1) s

/-- The points of `n` steps, the last of them `high` if the steps end there. -/
def countPoint (low high step : α) (n : Int) (ends : Bool) (k : Nat) : α :=
  if k < n then gridPoint low step k else if ends then high else gridPoint low step n

/-- Visits a running point. One visit more than the limit allows ends the sweep, so `left` visits
beyond those already `produced` are enough. -/
def visitRunning (high step : α) (limit : Int) (raise : Stop α → ε) (visit : σ → α → σ × Option ε) :
    Nat → Nat → α → σ → σ × Option ε
  | 0, _, _, s => (s, none)
  | left + 1, produced, x, s =>
    if le x high then
      match visit s x with
      | (s, some e) => (s, some e)
      | (s, none) =>
        if same (add x step) x then (s, some (raise (.unbounded (.stalled step x))))
        else if limit < (produced + 1 : Nat) then
          (s, some (raise (.unbounded (.exceeded limit (produced + 1)))))
        else visitRunning high step limit raise visit left (produced + 1) (add x step) s
    else (s, none)

/-- Visits the points of a sweep in order. The first failure ends it: one of the visitor's, or one
of the sweep, which `raise` makes a failure of the visitor's kind. -/
def visitPoints (mode : Mode) (low high step : α) (limit : Int) (raise : Stop α → ε)
    (visit : σ → α → σ × Option ε) (s : σ) : σ × Option ε :=
  match plan low high step limit with
  | .error stop => (s, some (raise stop))
  | .ok (n, ends) =>
    match mode with
    | .count => visitGrid (countPoint low high step n ends) visit (n.toNat + 1) 0 s
    | .accumulate => visitRunning high step limit raise visit (limit.toNat + 1) 0 low s

/-- The points of a sweep, and what cut it short. -/
def points (mode : Mode) (low high step : α) (limit : Int) : Array α × Option (Stop α) :=
  visitPoints mode low high step limit id (fun xs x => (xs.push x, none)) #[]

end Sweep
end ArithTree
