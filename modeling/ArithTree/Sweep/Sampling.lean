import ArithTree.Environment
import ArithTree.Log
import ArithTree.Sweep.Points

/-!
# ArithTree.Sweep.Sampling

Carrying out the sweep of a plot: the bounds and the step are evaluated and checked, then the
plotted expression is evaluated at each point, with the swept name bound to the point for that
evaluation only.
-/

namespace ArithTree
namespace Sweep

/-- Visits the points of a sweep whose mode is given by name. The name is looked at last. -/
def visitNamed {σ : Type} (mode : String) (low high step : Float) (limit : Int)
    (visit : σ → Float → σ × Option Failure) (s : σ) : σ × Option Failure :=
  match Mode.ofName? mode with
  | some mode => visitPoints mode low high step limit Failure.ofStop visit s
  | none =>
    match plan low high step limit with
    | .error stop => (s, some (Failure.ofStop stop))
    | .ok _ => (s, some (.unknownMode mode))

theorem Mode.ofName?_name (mode : Mode) : Mode.ofName? mode.name = some mode := by
  cases mode <;> decide

/-- A mode is found again by its name. -/
theorem visitNamed_name {σ : Type} (mode : Mode) (low high step : Float) (limit : Int)
    (visit : σ → Float → σ × Option Failure) (s : σ) :
    visitNamed mode.name low high step limit visit s =
      visitPoints mode low high step limit Failure.ofStop visit s := by
  rw [visitNamed, Mode.ofName?_name]

/-- The points of a sweep whose mode is given by name. -/
def pointsNamed (mode : String) (low high step : Float) (limit : Int) : Array Float × Option Failure :=
  visitNamed mode low high step limit (fun xs x => (xs.push x, none)) #[]

variable [Numerics]

/-- What a sweep asks for, once its bounds are known. -/
structure Span where
  expression : Expr
  name : String
  low : Float
  high : Float
  step : Float

/-- Evaluates the bounds and the step of a plot under the bindings, and checks them in order. -/
def spanOf (env : Environment) (e s l h t : Expr) : Except Failure Span :=
  match s.asVariable? with
  | none => .error (.slotInvalid s.text)
  | some name =>
    match env.evaluate l with
    | .error f => .error f
    | .ok low =>
      match env.evaluate h with
      | .error f => .error f
      | .ok high =>
        match env.evaluate t with
        | .error f => .error f
        | .ok step =>
          if high < low then .error (.rangeInvalid low high)
          else if env.isBound name then .error (.variableBound name)
          else if step <= 0 then .error (.stepNotPositive step)
          else if Double.isFinite low && Double.isFinite high && Double.isFinite step then
            .ok ⟨e, name, low, high, step⟩
          else .error (.unbounded (.openRange low high step))

/-- What a sweep has gathered so far. -/
structure Progress where
  env : Environment
  log : Log
  /-- Are the samples reported? This is settled before the first of them. -/
  watched : Bool
  xs : Samples
  ys : Samples

/-- Takes the sample at `x`. -/
def Progress.sample (span : Span) (logger : LoggerId) (p : Progress) (x : Float) :
    Progress × Option Failure :=
  match p.env.withBinding span.name (.num x) fun env => (env.evaluate span.expression, env) with
  | (.error f, env) => ({ p with env := env }, some f)
  | (.ok y, env) =>
    ({ p with
       env := env
       log := if p.watched then p.log.report logger (.sample span.name x y) else p.log
       xs := p.xs.push x
       ys := p.ys.push y }, none)

/-- Takes all samples of a span, and reports a summary. -/
def sample (mode : Mode) (limit : Nat) (logger : LoggerId) (span : Span) (env : Environment)
    (log : Log) : Progress × Option Failure :=
  let start : Progress := ⟨env, log, (log.levelOf logger).reports .verbose, Samples.empty, Samples.empty⟩
  let (p, failed) :=
    visitNamed mode.name span.low span.high span.step limit (Progress.sample span logger) start
  match failed with
  | some f => (p, some f)
  | none =>
    ({ p with
       log := p.log.report logger (.sweep span.name span.low span.high span.step p.xs.size) }, none)

end Sweep
end ArithTree
