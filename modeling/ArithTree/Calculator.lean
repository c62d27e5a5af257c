import ArithTree.Command

/-!
# ArithTree.Calculator

A calculator: an environment, a configuration, and the logger that was current when it was made.
The log is shared by all calculators, so it is passed in and handed back.
-/

namespace ArithTree

structure Calculator where
  config : Config
  env : Environment
  logger : LoggerId

namespace Calculator

variable [Numerics]

/-- Makes a calculator. A level in the configuration becomes the level of the current logger. -/
def make (config : Config) (bindings : Bindings) (log : Log) : Calculator × Log :=
  let log := match config.level with
    | some l => log.setLevel l
    | none => log
  let (id, log) := log.ensure
  (⟨config, ⟨bindings, []⟩, id⟩, log)

structure Outcome (β : Type) where
  result : Except Failure β
  calculator : Calculator
  log : Log

/-- Binds a name to what a caller wrote. -/
def define (c : Calculator) (log : Log) (name : String) (given : Expr) : Outcome Expr :=
  match Expr.ofCaller given with
  | .error f => ⟨.error f, c, log⟩
  | .ok e =>
    ⟨.ok e, { c with env := c.env.bind name e },
      log.report c.logger (.info .moderate (name ++ " := " ++ e.text))⟩

def undefine (c : Calculator) (log : Log) (name : String) : Outcome Expr :=
  let (result, env) := c.env.unbind name
  ⟨result, { c with env := env }, log⟩

/-- Carries out a command node and reports how it went. Failures that are not about evaluation are
not reported, nor are nodes that are no command. -/
def execute (c : Calculator) (log : Log) (node : Expr) : Outcome Expr :=
  let o := Command.run c.config c.logger c.env log node
  let c' := { c with env := o.env }
  match node.operator? with
  | some (.request _) | some .plot =>
    match o.result with
    | .ok e => ⟨.ok e, c', o.log.report c.logger (.info .moderate (node.text ++ " -> " ++ e.text))⟩
    | .error f =>
      if f.isEvaluation then
        ⟨.error f, c', o.log.report c.logger
          (.error ((match node.operator? with | some op => op.symbol | none => "") ++
            " failed: " ++ f.message))⟩
      else ⟨.error f, c', o.log⟩
  | _ => ⟨o.result, c', o.log⟩

def toDouble (c : Calculator) (log : Log) (given : Expr) : Outcome Float :=
  match Expr.ofCaller given with
  | .error f => ⟨.error f, c, log⟩
  | .ok e =>
    let o := c.execute log (.request .toDouble e)
    match o.result with
    | .error f => ⟨.error f, o.calculator, o.log⟩
    | .ok e => ⟨e.numericValue, o.calculator, o.log⟩

def simplify (c : Calculator) (log : Log) (given : Expr) : Outcome Expr :=
  match Expr.ofCaller given with
  | .error f => ⟨.error f, c, log⟩
  | .ok e => c.execute log (.request .simplify e)

/-- Reads the operands of a plot from what a caller wrote, in order. -/
def plotNode (e s l h t : Expr) : Except Failure Expr :=
  match Expr.ofCaller e with
  | .error f => .error f
  | .ok e =>
    match Expr.ofCaller s with
    | .error f => .error f
    | .ok s =>
      match Expr.ofCaller l with
      | .error f => .error f
      | .ok l =>
        match Expr.ofCaller h with
        | .error f => .error f
        | .ok h =>
          match Expr.ofCaller t with
          | .error f => .error f
          | .ok t => .ok (.plot e s l h t)

def plot (c : Calculator) (log : Log) (e s l h t : Expr) : Outcome Expr :=
  match plotNode e s l h t with
  | .error f => ⟨.error f, c, log⟩
  | .ok node => c.execute log node

def undefinedVariables (c : Calculator) (e : Expr) : List String :=
  e.freeVariables.filter fun n => !c.env.isBound n

end Calculator
end ArithTree
