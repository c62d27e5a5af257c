import ArithTree.Config
import ArithTree.Simplify
import ArithTree.Sweep.Sampling

/-!
# ArithTree.Command

The three commands. Each takes the environment and an entry node: `toDouble` and `simplify` work on
the first operand of the entry, `plot` on the five operands of a plot node. Only a finished plot
changes the environment: it is rendered, and the plotted expression is the result.
-/

namespace ArithTree
namespace Command

variable [Numerics]

/-- The operand that a command is about. -/
def subject (entry : Expr) : Except Failure Expr :=
  match entry.children with
  | .error f => .error f
  | .ok (e :: _) => .ok e
  | .ok [] => .error .operandMissing

/-- Evaluates the subject to a number leaf. -/
def toDouble (env : Environment) (entry : Expr) : Except Failure Expr :=
  match subject entry with
  | .error f => .error f
  | .ok e =>
    match env.evaluate e with
    | .error f => .error f
    | .ok x => .ok (.num x)

/-- Simplifies the subject, one pass. -/
def simplify (config : Config) (env : Environment) (entry : Expr) : Except Failure Expr :=
  match subject entry with
  | .error f => .error f
  | .ok e => simplifyBuilding config.copying env.bindings e

structure Outcome where
  result : Except Failure Expr
  env : Environment
  log : Log

def plot (config : Config) (logger : LoggerId) (env : Environment) (log : Log) (entry : Expr) :
    Outcome :=
  match entry with
  | .plot e s l h t =>
    match Sweep.spanOf env e s l h t with
    | .error f => ⟨.error f, env, log⟩
    | .ok span =>
      match Sweep.sample config.mode config.maxSamples logger span env log with
      | (p, some f) => ⟨.error f, p.env, p.log⟩
      | (p, none) => ⟨.ok e, p.env.render ⟨"", "x", "y", p.xs.toList, p.ys.toList⟩, p.log⟩
  | entry =>
    match entry.checkPlot with
    | .error f => ⟨.error f, env, log⟩
    | .ok () => ⟨.ok entry, env, log⟩

/-- Carries out the command of a node. An operation of another kind is refused by its symbol, and a
leaf by its text. -/
def run (config : Config) (logger : LoggerId) (env : Environment) (log : Log) (node : Expr) :
    Outcome :=
  match node with
  | .request .toDouble _ => ⟨toDouble env node, env, log⟩
  | .request .simplify _ => ⟨simplify config env node, env, log⟩
  | .plot .. => plot config logger env log node
  | _ => ⟨.error (.unknownOperator
      (match node.operator? with | some op => op.symbol | none => node.text)), env, log⟩

end Command
end ArithTree
