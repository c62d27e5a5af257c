import ArithTree.Calculator
import ArithTree.Symbolic.OfExpr

/-!
# ArithTree.Session

Sessions with a calculator: what a caller may ask of it, and what it answers. A step that fails does
not end a session.
-/

namespace ArithTree

/-- A step of a session. Trees are taken as a caller wrote them. -/
inductive Action where
  | define (name : String) (given : Expr)
  | undefine (name : String)
  | toDouble (given : Expr)
  | simplify (given : Expr)
  | plot (expression slot low high step : Expr)
  | execute (node : Expr)
  /-- The names that a tree needs and that are not bound. -/
  | missing (e : Expr)
  /-- The typeset form of a tree, with or without its bound variables replaced. -/
  | typeset (substituting : Bool) (e : Expr)

inductive Answer where
  | tree (e : Expr)
  | number (x : Float)
  | names (ns : List String)
  | text (s : String)

namespace Calculator

/-- The outcome with its result seen as an answer. -/
def Outcome.map {β γ : Type} (f : β → γ) (o : Outcome β) : Outcome γ :=
  ⟨o.result.map f, o.calculator, o.log⟩

variable [Numerics] [Symbolic.Library]

def perform (c : Calculator) (log : Log) : Action → Outcome Answer
  | .define name given => (c.define log name given).map .tree
  | .undefine name => (c.undefine log name).map .tree
  | .toDouble given => (c.toDouble log given).map .number
  | .simplify given => (c.simplify log given).map .tree
  | .plot e s l h t => (c.plot log e s l h t).map .tree
  | .execute node => (c.execute log node).map .tree
  | .missing e => ⟨.ok (.names (c.undefinedVariables e)), c, log⟩
  | .typeset substituting e =>
    let b := if substituting then c.env.bindings else Dictionary.ofCapacity 1
    ⟨(Symbolic.typesetExpr b e).map .text, c, log⟩

/-- Takes steps in order, and lists their results. -/
def runAll (c : Calculator) (log : Log) :
    List Action → List (Except Failure Answer) × Calculator × Log
  | [] => ([], c, log)
  | a :: rest =>
    let o := c.perform log a
    let (results, c, log) := o.calculator.runAll o.log rest
    (o.result :: results, c, log)

end Calculator
end ArithTree
