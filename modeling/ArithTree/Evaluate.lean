import ArithTree.Expr.Build
import ArithTree.Store.Dictionary

/-!
# ArithTree.Evaluate

The number that a tree denotes under bindings. A variable denotes what the tree bound to it denotes,
under the same bindings. Operands are evaluated left to right and the first failure is the result;
an operator that is a command fails before its operands are looked at.

Names are resolved along a path of names whose bound trees are being evaluated. Meeting a name of
the path again is a cycle. A path has no repetitions and holds bound names only, so it is no longer
than the number of bindings, and the recursion needs no other bound (`resolve`).
-/

namespace ArithTree

/-- Names and the trees bound to them. -/
abbrev Bindings := Dictionary String Expr

variable [Numerics]

/-- The value of a tree whose variables have the values that `read` gives. -/
def evaluateWith (read : String → Except Failure Float) : Expr → Except Failure Float
  | .num x => .ok x
  | .var n => read n
  | .unary op a =>
    match evaluateWith read a with
    | .error f => .error f
    | .ok x => .ok (op.apply x)
  | .binary op a b =>
    match evaluateWith read a with
    | .error f => .error f
    | .ok x =>
      match evaluateWith read b with
      | .error f => .error f
      | .ok y => .ok (op.apply x y)
  | .request r _ => .error (.unknownOperator r.symbol)
  | .plot .. => .error (.unknownOperator Operator.plot.symbol)
  | .foreign v => .error (.notEvaluable v)

/-- The part of a path that starts at `name`, closed with `name`. -/
def cycleAt (path : List String) (name : String) : List String :=
  path.dropWhile (· != name) ++ [name]

/-- The value of a name, while the bound trees of the names on `path` are being evaluated. The
first argument counts the bound names that are not on the path. -/
def resolve (b : Bindings) : Nat → List String → String → Except Failure Float
  | 0, path, name =>
    match b.get? name with
    | none => .error (.undefinedVariable name)
    | some _ => .error (.cyclicBinding (cycleAt path name))
  | left + 1, path, name =>
    match b.get? name with
    | none => .error (.undefinedVariable name)
    | some e =>
      if name ∈ path then .error (.cyclicBinding (cycleAt path name))
      else evaluateWith (resolve b left (path ++ [name])) e

/-- The value of a tree under bindings. -/
def evaluate (b : Bindings) (e : Expr) : Except Failure Float :=
  evaluateWith (resolve b b.size []) e

end ArithTree
