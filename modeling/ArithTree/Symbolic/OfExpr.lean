import ArithTree.Evaluate
import ArithTree.Symbolic.Library

/-!
# ArithTree.Symbolic.OfExpr

The symbolic form of a tree. Bound variables can be replaced by the symbolic forms of their trees:
each round replaces all bound symbols at once, and one round more than there are bindings is enough
unless a name depends on itself.
-/

namespace ArithTree
namespace Symbolic

open Library

variable [Library]

/-- A whole number has an exact form. -/
def ofNumber (x : Float) : Form :=
  match Double.toInt? x with
  | some i => integer i
  | none => float x

def ofBinary (op : BinaryOp) (x y : Form) : Form :=
  match op with
  | .add => add x y
  | .sub => add x (mul (integer (-1)) y)
  | .mul => mul x y
  | .div => mul x (pow y (integer (-1)))
  | .pow => pow x y

def ofUnary (op : UnaryOp) (x : Form) : Form :=
  match op with
  | .negate => neg x
  | .sin => sin x
  | .cos => cos x

/-- The symbolic form of a tree. Operands come first, so the first command in post-order is the one
that is refused. -/
def ofExpr : Expr → Except Failure Form
  | .num x => .ok (ofNumber x)
  | .var n => .ok (symbol n)
  | .unary op a =>
    match ofExpr a with
    | .error f => .error f
    | .ok x => .ok (ofUnary op x)
  | .binary op a b =>
    match ofExpr a with
    | .error f => .error f
    | .ok x =>
      match ofExpr b with
      | .error f => .error f
      | .ok y => .ok (ofBinary op x y)
  | .request r a =>
    match ofExpr a with
    | .error f => .error f
    | .ok _ => .error (.unknownOperator r.symbol)
  | .plot e s l h t =>
    match ofExpr e with
    | .error f => .error f
    | .ok _ =>
      match ofExpr s with
      | .error f => .error f
      | .ok _ =>
        match ofExpr l with
        | .error f => .error f
        | .ok _ =>
          match ofExpr h with
          | .error f => .error f
          | .ok _ =>
            match ofExpr t with
            | .error f => .error f
            | .ok _ => .error (.unknownOperator Operator.plot.symbol)
  | .foreign v => .error (.notExpression v)

/-- The symbolic forms of the trees bound to some names. -/
def boundForms (b : Bindings) : List String → Except Failure (List (String × Form))
  | [] => .ok []
  | n :: ns =>
    match b.get? n with
    | none => boundForms b ns
    | some e =>
      match ofExpr e with
      | .error f => .error f
      | .ok s =>
        match boundForms b ns with
        | .error f => .error f
        | .ok rest => .ok ((n, s) :: rest)

/-- Replaces bound symbols, round by round, until none is left or the rounds are used up. -/
def substituteRounds (b : Bindings) : Nat → Form → Except Failure Form
  | 0, s => .ok s
  | rounds + 1, s =>
    match boundForms b (freeSymbols s) with
    | .error f => .error f
    | .ok [] => .ok s
    | .ok forms => substituteRounds b rounds (replace forms s)

/-- The symbolic form of a tree with its bound variables replaced. -/
def ofExprUnder (b : Bindings) (e : Expr) : Except Failure Form :=
  match ofExpr e with
  | .error f => .error f
  | .ok s => substituteRounds b (b.size + 1) s

/-- The typeset form of a tree under bindings; a tree with a command in it is shown in its own
infix form. -/
def typesetExpr (b : Bindings) (e : Expr) : Except Failure String :=
  match ofExprUnder b e with
  | .ok s => .ok (typeset s)
  | .error (.unknownOperator _) => .ok e.text
  | .error f => .error f

end Symbolic
end ArithTree
