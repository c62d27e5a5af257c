import ArithTree.Expr.Variables
import ArithTree.Failure

/-!
# ArithTree.Expr.Build

Building nodes from parts that a caller supplies, and taking them apart again. A node is built only
for a known symbol with the right number of operands.

* `build_operands`: the parts of an operation build the same operation.
-/

namespace ArithTree

def Operator.resolve (symbol : String) : Except Failure Operator :=
  match Operator.ofSymbol? symbol with
  | some op => .ok op
  | none => .error (.unknownOperator symbol)

/-- Fails unless an operator takes `n` operands. -/
def Operator.checkArity (op : Operator) (n : Int) : Except Failure Unit :=
  if n = op.arity then .ok () else .error (.arityMismatch op.symbol op.arity n)

/-- The numeric function of an operator. Operands beyond the arity are ignored; commands have no
numeric function. -/
def Operator.applyTo [Numerics] (op : Operator) (operands : List Float) : Except Failure Float :=
  match op, operands with
  | .binary op, x :: y :: _ => .ok (op.apply x y)
  | .unary op, x :: _ => .ok (op.apply x)
  | .binary _, _ | .unary _, _ => .error .operandMissing
  | .plot, _ | .request _, _ => .error (.unknownOperator op.symbol)

namespace Expr

def build (op : Operator) (operands : List Expr) : Except Failure Expr :=
  match op, operands with
  | .unary op, [a] => .ok (.unary op a)
  | .binary op, [a, b] => .ok (.binary op a b)
  | .request r, [a] => .ok (.request r a)
  | .plot, [e, s, l, h, t] => .ok (.plot e s l h t)
  | op, operands => .error (.arityMismatch op.symbol op.arity operands.length)

theorem build_operands {e : Expr} {op : Operator} (h : e.operator? = some op) :
    build op e.operands = .ok e := by
  cases e <;> simp_all [operator?, operands] <;> subst h <;> rfl

/-- The results of several steps, or the first failure. -/
def collect {α : Type} : List (Except Failure α) → Except Failure (List α)
  | [] => .ok []
  | .error f :: _ => .error f
  | .ok a :: rest =>
    match collect rest with
    | .error f => .error f
    | .ok as => .ok (a :: as)

/-- Builds a node, unless one of the operands has failed. -/
def buildFrom (op : Operator) (parts : List (Except Failure Expr)) : Except Failure Expr :=
  match collect parts with
  | .error f => .error f
  | .ok operands => build op operands

def numericValue : Expr → Except Failure Float
  | .num x => .ok x
  | e => .error (.lacks e.label .value)

/-- The name of a variable, the symbol of an operation. -/
def name (e : Expr) : Except Failure String :=
  match e, e.operator? with
  | .var n, _ => .ok n
  | _, some op => .ok op.symbol
  | e, none => .error (.lacks e.label .name)

/-- The operands of an operation; a leaf has none to give. -/
def children (e : Expr) : Except Failure (List Expr) :=
  match e.operator? with
  | some _ => .ok e.operands
  | none => .error (.lacks e.label .children)

def withOperands (e : Expr) (operands : List Expr) : Except Failure Expr :=
  match e.operator? with
  | some op => build op operands
  | none => .error (.lacks e.label .children)

def ofNumber (n : Number) : Except Failure Expr :=
  match n.toDouble? with
  | some x => .ok (.num x)
  | none => .error .integerTooLarge

/-- The same tree built anew from its leaves on, every number converted and every node checked once more. A plain
value in the place of a node cannot be copied, a list or a record can. -/
def rebuild : Expr → Except Failure Expr
  | .num x => ofNumber (.double x)
  | .var n => .ok (.var n)
  | .unary op a => buildFrom (.unary op) [a.rebuild]
  | .binary op a b => buildFrom (.binary op) [a.rebuild, b.rebuild]
  | .request r a => buildFrom (.request r) [a.rebuild]
  | .plot e s l h t => buildFrom .plot [e.rebuild, s.rebuild, l.rebuild, h.rebuild, t.rebuild]
  | .foreign (.scalar v) => .error (.notNode (.scalar v) "copy")
  | .foreign v => .ok (.foreign v)

/-- What a caller may write for a tree: a text stands for a variable and a number for itself. Truth
values and everything else that is no expression are refused. -/
def ofCaller : Expr → Except Failure Expr
  | .foreign (.scalar (.text s)) => .ok (.var s)
  | .foreign (.scalar (.integer i)) => ofNumber (.integer i)
  | .foreign (.scalar (.double x)) => ofNumber (.double x)
  | .foreign v => .error (.notExpression v)
  | e => .ok e

/-- A plot node must name its variable in the slot. -/
def checkPlot (e : Expr) : Except Failure Unit :=
  match e with
  | .plot _ s _ _ _ =>
    match s.asVariable? with
    | some _ => .ok ()
    | none => .error (.slotInvalid s.text)
  | e => .error (.unknownOperator (match e.operator? with | some op => op.symbol | none => e.text))

end Expr
end ArithTree
