import ArithTree.Operator
import ArithTree.Scalar

/-!
# ArithTree.Expr.Basic

Expression trees. Every operator takes its operands as separate fields, so a tree with the wrong
number of operands does not exist. A leaf `foreign` holds a value that is no expression, where a
caller put one in the place of a tree; it has no number and no variables.
-/

namespace ArithTree

/-- A value that is no expression. Of lists and records only the kind matters. -/
inductive Foreign where
  | scalar (s : Scalar)
  | list
  | record
  deriving DecidableEq

def Foreign.kind : Foreign → String
  | .scalar s => s.kind
  | .list => "list"
  | .record => "dict"

def Foreign.same : Foreign → Foreign → Bool
  | .scalar s, .scalar t => s == t
  | .list, .list => true
  | .record, .record => true
  | _, _ => false

inductive Expr where
  | num (value : Float)
  | var (name : String)
  | unary (op : UnaryOp) (operand : Expr)
  | binary (op : BinaryOp) (left right : Expr)
  | request (r : Request) (operand : Expr)
  | plot (expression slot low high step : Expr)
  | foreign (value : Foreign)
  deriving DecidableEq

namespace Expr

def size : Expr → Nat
  | .num _ | .var _ | .foreign _ => 1
  | .unary _ a => 1 + a.size
  | .binary _ a b => 1 + (a.size + b.size)
  | .request _ a => 1 + a.size
  | .plot e s l h t => 1 + (e.size + (s.size + (l.size + (h.size + t.size))))

def operands : Expr → List Expr
  | .num _ | .var _ | .foreign _ => []
  | .unary _ a => [a]
  | .binary _ a b => [a, b]
  | .request _ a => [a]
  | .plot e s l h t => [e, s, l, h, t]

def operator? : Expr → Option Operator
  | .num _ | .var _ | .foreign _ => none
  | .unary op _ => some (.unary op)
  | .binary op _ _ => some (.binary op)
  | .request r _ => some (.request r)
  | .plot .. => some .plot

/-- Structural equality. Numbers are compared as numbers, so `0.0` and `-0.0` are equal and a NaN
differs from itself. -/
def same : Expr → Expr → Bool
  | .num x, .num y => x == y
  | .var m, .var n => m == n
  | .unary op a, .unary op' a' => op == op' && same a a'
  | .binary op a b, .binary op' a' b' => op == op' && (same a a' && same b b')
  | .request r a, .request r' a' => r == r' && same a a'
  | .plot e s l h t, .plot e' s' l' h' t' =>
    same e e' && (same s s' && (same l l' && (same h h' && same t t')))
  | .foreign v, .foreign w => v.same w
  | _, _ => false

instance : BEq Expr := ⟨same⟩

/-- The same tree built anew, node by node. -/
def copy : Expr → Expr
  | .num x => .num x
  | .var n => .var n
  | .unary op a => .unary op a.copy
  | .binary op a b => .binary op a.copy b.copy
  | .request r a => .request r a.copy
  | .plot e s l h t => .plot e.copy s.copy l.copy h.copy t.copy
  | .foreign v => .foreign v

/-- The first foreign value, operands left to right. -/
def foreign? : Expr → Option Foreign
  | .num _ | .var _ => none
  | .foreign v => some v
  | .unary _ a => a.foreign?
  | .binary _ a b => a.foreign?.or b.foreign?
  | .request _ a => a.foreign?
  | .plot e s l h t =>
    e.foreign?.or (s.foreign?.or (l.foreign?.or (h.foreign?.or t.foreign?)))

def WellFormed (e : Expr) : Prop := e.foreign? = none

instance (e : Expr) : Decidable e.WellFormed :=
  inferInstanceAs (Decidable (e.foreign? = none))

inductive Kind where
  | number
  | variable
  | operation
  deriving DecidableEq, Repr

/-- The kind of a node; a foreign value has none. -/
def kind? : Expr → Option Kind
  | .num _ => some .number
  | .var _ => some .variable
  | .foreign _ => none
  | .unary .. | .binary .. | .request .. | .plot .. => some .operation

def Kind.name : Kind → String
  | .number => "NUMBER"
  | .variable => "VARIABLE"
  | .operation => "OPERATION"

/-- The name of a kind in messages. -/
def Kind.label : Kind → String
  | .number => "NumberNode"
  | .variable => "VariableNode"
  | .operation => "OperationNode"

/-- What messages call a node. -/
def label : Expr → String
  | .num _ => Kind.number.label
  | .var _ => Kind.variable.label
  | .foreign v => v.kind
  | .unary .. | .binary .. | .request .. | .plot .. => Kind.operation.label

def isNumber (e : Expr) : Bool := e.kind? == some .number
def isVariable (e : Expr) : Bool := e.kind? == some .variable
def isOperation (e : Expr) : Bool := e.kind? == some .operation

end Expr
end ArithTree
