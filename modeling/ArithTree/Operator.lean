import ArithTree.Elementary.Series
import ArithTree.Numerics

/-!
# ArithTree.Operator

The eleven operators. Five binary and three unary ones compute on doubles; the two requests and the
plot are commands, which a calculator carries out and which have no numeric value.

* `ofSymbol?_symbol`: every operator is found again by its symbol.
-/

namespace ArithTree

inductive BinaryOp where
  | add
  | sub
  | mul
  | div
  | pow
  deriving DecidableEq, Repr

inductive UnaryOp where
  | negate
  | sin
  | cos
  deriving DecidableEq, Repr

/-- The commands that ask something about one expression. -/
inductive Request where
  | toDouble
  | simplify
  deriving DecidableEq, Repr

inductive Operator where
  | binary (op : BinaryOp)
  | unary (op : UnaryOp)
  | plot
  | request (r : Request)
  deriving DecidableEq, Repr

def BinaryOp.symbol : BinaryOp → String
  | .add => "+"
  | .sub => "-"
  | .mul => "*"
  | .div => "/"
  | .pow => "^"

def UnaryOp.symbol : UnaryOp → String
  | .negate => "negate"
  | .sin => "sin"
  | .cos => "cos"

def Request.symbol : Request → String
  | .toDouble => "toDouble"
  | .simplify => "simplify"

/-- IEEE double arithmetic: nothing fails, a division by zero gives an infinity or NaN. -/
def BinaryOp.apply [Numerics] : BinaryOp → Float → Float → Float
  | .add, x, y => x + y
  | .sub, x, y => x - y
  | .mul, x, y => x * y
  | .div, x, y => x / y
  | .pow, x, y => Numerics.pow x y

def UnaryOp.apply [Numerics] : UnaryOp → Float → Float
  | .negate, x => -x
  | .sin, x => Numerics.sin x
  | .cos, x => Numerics.cos x

/-- Only sums, differences and products of numbers are folded by simplification. -/
def BinaryOp.foldable : BinaryOp → Bool
  | .add | .sub | .mul => true
  | .div | .pow => false

namespace Operator

/-- All operators, in the order of their numbers. -/
def all : List Operator :=
  [.binary .add, .binary .sub, .binary .mul, .binary .div, .binary .pow,
    .unary .negate, .unary .sin, .unary .cos, .plot, .request .toDouble, .request .simplify]

def symbol : Operator → String
  | .binary op => op.symbol
  | .unary op => op.symbol
  | .plot => "plot"
  | .request r => r.symbol

def arity : Operator → Nat
  | .binary _ => 2
  | .unary _ => 1
  | .plot => 5
  | .request _ => 1

def isArithmetic : Operator → Bool
  | .binary _ | .unary _ => true
  | .plot | .request _ => false

def foldable : Operator → Bool
  | .binary op => op.foldable
  | _ => false

def name : Operator → String
  | .binary .add => "ADD"
  | .binary .sub => "SUB"
  | .binary .mul => "MUL"
  | .binary .div => "DIV"
  | .binary .pow => "POW"
  | .unary .negate => "NEGATE"
  | .unary .sin => "SIN"
  | .unary .cos => "COS"
  | .plot => "PLOT"
  | .request .toDouble => "TO_DOUBLE"
  | .request .simplify => "SIMPLIFY"

def number (op : Operator) : Nat := all.idxOf op

def ofSymbol? (s : String) : Option Operator := all.find? fun op => op.symbol == s

theorem ofSymbol?_symbol (op : Operator) : ofSymbol? op.symbol = some op := by
  rcases op with op | op | _ | op
  · cases op <;> decide
  · cases op <;> decide
  · decide
  · cases op <;> decide

/-- The two-place function of an operator; operators of another kind have none, which shows as
NaN. -/
def onPair [Numerics] (op : Operator) (x y : Float) : Float :=
  match op with
  | .binary op => op.apply x y
  | _ => Elementary.undefined

/-- The one-place function of an operator. -/
def onOne [Numerics] (op : Operator) (x : Float) : Float :=
  match op with
  | .unary op => op.apply x
  | _ => Elementary.undefined

end Operator
end ArithTree
