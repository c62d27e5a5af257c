import ArithTree.Expr.Text
import ArithTree.Sweep.Unbounded

/-!
# ArithTree.Failure

Everything that can go wrong with a tree, by cause. `message` words a failure; `isEvaluation` tells
the failures of evaluation, which a calculator reports in its log, from misuse of the library.
-/

namespace ArithTree

/-- What a node may be asked for. -/
inductive Attribute where
  | value
  | name
  | children
  deriving DecidableEq, Repr

def Attribute.phrase : Attribute → String
  | .value => "numeric value"
  | .name => "name"
  | .children => "children"

inductive Failure where
  | undefinedVariable (name : String)
  | unknownOperator (symbol : String)
  | arityMismatch (symbol : String) (expected : Nat) (actual : Int)
  | cyclicBinding (chain : List String)
  | rangeInvalid (low high : Float)
  | variableBound (name : String)
  | stepNotPositive (step : Float)
  | slotInvalid (text : String)
  | unbounded (why : Sweep.Unbounded Float)
  | noSuchName (name : String)
  | zeroStep
  | integerTooLarge
  | operandMissing
  | unknownMode (name : String)
  | lacks (label : String) (what : Attribute)
  | notEvaluable (v : Foreign)
  | notSimplifiable (v : Foreign)
  | notExpression (v : Foreign)
  /-- Something was asked of a value that only nodes can answer. -/
  | notNode (v : Foreign) (asked : String)
  deriving DecidableEq

namespace Failure

/-- The failures that evaluating a tree or carrying out a command may have. -/
def isEvaluation : Failure → Bool
  | .undefinedVariable _ | .unknownOperator _ | .arityMismatch .. | .cyclicBinding _
  | .rangeInvalid .. | .variableBound _ | .stepNotPositive _ | .slotInvalid _ | .unbounded _ => true
  | _ => false

def ofStop : Sweep.Stop Float → Failure
  | .zeroStep => .zeroStep
  | .unbounded why => .unbounded why

/-- `[low, high]`. -/
def interval (low high : Float) : String :=
  "[" ++ Decimal.text low ++ ", " ++ Decimal.text high ++ "]"

def unboundedMessage : Sweep.Unbounded Float → String
  | .openRange low high step =>
    "Sweep bounds must be finite, got " ++ interval low high ++ " step " ++ Decimal.text step
  | .coarse step low high =>
    "Step " ++ Decimal.text step ++ " is too small to cover " ++ interval low high
  | .tooMany needed limit =>
    "Sweep needs " ++ toString needed ++ " samples, limit is " ++ toString limit
  | .stalled step point =>
    "Step " ++ Decimal.text step ++ " does not advance past " ++ Decimal.text point
  | .exceeded limit _ => "Sweep exceeded " ++ toString limit ++ " samples"

def message : Failure → String
  | .undefinedVariable n => "Undefined variable: " ++ n
  | .unknownOperator s => "Unknown operation: " ++ s
  | .arityMismatch s expected actual =>
    "Operator " ++ String.ofList [Text.singleQuote] ++ s ++ String.ofList [Text.singleQuote] ++
      " takes " ++ toString expected ++ " operand(s), got " ++ toString actual
  | .cyclicBinding chain => "Cyclic variable binding: " ++ " -> ".intercalate chain
  | .rangeInvalid low high =>
    "Minimum " ++ Decimal.text low ++ " is greater than maximum " ++ Decimal.text high
  | .variableBound n => "Variable already defined: " ++ n
  | .stepNotPositive step => "Increment is zero or negative: " ++ Decimal.text step
  | .slotInvalid text => "Plot variable must be a variable name, got " ++ text
  | .unbounded why => unboundedMessage why
  | .noSuchName n => Text.quoted n
  | .zeroStep => "float division by zero"
  | .integerTooLarge => "int too large to convert to float"
  | .operandMissing => "list index out of range"
  | .unknownMode name => "Invalid sweep_mode: " ++ name
  | .lacks label what => label ++ " has no " ++ what.phrase
  | .notEvaluable v => "Cannot evaluate " ++ v.kind
  | .notSimplifiable v => "Cannot simplify " ++ v.kind
  | .notExpression v => "Cannot build a tree node from " ++ v.kind
  | .notNode v asked =>
    String.ofList [Text.singleQuote] ++ v.kind ++ String.ofList [Text.singleQuote] ++
      " object has no attribute " ++ String.ofList [Text.singleQuote] ++ asked ++ String.ofList [Text.singleQuote]

end Failure
end ArithTree
