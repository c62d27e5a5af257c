import ArithTree.Decimal.Layout
import ArithTree.Text.Quoted

/-!
# ArithTree.Scalar

Plain values: what a dictionary holds besides trees, and what a caller may hand over where a tree
is expected. Numbers of different kinds are one value when they are numerically equal: `1`, `1.0`
and `true` are the same key. A NaN is equal to nothing.
-/

namespace ArithTree

inductive Scalar where
  | text (s : String)
  | integer (i : Int)
  | double (x : Float)
  | truth (b : Bool)
  | nothing
  deriving DecidableEq

namespace Scalar

/-- The value as an integer, if it is a whole number of any kind. -/
def whole? : Scalar → Option Int
  | .integer i => some i
  | .truth b => some (if b then 1 else 0)
  | .double x => Double.toInt? x
  | _ => none

/-- Numerical equality for numbers, equality of characters for texts. -/
def same : Scalar → Scalar → Bool
  | .text s, .text t => s == t
  | .nothing, .nothing => true
  | .double x, .double y => x == y
  | a, b =>
    match a.whole?, b.whole? with
    | some i, some j => i == j
    | _, _ => false

instance : BEq Scalar := ⟨same⟩

/-- The literal form: texts in quotes. -/
def written : Scalar → String
  | .text s => Text.quoted s
  | .integer i => toString i
  | .double x => Decimal.text x
  | .truth b => if b then "True" else "False"
  | .nothing => "None"

/-- The display form: texts as they are. -/
def shown : Scalar → String
  | .text s => s
  | s => s.written

def kind : Scalar → String
  | .text _ => "str"
  | .integer _ => "int"
  | .double _ => "float"
  | .truth _ => "bool"
  | .nothing => "NoneType"

end Scalar

/-- A number as a caller writes it: an integer of any size, or a double. -/
inductive Number where
  | integer (i : Int)
  | double (x : Float)
  deriving DecidableEq

/-- The nearest double; nothing for an integer that is too large. -/
def Number.toDouble? : Number → Option Float
  | .integer i => Double.ofInt? i
  | .double x => some x

end ArithTree
