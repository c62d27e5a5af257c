import ArithTree.Expr.Build
import ArithTree.Store.Dictionary

/-!
# ArithTree.Datum

What a dictionary holds as key or value: a plain value or a tree. A tree is equal to no plain value.
-/

namespace ArithTree

inductive Datum where
  | scalar (s : Scalar)
  | tree (e : Expr)
  deriving DecidableEq

namespace Datum

def same : Datum → Datum → Bool
  | .scalar s, .scalar t => s == t
  | .tree a, .tree b => a == b
  | _, _ => false

instance : BEq Datum := ⟨same⟩

def written : Datum → String
  | .scalar s => s.written
  | .tree e => e.written

def writtenDictionary (d : Dictionary Datum Datum) : String :=
  "ArrayDictionary(" ++
    ", ".intercalate (d.entries.map fun e => e.key.written ++ "=" ++ e.value.written) ++ ")"

end Datum

/-- What a caller may offer as an operator symbol. -/
inductive Offer where
  | datum (d : Datum)
  | list (items : List Offer)

namespace Offer

mutual

def written : Offer → String
  | .datum d => d.written
  | .list items => "[" ++ ", ".intercalate (writtenAll items) ++ "]"

def writtenAll : List Offer → List String
  | [] => []
  | o :: os => o.written :: writtenAll os

end

/-- The symbol that an offer names: a text names itself, anything else its literal form. -/
def symbol : Offer → String
  | .datum (.scalar s) => s.shown
  | o => o.written

/-- The operator that an offer names. Only a text can name one. -/
def resolve : Offer → Except Failure Operator
  | .datum (.scalar (.text s)) => Operator.resolve s
  | o => .error (.unknownOperator o.symbol)

end Offer
end ArithTree
