import ArithTree.Evaluate

/-!
# ArithTree.Simplify

One pass of simplification: bound variables are replaced by their trees, and sums, differences and
products of numbers are computed. The trees put in are not simplified themselves, and the other
operators keep their symbolic form even over numbers.

`simplifyBuilding` is the pass with every check on its way: a node is put together by the construction that checks its
parts, and with copying so are the nodes of the trees put in. `simplify` is the same pass on trees where no check can
fail.
-/

namespace ArithTree

variable [Numerics]

/-- An operator over two trees, computed if it is foldable and both are numbers. -/
def fold (op : BinaryOp) (a b : Expr) : Expr :=
  match a, b with
  | .num x, .num y => if op.foldable then .num (op.apply x y) else .binary op a b
  | a, b => .binary op a b

/-- Simplifies bottom-up, with `read` for the trees of bound names. -/
def simplifyWith (read : String → Option Expr) : Expr → Expr
  | .num x => .num x
  | .var n => (read n).getD (.var n)
  | .unary op a => .unary op (simplifyWith read a)
  | .binary op a b => fold op (simplifyWith read a) (simplifyWith read b)
  | .request r a => .request r (simplifyWith read a)
  | .plot e s l h t =>
    .plot (simplifyWith read e) (simplifyWith read s) (simplifyWith read l) (simplifyWith read h)
      (simplifyWith read t)
  | .foreign v => .foreign v

/-- One pass over a tree. With `copying` the trees put in are built anew. -/
def simplify (copying : Bool) (b : Bindings) (e : Expr) : Expr :=
  simplifyWith (fun n => if copying then (b.get? n).map Expr.copy else b.get? n) e

/-- One pass over a tree that may hold foreign values: the first of them is refused. -/
def simplifyChecked (copying : Bool) (b : Bindings) (e : Expr) : Except Failure Expr :=
  match e.foreign? with
  | some v => .error (.notSimplifiable v)
  | none => .ok (simplify copying b e)

/-- Are all operands numbers? They are asked in order, up to the first that is none. -/
def allNumbers : List Expr → Except Failure Bool
  | [] => .ok true
  | .num _ :: rest => allNumbers rest
  | .foreign v :: _ => .error (.notNode v "is_number")
  | _ :: _ => .ok false

/-- An operator over simplified operands, computed if it is foldable and they are all numbers. -/
def combine (op : Operator) (operands : List Expr) : Except Failure Expr :=
  if op.foldable then
    match allNumbers operands with
    | .error f => .error f
    | .ok false => Expr.build op operands
    | .ok true =>
      match Expr.collect (operands.map Expr.numericValue) with
      | .error f => .error f
      | .ok xs => (op.applyTo xs).map .num
  else Expr.build op operands

def combineFrom (op : Operator) (parts : List (Except Failure Expr)) : Except Failure Expr :=
  match Expr.collect parts with
  | .error f => .error f
  | .ok operands => combine op operands

/-- One pass, node by node: the operands are simplified in order, and the first failure is the result. -/
def simplifyBuilding (copying : Bool) (b : Bindings) : Expr → Except Failure Expr
  | .num x => .ok (.num x)
  | .var n =>
    match b.get? n with
    | some t => if copying then t.rebuild else .ok t
    | none => .ok (.var n)
  | .unary op a => combineFrom (.unary op) [simplifyBuilding copying b a]
  | .binary op a a' => combineFrom (.binary op) [simplifyBuilding copying b a, simplifyBuilding copying b a']
  | .request r a => combineFrom (.request r) [simplifyBuilding copying b a]
  | .plot e s l h t =>
    combineFrom .plot
      [simplifyBuilding copying b e, simplifyBuilding copying b s, simplifyBuilding copying b l,
        simplifyBuilding copying b h, simplifyBuilding copying b t]
  | .foreign v => .error (.notSimplifiable v)

end ArithTree
