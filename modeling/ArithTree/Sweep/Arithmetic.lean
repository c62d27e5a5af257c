import ArithTree.Double.Rounding

/-!
# ArithTree.Sweep.Arithmetic

The arithmetic of a sweep. The points of a sweep are computed in doubles; the same definitions read
over the rationals say what the points would be without rounding.
-/

namespace ArithTree
namespace Sweep

/-- Numbers on which a sweep can be carried out. -/
class Arithmetic (α : Type) where
  add : α → α → α
  sub : α → α → α
  mul : α → α → α
  div : α → α → α
  abs : α → α
  le : α → α → Bool
  same : α → α → Bool
  /-- The number nearest to an integer. -/
  ofInt : Int → α
  /-- The greatest integer not above a finite number. -/
  floor? : α → Option Int
  /-- The relative distance at which a grid point still counts as the upper bound. -/
  slack : α

instance : Arithmetic Float where
  add x y := x + y
  sub x y := x - y
  mul x y := x * y
  div x y := x / y
  abs x := x.abs
  le x y := x <= y
  same x y := x == y
  ofInt i := Double.ofInt i
  floor? x := Double.floor? x
  slack := Double.ofRatio false 8 (1 <<< 52)

instance : Arithmetic Rat where
  add x y := x + y
  sub x y := x - y
  mul x y := x * y
  div x y := x / y
  abs x := if x < 0 then -x else x
  le x y := decide (x ≤ y)
  same x y := decide (x = y)
  ofInt i := i
  floor? x := some x.floor
  slack := mkRat 8 (1 <<< 52)

end Sweep
end ArithTree
