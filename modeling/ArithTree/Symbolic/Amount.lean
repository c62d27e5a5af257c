import ArithTree.Elementary.Power

/-!
# ArithTree.Symbolic.Amount

The numbers of symbolic expressions: exact ratios, doubles where a tree has a number that is not
whole, the two infinities, the complex infinity that comes of dividing by zero, and a value without
meaning.
-/

namespace ArithTree
namespace Symbolic

inductive Amount where
  | ratio (q : Rat)
  | float (x : Float)
  | infinity (negative : Bool)
  | complexInfinity
  | nan
  deriving DecidableEq

namespace Amount

def ofInt (i : Int) : Amount := .ratio i

/-- The number that a double stands for: exact if it is whole. -/
def ofFloat (x : Float) : Amount :=
  match Double.toInt? x with
  | some i => ofInt i
  | none =>
    match Double.Binary.ofFloat x with
    | .nan => .nan
    | .infinite negative => .infinity negative
    | .finite .. => .float x

def isZero : Amount → Bool
  | .ratio q => decide (q = 0)
  | _ => false

def isOne : Amount → Bool
  | .ratio q => decide (q = 1)
  | _ => false

def isNegative : Amount → Bool
  | .ratio q => decide (q < 0)
  | .float x => x < 0
  | .infinity negative => negative
  | _ => false

def isPositive : Amount → Bool
  | .ratio q => decide (0 < q)
  | .float x => 0 < x
  | .infinity negative => !negative
  | _ => false

/-- The order of numbers, ratios first. -/
def before : Amount → Amount → Bool
  | .ratio p, .ratio q => decide (p < q)
  | .ratio _, _ => true
  | _, .ratio _ => false
  | .float x, .float y => decide (x.toBits < y.toBits)
  | .float _, _ => true
  | _, .float _ => false
  | .infinity s, .infinity t => !s && t
  | .infinity _, _ => true
  | _, .infinity _ => false
  | .complexInfinity, .nan => true
  | _, _ => false

def nearest (q : Rat) : Float := Double.ofRatio (decide (q < 0)) q.num.natAbs q.den

def add : Amount → Amount → Amount
  | .ratio p, .ratio q => .ratio (p + q)
  | .nan, _ | _, .nan => .nan
  | .complexInfinity, .complexInfinity | .complexInfinity, .infinity _
  | .infinity _, .complexInfinity => .nan
  | .complexInfinity, _ | _, .complexInfinity => .complexInfinity
  | .infinity s, .infinity t => if s = t then .infinity s else .nan
  | .infinity s, _ | _, .infinity s => .infinity s
  | .ratio p, .float y => .float (nearest p + y)
  | .float x, .ratio q => .float (x + nearest q)
  | .float x, .float y => .float (x + y)

/-- An infinity times a number: its sign decides, and zero has no meaning. -/
def scaleInfinity (negative : Bool) (a : Amount) : Amount :=
  if a.isPositive then .infinity negative
  else if a.isNegative then .infinity (!negative)
  else .nan

def mul : Amount → Amount → Amount
  | .ratio p, .ratio q => .ratio (p * q)
  | .nan, _ | _, .nan => .nan
  | .complexInfinity, a | a, .complexInfinity => if a.isZero then .nan else .complexInfinity
  | .infinity s, a | a, .infinity s => scaleInfinity s a
  | .ratio p, .float y => if p = 0 then .ratio 0 else .float (nearest p * y)
  | .float x, .ratio q => if q = 0 then .ratio 0 else .float (x * nearest q)
  | .float x, .float y => .float (x * y)

def powNat (a : Amount) : Nat → Amount
  | 0 => ofInt 1
  | n + 1 => mul (powNat a n) a

/-- One over a number. Zero has the complex infinity for it. -/
def inv : Amount → Amount
  | .ratio q => if q = 0 then .complexInfinity else .ratio q⁻¹
  | .float x => .float (1 / x)
  | .infinity _ => .ratio 0
  | .complexInfinity => .ratio 0
  | .nan => .nan

/-- A power with an integer exponent other than zero. For the infinities only its parity and sign
matter. -/
def powInt (a : Amount) (n : Int) : Amount :=
  match a with
  | .ratio q =>
    if 0 ≤ n then .ratio (q ^ n.toNat) else inv (.ratio (q ^ n.natAbs))
  | .float x => .float (Elementary.pow x (Double.ofInt n))
  | a =>
    let p := powNat a (if n % 2 = 0 then 2 else 1)
    if 0 ≤ n then p else inv p

def toFloat : Amount → Float
  | .ratio q => nearest q
  | .float x => x
  | .infinity negative => if negative then -1 / 0 else 1 / 0
  | .complexInfinity | .nan => Elementary.undefined

end Amount
end Symbolic
end ArithTree
