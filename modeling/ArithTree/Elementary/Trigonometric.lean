import ArithTree.Elementary.Series

/-!
# ArithTree.Elementary.Trigonometric

Sine and cosine of a double, correctly rounded. The argument is reduced by the exact multiple of
`π / 2` nearest to it, with π to as many bits as the argument is long, so large arguments lose
nothing.
-/

namespace ArithTree
namespace Elementary

/-- The multiple of `π / 2` nearest to `m · 2 ^ e`, and what is left of the argument at precision
`p`. -/
def reduce (p m : Nat) (e : Int) : Int × Int :=
  let size := (Nat.log2 m + e + 1).toNat
  let q := p + size + 64
  let quarter := pi q
  let twice := shift m (e + q + 1)
  let k := Int.fdiv (2 * twice + quarter) (2 * quarter)
  (k, shift (twice - k * quarter) ((p : Int) - q - 1))

/-- `sin (r + k · π / 2)` at precision `p`. -/
def sineAt (p : Nat) (r k : Int) : Int :=
  let q := -mulAt p r r
  let sin := factorialSeries p q p r 1
  let cos := factorialSeries p q p (one p) 0
  match k % 4 with
  | 0 => sin
  | 1 => cos
  | 2 => -sin
  | _ => -cos

/-- Precision of the first attempt, and how often it may double. -/
def firstPrecision : Nat := 128
def retries : Nat := 6

/-- `sin (m · 2 ^ e + turn · π / 2)`. -/
def shiftedSine (turn : Int) (m : Nat) (e : Int) : Float :=
  settle (fun p => let (k, r) := reduce p m e; (sineAt p r (k + turn), -(p : Int)))
    retries firstPrecision

/-- Is `m · 2 ^ e` below `2 ^ (-27)`? There the sine rounds to its argument and the cosine to one. -/
def isTiny (m : Nat) (e : Int) : Bool := decide ((Nat.log2 m : Int) + e < -27)

def sin (x : Float) : Float :=
  match Double.Binary.ofFloat x with
  | .finite negative m e =>
    if m = 0 ∨ isTiny m e then x
    else
      let s := shiftedSine 0 m e
      if negative then -s else s
  | _ => undefined

def cos (x : Float) : Float :=
  match Double.Binary.ofFloat x with
  | .finite _ m e => if m = 0 ∨ isTiny m e then 1 else shiftedSine 1 m e
  | _ => undefined

end Elementary
end ArithTree
