import ArithTree.Double.Rounding

/-!
# ArithTree.Elementary.Series

Power series in fixed point. An integer `i` at precision `p` stands for `i / 2 ^ p`; every function
here truncates once or twice per term, so its error is below `4 p` units in the last place.

`settle` turns such approximations into a correctly rounded double: it rounds both ends of the error
interval, and doubles the precision until they agree.
-/

namespace ArithTree
namespace Elementary

/-- The number one at precision `p`. -/
def one (p : Nat) : Int := ((1 <<< p : Nat) : Int)

/-- `⌊i · 2 ^ k⌋`. -/
def shift (i k : Int) : Int :=
  if 0 ≤ k then i * one k.toNat else Int.fdiv i (one (-k).toNat)

/-- Product at precision `p`, cut off toward zero so that the terms of a series do vanish. -/
def mulAt (p : Nat) (a b : Int) : Int := Int.tdiv (a * b) (one p)

/-- `t / j + t q / (j + 2) + t q² / (j + 4) + …`, until a term vanishes. -/
def oddSeries (p : Nat) (q : Int) : Nat → Int → Nat → Int
  | 0, _, _ => 0
  | fuel + 1, t, j =>
    if t = 0 then 0 else Int.tdiv t j + oddSeries p q fuel (mulAt p t q) (j + 2)

/-- `t + t q / ((j + 1) (j + 2)) + …`, the series of sine, cosine with `q` negated. -/
def factorialSeries (p : Nat) (q : Int) : Nat → Int → Nat → Int
  | 0, _, _ => 0
  | fuel + 1, t, j =>
    if t = 0 then 0
    else t + factorialSeries p q fuel (Int.tdiv (mulAt p t q) ((j + 1) * (j + 2) : Nat)) (j + 2)

/-- `t + t x / j + t x² / (j (j + 1)) + …`, the series of the exponential. -/
def expSeries (p : Nat) (x : Int) : Nat → Int → Nat → Int
  | 0, _, _ => 0
  | fuel + 1, t, j =>
    if t = 0 then 0 else t + expSeries p x fuel (Int.tdiv (mulAt p t x) j) (j + 1)

/-- The inverse tangent of `1 / k`. -/
def arctanInv (p k : Nat) : Int :=
  let t := one p / k
  oddSeries p (-(one p / (k * k))) p t 1

/-- The inverse hyperbolic tangent of `z`. -/
def artanh (p : Nat) (z : Int) : Int := oddSeries p (mulAt p z z) p z 1

/-- The number π, from `π / 4 = 4 arctan (1 / 5) - arctan (1 / 239)`. -/
def pi (p : Nat) : Int :=
  let g := p + 16
  shift (16 * arctanInv g 5 - 4 * arctanInv g 239) (-16)

/-- The natural logarithm of two, which is `2 artanh (1 / 3)`. -/
def ln2 (p : Nat) : Int :=
  let g := p + 16
  shift (2 * artanh g (one g / 3)) (-16)

/-- The double nearest to `i · 2 ^ e`. -/
def round (i e : Int) : Float :=
  let (n, d) := Double.scaleTwo i.natAbs 1 e
  Double.ofRatio (decide (i < 0)) n d

/-- The double nearest to a quantity that `approx p = (i, e)` gives as `i · 2 ^ e`, to within
`2 ^ 24` units of `i`. The precision doubles until the error no longer matters. -/
def settle (approx : Nat → Int × Int) : Nat → Nat → Float
  | 0, p => let (i, e) := approx p; round i e
  | retries + 1, p =>
    let (i, e) := approx p
    let low := round (i - one 24) e
    let high := round (i + one 24) e
    if low.toBits = high.toBits then low else settle approx retries (2 * p)

/-- The result of an operation that has none. -/
def undefined : Float := Float.ofBits 0x7ff8000000000000

end Elementary
end ArithTree
