import ArithTree.Elementary.Trigonometric

/-!
# ArithTree.Elementary.Power

The power of two doubles, correctly rounded. Infinities, zeros, NaN and negative bases follow the
rules of IEEE 754; in particular a power with exponent zero or base one is one, whatever the other
operand.

A finite power is rational only if the base is a perfect power for the denominator of the exponent
(`rationalPower`); such a power is rounded from its exact value. Any other is irrational, so it is
never halfway between two doubles, and `exp (y · ln x)` to enough bits decides.
-/

namespace ArithTree
namespace Elementary

/-- The integer part of the square root of a number below `2 ^ 64`. -/
def squareRoot (n : Nat) : Nat :=
  (List.range 32).foldr (fun b r => if (r + (1 <<< b)) * (r + (1 <<< b)) ≤ n then r + (1 <<< b) else r) 0

/-- `m · 2 ^ e` with the factors of two of `m` moved to the exponent. -/
def oddPart : Nat → Nat → Int → Nat × Int
  | 0, m, e => (m, e)
  | fuel + 1, m, e => if m ≠ 0 ∧ m % 2 = 0 then oddPart fuel (m / 2) (e + 1) else (m, e)

/-- For odd `m` and `n`: takes square roots of `m · 2 ^ e`, one for each factor of two in the
denominator of the exponent `n · 2 ^ f`, as long as they are exact. -/
def exactRoots (n : Nat) : Nat → Nat → Int → Int → Option (Nat × Int × Nat)
  | 0, _, _, _ => none
  | fuel + 1, m, e, f =>
    if 0 ≤ f then some (m, e, n <<< f.toNat)
    else
      let r := squareRoot m
      if r * r = m ∧ e % 2 = 0 then exactRoots n fuel r (e / 2) (f + 1) else none

/-- `(m · 2 ^ e) ^ ± k`, rounded from its exact value. -/
def integerPower (m : Nat) (e : Int) (inverse : Bool) (k : Nat) : Float :=
  if inverse then
    let (n, d) := Double.scaleTwo 1 (Nat.pow m k) (-(e * k))
    Double.ofRatio false n d
  else
    let (n, d) := Double.scaleTwo (Nat.pow m k) 1 (e * k)
    Double.ofRatio false n d

/-- The result of a power too large to represent, or too small. -/
def beyond (small : Bool) : Float := if small then 0 else 1 / 0

/-- The powers with an exact value that is short or a power of two. For a base with an odd factor
above one, an exponent above sixty-four gives too many digits to be a double or halfway. -/
def rationalPower (m : Nat) (e : Int) (inverse : Bool) (n : Nat) (f : Int) : Option Float :=
  match exactRoots n 64 m e f with
  | none => none
  | some (m, e, k) =>
    if m = 1 then
      if e = 0 then some 1
      else if 4096 < e.natAbs * k then some (beyond (decide (e < 0) != inverse))
      else some (integerPower m e inverse k)
    else if k ≤ 64 then some (integerPower m e inverse k)
    else none

/-- The natural logarithm of `m · 2 ^ e` at precision `p`. -/
def logAt (p m : Nat) (e : Int) : Int :=
  let size := Nat.log2 m
  let nearest := if 2 * m < 3 <<< size then size else size + 1
  let z := Int.fdiv (((m : Int) - one nearest) * one p) ((m : Int) + one nearest)
  2 * artanh p z + (e + nearest) * ln2 p

/-- `exp t` as an integer and an exponent of two, for `t` at precision `p`. -/
def expAt (p : Nat) (t : Int) : Int × Int :=
  let unit := ln2 p
  let k := Int.fdiv t unit
  (expSeries p (t - k * unit) p (one p) 1, k - p)

/-- `exp (± n · 2 ^ f · ln (m · 2 ^ e))`. Exponents of magnitude `2 ^ 66` and above lead out of
range, and below `2 ^ (-66)` to one. -/
def realPower (m : Nat) (e : Int) (inverse : Bool) (n : Nat) (f : Int) : Float :=
  let size := (Nat.log2 n : Int) + f
  let logarithm (p : Nat) : Int := if inverse then -logAt p m e else logAt p m e
  if 66 ≤ size then beyond (decide (logarithm firstPrecision < 0))
  else if size < -66 then 1
  else
    let product (p : Nat) : Int := shift (logarithm (p + 96) * n) (f - 96)
    let whole := shift (product firstPrecision) (-(firstPrecision : Int))
    if 800 < whole then beyond false
    else if whole < -800 then beyond true
    else settle (fun p => expAt p (product p)) retries firstPrecision

/-- The power of a positive base other than one to a finite exponent other than zero. -/
def positivePower (m : Nat) (e : Int) (inverse : Bool) (n : Nat) (f : Int) : Float :=
  let (m, e) := oddPart 64 m e
  let (n, f) := oddPart 64 n f
  match rationalPower m e inverse n f with
  | some z => z
  | none => realPower m e inverse n f

/-- The power of a magnitude that is zero or infinite: `vanishing` tells which, and a negative
exponent exchanges them. -/
def extremePower (vanishing inverse : Bool) : Float := beyond (vanishing != inverse)

/-- Gives a result the sign of a negative base raised to an odd exponent. -/
def withSign (negative : Bool) (z : Float) : Float := if negative then -z else z

def pow (x y : Float) : Float :=
  if y == 0 then 1
  else if x == 1 then 1
  else
    let odd := match Double.toInt? y with
      | some i => i % 2 == 1
      | none => false
    match Double.Binary.ofFloat x, Double.Binary.ofFloat y with
    | .nan, _ => undefined
    | _, .nan => undefined
    | .infinite negative, .infinite inverse => withSign (negative && odd) (extremePower false inverse)
    | .infinite negative, .finite inverse _ _ =>
      withSign (negative && odd) (extremePower false inverse)
    | .finite _ m e, .infinite inverse =>
      if m = 0 then extremePower true inverse
      else
        let (n, d) := Double.scaleTwo m 1 e
        if n = d then 1 else extremePower (decide (n < d)) inverse
    | .finite negative m e, .finite inverse n f =>
      if m = 0 then withSign (negative && odd) (extremePower true inverse)
      else if negative && (Double.toInt? y).isNone then undefined
      else withSign (negative && odd) (positivePower m e inverse n f)

end Elementary
end ArithTree
