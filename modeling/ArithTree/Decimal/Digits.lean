import ArithTree.Double.Rounding

/-!
# ArithTree.Decimal.Digits

Decimal digits of an exact positive ratio: rounded to a given count, or the fewest that a reader
needs to find the same double again.

A decimal is held as `digits · 10 ^ exponent` (`Digits`). The shortest digits are searched on the
grids of one to seventeen digits: on each grid only the two neighbours of the value can lie in the
interval of numbers that round to it, and the first grid with a hit wins.
-/

namespace ArithTree
namespace Decimal

/-- The number `digits · 10 ^ exponent`. -/
structure Digits where
  digits : Nat
  exponent : Int
  deriving DecidableEq, Repr

/-- `n · 10 ^ k / d` as a pair of naturals. -/
def scaleTen (n d : Nat) (k : Int) : Nat × Nat :=
  if 0 ≤ k then (n * Nat.pow 10 k.toNat, d) else (n, d * Nat.pow 10 (-k).toNat)

/-- Is `10 ^ k` at most `n / d`? -/
def powerLe (k : Int) (n d : Nat) : Bool :=
  let (a, b) := scaleTen n d (-k)
  decide (b ≤ a)

/-- Exponent of the leading decimal digit of `n / d`. The binary lengths place it within three
steps. -/
def leadingExponent (n d : Nat) : Int :=
  let low := Int.fdiv (((Nat.log2 n : Int) - Nat.log2 d - 1) * 30103) 100000 - 1
  if powerLe (low + 3) n d then low + 3
  else if powerLe (low + 2) n d then low + 2
  else if powerLe (low + 1) n d then low + 1
  else low

/-- Drops trailing zeros, at most `fuel` of them. -/
def dropZeros : Nat → Digits → Digits
  | 0, d => d
  | fuel + 1, d =>
    if d.digits ≠ 0 ∧ d.digits % 10 = 0 then dropZeros fuel ⟨d.digits / 10, d.exponent + 1⟩ else d

/-- The same number with no trailing zero in its digits. -/
def Digits.trim (d : Digits) : Digits := dropZeros (Nat.log2 d.digits + 1) d

/-- How a tie between two decimals is settled. -/
inductive Tie where
  | even
  | up
  deriving DecidableEq, Repr

/-- The integer nearest to `n / d`. -/
def Tie.round (t : Tie) (n d : Nat) : Nat :=
  match t with
  | .even => Double.roundDiv n d
  | .up => (2 * n + d) / (2 * d)

/-- `n / d` rounded to `count` significant digits. A value that rounds up to the next power of ten
keeps its count. -/
def significant (t : Tie) (count n d : Nat) : Digits :=
  let k := leadingExponent n d - count + 1
  let (a, b) := scaleTen n d (-k)
  let q := t.round a b
  if q = Nat.pow 10 count then ⟨q / 10, k + 1⟩ else ⟨q, k⟩

/-- The interval of numbers that round to a double, as numerators over a common denominator. -/
structure Interval where
  low : Nat
  value : Nat
  high : Nat
  denominator : Nat
  closed : Bool

/-- Numbers that round to `m · 2 ^ e`: half a unit to either side, a quarter below a power of two,
where the unit below is half as large. The ends belong to the interval when `m` is even. -/
def Interval.around (m : Nat) (e : Int) : Interval :=
  let below := if m = 1 <<< 52 ∧ -1074 < e then 1 else 2
  let (unit, den) := Double.scaleTwo 1 4 e
  { low := (4 * m - below) * unit
    value := 4 * m * unit
    high := (4 * m + 2) * unit
    denominator := den
    closed := m % 2 == 0 }

/-- Is `c · 10 ^ k` in the interval? -/
def Interval.holds (i : Interval) (c : Nat) (k : Int) : Bool :=
  let (a, b) := scaleTen (c * i.denominator) 1 k
  if i.closed then decide (i.low * b ≤ a ∧ a ≤ i.high * b)
  else decide (i.low * b < a ∧ a < i.high * b)

/-- The point of the grid `10 ^ k` that lies in the interval, the nearer one if both neighbours of
the value do. -/
def Interval.onGrid (i : Interval) (k : Int) : Option Digits :=
  let (a, b) := scaleTen i.value i.denominator (-k)
  let c := a / b
  let nearer := Double.roundDiv a b
  let other := if nearer = c then c + 1 else c
  if i.holds nearer k then some ⟨nearer, k⟩
  else if i.holds other k then some ⟨other, k⟩
  else none

/-- The fewest digits that read back as the double `m · 2 ^ e`, nearest to it among those. -/
def shortest (m : Nat) (e : Int) : Digits :=
  let i := Interval.around m e
  let lead := leadingExponent i.value i.denominator
  let found := (List.range 17).findSome? fun (count : Nat) => i.onGrid (lead - count)
  (found.getD ⟨i.value / i.denominator, 0⟩).trim

end Decimal
end ArithTree
