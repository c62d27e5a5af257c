import ArithTree.Double.Binary

/-!
# ArithTree.Double.Rounding

Rounding an exact ratio to the nearest double. Ties go to the even neighbour; a ratio that rounds
to `2 ^ 1024` or beyond becomes an infinity.

* `roundDiv_mul_le`, `le_roundDiv_mul`: a rounded quotient is within half a unit of the ratio.
-/

namespace ArithTree
namespace Double

/-- The integer nearest to `n / d`; a tie goes to the even one. -/
def roundDiv (n d : Nat) : Nat :=
  let q := n / d
  let r := n % d
  if 2 * r < d then q
  else if d < 2 * r then q + 1
  else if q % 2 = 0 then q else q + 1

theorem roundDiv_mul_le (n d : Nat) : 2 * (roundDiv n d * d) ≤ 2 * n + d := by
  have hn : d * (n / d) + n % d = n := Nat.div_add_mod n d
  have hm : n / d * d = d * (n / d) := Nat.mul_comm _ _
  have hs : (n / d + 1) * d = d * (n / d) + d := by rw [Nat.add_mul, hm, Nat.one_mul]
  unfold roundDiv
  dsimp only
  split
  · omega
  · split
    · omega
    · split <;> omega

theorem le_roundDiv_mul (n : Nat) {d : Nat} (hd : 0 < d) : 2 * n ≤ 2 * (roundDiv n d * d) + d := by
  have hn : d * (n / d) + n % d = n := Nat.div_add_mod n d
  have hm : n / d * d = d * (n / d) := Nat.mul_comm _ _
  have hs : (n / d + 1) * d = d * (n / d) + d := by rw [Nat.add_mul, hm, Nat.one_mul]
  have hr := Nat.mod_lt n hd
  unfold roundDiv
  dsimp only
  split
  · omega
  · split
    · omega
    · split <;> omega

/-- `n · 2 ^ k / d` as a pair of naturals. -/
def scaleTwo (n d : Nat) (k : Int) : Nat × Nat :=
  if 0 ≤ k then (n <<< k.toNat, d) else (n, d <<< (-k).toNat)

/-- Exponent `e` of the grid `2 ^ e` on which doubles near `n / d` lie: fifty-three bits of
significand, but never finer than `2 ^ (-1074)`. -/
def gridExponent (n d : Nat) : Int :=
  let guess : Int := (Nat.log2 n : Int) - Nat.log2 d - 52
  let (a, b) := scaleTwo n d (-guess)
  let e := if a < b <<< 52 then guess - 1 else guess
  max e (-1074)

/-- The double nearest to `n / d`, negated when asked. The exponent field grows with the
significand, so a significand that rounds up to the next power of two needs no special case. -/
def ofRatio (negative : Bool) (n d : Nat) : Float :=
  let magnitude :=
    if n = 0 then 0
    else
      let e := gridExponent n d
      let (a, b) := scaleTwo n d (-e)
      min (((e + 1074).toNat <<< 52) + roundDiv a b) (2047 <<< 52)
  Float.ofBits (UInt64.ofNat (magnitude + if negative then 1 <<< 63 else 0))

/-- The double nearest to an integer; an infinity when the integer does not fit. -/
def ofInt (i : Int) : Float := ofRatio (decide (i < 0)) i.natAbs 1

/-- The double nearest to an integer, if the integer fits. -/
def ofInt? (i : Int) : Option Float :=
  let x := ofInt i
  if isFinite x then some x else none

end Double
end ArithTree
