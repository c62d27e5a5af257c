/-!
# ArithTree.Double.Binary

What the bits of a double say: an exact number `± m · 2 ^ e`, an infinity, or no number. All
questions about a double that need its exact value (is it whole, what is its floor, which decimal
is nearest) are asked of this view.
-/

namespace ArithTree
namespace Double

/-- The exact reading of a double. `finite s m e` stands for `m · 2 ^ e`, negated when `s`. -/
inductive Binary where
  | nan
  | infinite (negative : Bool)
  | finite (negative : Bool) (m : Nat) (e : Int)
  deriving DecidableEq, Repr

/-- One sign bit, eleven exponent bits, fifty-two fraction bits. -/
def Binary.ofFloat (x : Float) : Binary :=
  let bits : Nat := x.toBits.toNat
  let negative := decide (1 <<< 63 ≤ bits)
  let exponent : Nat := (bits >>> 52) % (1 <<< 11)
  let fraction : Nat := bits % (1 <<< 52)
  if exponent = 2047 then
    if fraction = 0 then .infinite negative else .nan
  else if exponent = 0 then .finite negative fraction (-1074)
  else .finite negative ((1 <<< 52) + fraction) ((exponent : Int) - 1075)

/-- The integer `± m`. -/
def signed (negative : Bool) (m : Nat) : Int :=
  if negative then -m else m

/-- The greatest integer that is at most `± m · 2 ^ e`. -/
def Binary.floorOf (negative : Bool) (m : Nat) (e : Int) : Int :=
  if 0 ≤ e then signed negative (m <<< e.toNat)
  else Int.fdiv (signed negative m) ((1 <<< (-e).toNat : Nat) : Int)

/-- The value of a finite whole double, and nothing for any other. -/
def Binary.toInt? : Binary → Option Int
  | .finite negative m e =>
    if 0 ≤ e then some (signed negative (m <<< e.toNat))
    else if m % (1 <<< (-e).toNat) = 0 then some (signed negative (m >>> (-e).toNat))
    else none
  | _ => none

/-- The floor of a finite double. -/
def Binary.floor? : Binary → Option Int
  | .finite negative m e => some (floorOf negative m e)
  | _ => none

def Binary.isFinite : Binary → Bool
  | .finite .. => true
  | _ => false

/-- Neither an infinity nor a NaN. -/
def isFinite (x : Float) : Bool := (Binary.ofFloat x).isFinite

/-- The integer that a whole double stands for. -/
def toInt? (x : Float) : Option Int := (Binary.ofFloat x).toInt?

/-- The greatest integer not above a finite double. -/
def floor? (x : Float) : Option Int := (Binary.ofFloat x).floor?

end Double
end ArithTree
