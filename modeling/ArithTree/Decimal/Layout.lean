import ArithTree.Decimal.Digits

/-!
# ArithTree.Decimal.Layout

How a double is written. A `Layout` says which decimal exponents are written positionally, what
follows a whole number, and how a power of ten is written. `plain` is the layout of full texts,
`general` that of reports, and the others are those of symbolic expressions.
-/

namespace ArithTree
namespace Decimal

/-- The decisions of a number format. The exponent meant is that of the leading digit. -/
structure Layout where
  /-- Least exponent written positionally. -/
  low : Int
  /-- First exponent above the positional ones. -/
  high : Int
  /-- What ends a whole number written positionally. -/
  whole : String
  /-- What ends a one-digit significand before a power of ten. -/
  wholeScaled : String
  power : Int → String

/-- The sign and the digits of an exponent, at least `width` of them. -/
def exponentText (width : Nat) (e : Int) : String :=
  let ds := toString e.natAbs
  (if e < 0 then "-" else "+") ++ "".pushn '0' (width - ds.length) ++ ds

/-- A double in full: `1.0`, `0.0001`, `1e+16`, `1.5e-05`. -/
def Layout.plain : Layout :=
  ⟨-4, 16, ".0", "", fun e => "e" ++ exponentText 2 e⟩

/-- A short form for reports: `1`, `0.5`, `1e+06`. -/
def Layout.general : Layout :=
  ⟨-4, 6, "", "", fun e => "e" ++ exponentText 2 e⟩

/-- A symbolic number in text, with as many digits as are given: `0.500000000000000`. -/
def Layout.symbolic : Layout :=
  ⟨-4, 15, ".", ".", fun e => "e" ++ exponentText 1 e⟩

/-- A symbolic number inside a larger expression: `0.5`. -/
def Layout.symbolicShort : Layout :=
  ⟨-4, 15, ".0", ".0", fun e => "e" ++ exponentText 1 e⟩

/-- A symbolic number in typeset form. -/
def Layout.typeset : Layout :=
  ⟨-4, 15, ".0", ".0", fun e => " \\cdot 10^\x7b" ++ toString e ++ "\x7d"⟩

/-- Digits `ds`, the first of which stands at exponent `e`. -/
def Layout.place (l : Layout) (ds : List Char) (e : Int) : String :=
  if l.low ≤ e ∧ e < l.high then
    if e < 0 then "0." ++ "".pushn '0' ((-e).toNat - 1) ++ String.ofList ds
    else
      let n := e.toNat + 1
      if ds.length ≤ n then String.ofList ds ++ "".pushn '0' (n - ds.length) ++ l.whole
      else String.ofList (ds.take n) ++ "." ++ String.ofList (ds.drop n)
  else
    match ds with
    | [d] => String.ofList [d] ++ l.wholeScaled ++ l.power e
    | _ => String.ofList (ds.take 1) ++ "." ++ String.ofList (ds.drop 1) ++ l.power e

/-- Writes `digits · 10 ^ exponent`. -/
def Layout.write (l : Layout) (d : Digits) : String :=
  let ds := (toString d.digits).toList
  l.place ds (d.exponent + ds.length - 1)

/-- Writes a double whose finite non-zero magnitudes get their digits from `digits`. -/
def Layout.float (l : Layout) (digits : Nat → Int → Digits) (x : Float) : String :=
  match Double.Binary.ofFloat x with
  | .nan => "nan"
  | .infinite negative => if negative then "-inf" else "inf"
  | .finite negative m e =>
    (if negative then "-" else "") ++ l.write (if m = 0 then ⟨0, 0⟩ else digits m e)

/-- The value `m · 2 ^ e` rounded to `count` significant digits. -/
def rounded (t : Tie) (count : Nat) (m : Nat) (e : Int) : Digits :=
  let (n, d) := Double.scaleTwo m 1 e
  significant t count n d

/-- A double written with the fewest digits that read back. -/
def text (x : Float) : String := Layout.plain.float shortest x

/-- A double to six significant digits, trailing zeros dropped. -/
def brief (x : Float) : String :=
  Layout.general.float (fun m e => (rounded .even 6 m e).trim) x

/-- A whole double as an integer, any other in full. The sign of zero is lost. -/
def number (x : Float) : String :=
  match Double.toInt? x with
  | some i => toString i
  | none => text x

end Decimal
end ArithTree
