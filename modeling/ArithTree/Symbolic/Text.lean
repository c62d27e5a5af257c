import ArithTree.Decimal.Layout
import ArithTree.Symbolic.Basic

/-!
# ArithTree.Symbolic.Text

Symbolic expressions as text, in two styles: one line of characters, and typeset form. Both lay an
expression out in the same way: a sum as signed terms, a product as a fraction with a sign in front.
What differs is in the record `Style`.
-/

namespace ArithTree
namespace Symbolic

structure Style where
  /-- A positive double, alone or inside a larger expression. -/
  float : Bool → Float → String
  infinity : String
  complexInfinity : String
  nan : String
  /-- The minus sign before anything but a plain number. -/
  minus : String
  /-- What stands between factors. -/
  times : String
  /-- A fraction, from its factors above and below. -/
  quotient : String → List String → String
  power : String → String → String
  /-- Does the raised position set an exponent apart, so that it needs no parentheses? -/
  raisedExponents : Bool
  parens : String → String
  /-- A function, perhaps with an exponent, and its argument. -/
  call : String → Option String → String → String

/-- An expression laid out for use in a larger one. -/
structure Layout where
  negative : Bool
  /-- Is it a number without a fraction bar? -/
  plain : Bool := false
  /-- The text without the sign. -/
  unsigned : String
  /-- How tightly the text binds: sums 35, products 50, powers 60, all else 1000. -/
  level : Nat
  /-- The factors above and below the fraction bar. -/
  above : List String
  below : List String := []
  /-- The terms: sign and text without it. -/
  terms : List (Bool × Bool × String)
  /-- The name and argument of a function. -/
  call? : Option (String × String) := none

namespace Style

def sign (style : Style) (plain : Bool) : String := if plain then "-" else style.minus

def whole (style : Style) (l : Layout) : String :=
  (if l.negative then style.sign l.plain else "") ++ l.unsigned

/-- The text in parentheses, unless it binds more tightly than `level`. -/
def tight (style : Style) (level : Nat) (l : Layout) : String :=
  if l.level ≤ level then style.parens (style.whole l) else style.whole l

/-- A layout that is a single factor and a single term. -/
def single (negative plain : Bool) (text : String) (level : Nat) : Layout :=
  { negative := negative
    plain := plain
    unsigned := text
    level := if negative then 35 else level
    above := [text]
    terms := [(negative, plain, text)] }

def fraction (style : Style) (above below : List String) : String :=
  let top := if above.isEmpty then "1" else style.times.intercalate above
  if below.isEmpty then top else style.quotient top below

def ratio (style : Style) (q : Rat) : Layout :=
  let p := toString q.num.natAbs
  let negative := decide (q < 0)
  if q.den = 1 then
    { single negative true p 1000 with above := if q.num.natAbs = 1 then [] else [p] }
  else
    let below := [toString q.den]
    { single negative false (style.fraction [p] below) 50 with
      above := if q.num.natAbs = 1 then [] else [p]
      below := below }

def amount (style : Style) (inner : Bool) : Amount → Layout
  | .ratio q => style.ratio q
  | .float x => single (decide (x < 0)) true (style.float inner x.abs) 1000
  | .infinity negative => single negative true style.infinity 1000
  | .complexInfinity => single false true style.complexInfinity 1000
  | .nan => single false true style.nan 1000

def function (style : Style) (name : String) (argument : Layout) : Layout :=
  let a := style.whole argument
  { single false false (style.call name none a) 1000 with call? := some (name, a) }

def raised (style : Style) (base : Layout) (exponent : String) : String :=
  match base.call? with
  | some (name, a) => style.call name (some exponent) a
  | none => style.power (style.tight 60 base) exponent

/-- A power. In a product, one with a negative number for exponent stands below the fraction
bar. -/
def powered (style : Style) (base : Layout) (exponent : Sym) (e : Layout) : Layout :=
  let inLine :=
    style.raised base (if style.raisedExponents then style.whole e else style.tight 60 e)
  match exponent with
  | .number (.ratio q) =>
    if q < 0 then
      let factor := if q = -1 then style.tight 60 base else style.raised base e.unsigned
      let alone :=
        if q = -1 || style.raisedExponents then style.fraction [] [factor] else inLine
      { single false false alone 60 with above := [], below := [factor] }
    else single false false inLine 60
  | _ => single false false inLine 60

def parts (style : Style) (l : Layout) : List String × List String :=
  if l.level = 35 && !l.negative then ([style.parens (style.whole l)], []) else (l.above, l.below)

def product (style : Style) (f r : Layout) : Layout :=
  let (above, below) := style.parts f
  let (above', below') := style.parts r
  let text := style.fraction (above ++ above') (below ++ below')
  { single f.negative false text 50 with
    above := above ++ above'
    below := below ++ below' }

def joined (style : Style) : List (Bool × Bool × String) → String
  | [] => ""
  | (negative, plain, text) :: ts =>
    (if negative then style.sign plain else "") ++ text ++
      String.join (ts.map fun t => (if t.1 then " - " else " + ") ++ t.2.2)

/-- Does a sum of two terms start with its second? A positive number goes before a negative
multiple. -/
def swapped : Sym → Sym → Bool
  | .times (.number _) (.times ..), _ => false
  | .times (.number a) _, .number b => a.isNegative && b.isPositive
  | _, _ => false

def sum (style : Style) (swap : Bool) (t r : Layout) : Layout :=
  let terms := if swap then r.terms ++ t.terms else t.terms ++ r.terms
  { single false false (style.joined terms) 35 with terms := terms }

/-- Lays out an expression; `inner` tells whether it is part of a larger one. -/
def layout (style : Style) (inner : Bool) : Sym → Layout
  | .number a => style.amount inner a
  | .symbol n => single false false n 1000
  | .sine e => style.function "sin" (style.layout true e)
  | .cosine e => style.function "cos" (style.layout true e)
  | .power b e => style.powered (style.layout true b) e (style.layout true e)
  | .times f r => style.product (style.layout true f) (style.layout true r)
  | .plus t r => style.sum (swapped t r) (style.layout true t) (style.layout true r)

def render (style : Style) (e : Sym) : String := style.whole (style.layout false e)

end Style

/-- The fifteen digits that a double is written with. -/
def digits (m : Nat) (e : Int) : Decimal.Digits := Decimal.rounded .up 15 m e

/-- One line of characters. A double alone keeps all its digits. -/
def inlineStyle : Style where
  float inner x :=
    if inner then Decimal.Layout.symbolicShort.float (fun m e => (digits m e).trim) x
    else Decimal.Layout.symbolic.float digits x
  infinity := "oo"
  complexInfinity := "zoo"
  nan := "nan"
  minus := "-"
  times := "*"
  quotient top below :=
    match below with
    | [u] => top ++ "/" ++ u
    | us => top ++ "/(" ++ "*".intercalate us ++ ")"
  power b e := b ++ "**" ++ e
  raisedExponents := false
  parens s := "(" ++ s ++ ")"
  call name exponent a :=
    match exponent with
    | none => name ++ "(" ++ a ++ ")"
    | some e => name ++ "(" ++ a ++ ")**" ++ e

def braced (s : String) : String := "\x7b" ++ s ++ "\x7d"

def typesetStyle : Style where
  float _ x := Decimal.Layout.typeset.float (fun m e => (digits m e).trim) x
  infinity := "\\infty"
  complexInfinity := "\\tilde" ++ braced "\\infty"
  nan := "\\text" ++ braced "NaN"
  minus := "- "
  times := " "
  quotient top below := "\\frac" ++ braced top ++ braced (" ".intercalate below)
  power b e := b ++ "^" ++ braced e
  raisedExponents := true
  parens s := "\\left(" ++ s ++ "\\right)"
  call name exponent a :=
    "\\" ++ name ++ (match exponent with | none => "" | some e => "^" ++ braced e) ++
      braced ("\\left(" ++ a ++ " \\right)")

def Sym.text (e : Sym) : String := inlineStyle.render e

def Sym.typeset (e : Sym) : String := typesetStyle.render e

end Symbolic
end ArithTree
