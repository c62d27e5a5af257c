import ArithTree.Symbolic.Amount

/-!
# ArithTree.Symbolic.Basic

Symbolic expressions in canonical form. A sum is a chain of terms and a product a chain of factors,
ended by the last of them; like terms and like factors are collected, numbers are computed, and the
chains are kept in order, so expressions that the collecting identifies are equal.

The operations `add`, `mul`, `pow`, `sin` and `cos` build canonical forms from canonical forms.
A sum is multiplied out only by a number.
-/

namespace ArithTree
namespace Symbolic

inductive Sym where
  | number (a : Amount)
  | symbol (name : String)
  | sine (e : Sym)
  | cosine (e : Sym)
  | power (base exponent : Sym)
  | times (factor rest : Sym)
  | plus (term rest : Sym)
  deriving DecidableEq

namespace Sym

def ofInt (i : Int) : Sym := .number (.ofInt i)

/-- What a pure number is a multiple of. -/
def one : Sym := ofInt 1

/-! ## Order -/

/-- Numbers come before symbols, symbols before functions, and sums last. -/
def rank : Sym → Nat
  | .number _ => 0
  | .symbol _ => 1
  | .cosine _ => 2
  | .sine _ => 3
  | .power .. => 4
  | .times .. => 5
  | .plus .. => 6

/-- The order of bases in a product: by kind, and expressions of one kind by their parts. -/
def before : Sym → Sym → Bool
  | .number a, .number a' => a.before a'
  | .symbol n, .symbol n' => decide (n < n')
  | .cosine e, .cosine e' => e.before e'
  | .sine e, .sine e' => e.before e'
  | .power b e, .power b' e' => if b = b' then e.before e' else b.before b'
  | .times f r, .times f' r' => if f = f' then r.before r' else f.before f'
  | .plus t r, .plus t' r' => if t = t' then r.before r' else t.before t'
  | e, e' => decide (e.rank < e'.rank)

/-- The exponent of a power that has a number for it, for ordering. -/
def degree : Sym → Rat
  | .number (.ratio q) => q
  | _ => 1

def asFactor : Sym → Sym × Sym
  | .power b e => (b, e)
  | e => (e, one)

/-- The factors of a product with no number in front. -/
def factors : Sym → List (Sym × Sym)
  | .times f r => f.asFactor :: r.factors
  | e => [e.asFactor]

/-- Lexicographic order of products: by the first base, then higher powers first, and a product
before its parts. -/
def precedes : List (Sym × Sym) → List (Sym × Sym) → Bool
  | [], _ => false
  | _ :: _, [] => true
  | (b, e) :: r, (b', e') :: r' =>
    if b = b' then
      if e = e' then precedes r r'
      else decide (e'.degree < e.degree) || (decide (e.degree = e'.degree) && e.before e')
    else b.before b'

/-! ## Sums -/

/-- A term as a number and the product that it multiplies; a pure number multiplies `one`. -/
def asTerm : Sym → Amount × Sym
  | .number a => (a, one)
  | .times (.number a) r => (a, r)
  | e => (.ofInt 1, e)

def ofTerm (a : Amount) (body : Sym) : Sym :=
  if body = one then .number a
  else if a.isOne then body
  else .times (.number a) body

def terms : Sym → List (Amount × Sym)
  | .plus t r => t.asTerm :: r.terms
  | e => [e.asTerm]

def ofTerms : List (Amount × Sym) → Sym
  | [] => ofInt 0
  | [(a, body)] => ofTerm a body
  | (a, body) :: t :: ts => .plus (ofTerm a body) (ofTerms (t :: ts))

/-- Does the first body come before the second in a sum? A pure number comes last. -/
def bodyPrecedes (body body' : Sym) : Bool :=
  if body = one then false
  else if body' = one then true
  else precedes body.factors body'.factors

/-- Adds a term to the terms of a sum; terms that cancel disappear. -/
def addTerm (a : Amount) (body : Sym) : List (Amount × Sym) → List (Amount × Sym)
  | [] => if a.isZero then [] else [(a, body)]
  | (a', body') :: ts =>
    if body = body' then
      if (a.add a').isZero then ts else (a.add a', body') :: ts
    else if bodyPrecedes body body' then
      if a.isZero then (a', body') :: ts else (a, body) :: (a', body') :: ts
    else (a', body') :: addTerm a body ts

def addTerms (ts us : List (Amount × Sym)) : List (Amount × Sym) :=
  us.foldl (fun ts u => addTerm u.1 u.2 ts) ts

/-- A sum of collected terms. One without meaning takes the others with it. -/
def ofCollected (ts : List (Amount × Sym)) : Sym :=
  if ts.any fun t => t.1 == .nan then .number .nan else ofTerms ts

def add (e e' : Sym) : Sym := ofCollected (addTerms (addTerms [] e.terms) e'.terms)

/-- A number times an expression, term by term. -/
def scale (a : Amount) (e : Sym) : Sym :=
  ofCollected (addTerms [] (e.terms.map fun t => (a.mul t.1, t.2)))

def neg (e : Sym) : Sym := scale (.ofInt (-1)) e

/-! ## Products -/

def ofFactor (base exponent : Sym) : Sym :=
  if exponent = one then base else .power base exponent

def ofFactors : List (Sym × Sym) → Sym
  | [] => one
  | [(b, e)] => ofFactor b e
  | (b, e) :: f :: fs => .times (ofFactor b e) (ofFactors (f :: fs))

/-- Adds a factor to the factors of a product; factors that cancel disappear. -/
def addFactor (base exponent : Sym) : List (Sym × Sym) → List (Sym × Sym)
  | [] => if exponent = ofInt 0 then [] else [(base, exponent)]
  | (b, e) :: fs =>
    if base = b then
      if exponent.add e = ofInt 0 then fs else (b, exponent.add e) :: fs
    else if base.before b then
      if exponent = ofInt 0 then (b, e) :: fs else (base, exponent) :: (b, e) :: fs
    else (b, e) :: addFactor base exponent fs

def addFactors (fs gs : List (Sym × Sym)) : List (Sym × Sym) :=
  gs.foldl (fun fs g => addFactor g.1 g.2 fs) fs

/-- A number times a product of factors. A single sum among them is multiplied out. -/
def ofProduct (a : Amount) (fs : List (Sym × Sym)) : Sym :=
  match ofFactors fs with
  | .plus t r => scale a (.plus t r)
  | .number b => .number (a.mul b)
  | body => if a.isZero then ofInt 0 else if a = .nan then .number a else ofTerm a body

def bodyFactors (body : Sym) : List (Sym × Sym) := if body = one then [] else body.factors

def mul (e e' : Sym) : Sym :=
  let (a, body) := e.asTerm
  let (a', body') := e'.asTerm
  ofProduct (a.mul a') (addFactors (addFactors [] (bodyFactors body)) (bodyFactors body'))

/-! ## Powers and functions -/

def integer? : Sym → Option Int
  | .number (.ratio q) => if q.den = 1 then some q.num else none
  | _ => none

/-- A power with an integer exponent other than zero and one: numbers are computed and the exponents
of a product are multiplied. -/
def powInt (e : Sym) (n : Int) : Sym :=
  match e with
  | .plus t r => .power (.plus t r) (ofInt n)
  | e =>
    let (a, body) := e.asTerm
    ofProduct (a.powInt n)
      (addFactors [] ((bodyFactors body).map fun f => (f.1, scale (.ofInt n) f.2)))

/-- An infinite power of a ratio: it grows without bound, vanishes, or has no meaning. -/
def powInfinite (q : Rat) (negative : Bool) : Amount :=
  if q = 1 ∨ q ≤ -1 then .nan
  else if q = 0 then if negative then .complexInfinity else .ofInt 0
  else if decide (1 < q) = negative then .ofInt 0
  else if 1 < q ∨ 0 < q then .infinity false
  else .complexInfinity

/-- A power of a number with an exponent that is no integer. -/
def powNumber (a : Amount) (exponent : Sym) : Sym :=
  match a, exponent with
  | _, .number .nan => .number .nan
  | .ratio q, .number (.infinity negative) => .number (powInfinite q negative)
  | .float x, .number (.ratio q) => .number (.float (Elementary.pow x (Amount.nearest q)))
  | a, .number (.float y) =>
    if a.isOne then one else .number (.float (Elementary.pow a.toFloat y))
  | a, exponent => if a.isOne then one else .power (.number a) exponent

def pow (base exponent : Sym) : Sym :=
  match exponent.integer? with
  | some 0 => one
  | some 1 => base
  | some n => base.powInt n
  | none =>
    match base with
    | .number a => powNumber a exponent
    | base => .power base exponent

/-- Is the expression better written with a minus sign in front? The sign of the first term
decides. -/
def isNegated (e : Sym) : Bool :=
  match e.terms with
  | [] => false
  | (a, _) :: _ => a.isNegative

/-- The sine, which is odd. -/
def sin (e : Sym) : Sym :=
  if e = ofInt 0 then e
  else
    match e with
    | .number (.float x) => .number (.float (Elementary.sin x))
    | .number .nan | .number .complexInfinity => .number .nan
    | e => if e.isNegated then neg (.sine (neg e)) else .sine e

/-- The cosine, which is even. -/
def cos (e : Sym) : Sym :=
  if e = ofInt 0 then one
  else
    match e with
    | .number (.float x) => .number (.float (Elementary.cos x))
    | .number .nan | .number .complexInfinity => .number .nan
    | e => if e.isNegated then .cosine (neg e) else .cosine e

/-! ## Symbols -/

def symbols : Sym → List String
  | .number _ => []
  | .symbol n => [n]
  | .sine e | .cosine e => e.symbols
  | .power b e => b.symbols ++ e.symbols
  | .times f r => f.symbols ++ r.symbols
  | .plus t r => t.symbols ++ r.symbols

/-- Replaces symbols, all at once, and brings the result into canonical form. -/
def substitute (read : String → Option Sym) : Sym → Sym
  | .number a => .number a
  | .symbol n => (read n).getD (.symbol n)
  | .sine e => sin (e.substitute read)
  | .cosine e => cos (e.substitute read)
  | .power b e => pow (b.substitute read) (e.substitute read)
  | .times f r => mul (f.substitute read) (r.substitute read)
  | .plus t r => add (t.substitute read) (r.substitute read)

end Sym
end Symbolic
end ArithTree
