import ArithTree.Symbolic.Library
import ArithTree.Symbolic.Text

/-!
# ArithTree.Symbolic.Canonical

Canonical forms as the library of symbolic expressions that a run works with.
-/

namespace ArithTree
namespace Symbolic
namespace Canonical

scoped instance forms : Library where
  Form := Sym
  integer := Sym.ofInt
  float x := .number (.ofFloat x)
  symbol := Sym.symbol
  add := Sym.add
  mul := Sym.mul
  pow := Sym.pow
  neg := Sym.neg
  sin := Sym.sin
  cos := Sym.cos
  freeSymbols e := e.symbols.eraseDups
  replace r e := e.substitute fun n => r.lookup n
  text := Sym.text
  typeset := Sym.typeset

end Canonical
end Symbolic
end ArithTree
