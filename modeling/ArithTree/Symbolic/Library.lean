/-!
# ArithTree.Symbolic.Library

What is asked of the library of symbolic expressions underneath. Its expressions are built from numbers and symbols by
the operations here, symbols are replaced in them, and they are set as text.
-/

namespace ArithTree
namespace Symbolic

class Library where
  Form : Type
  integer : Int → Form
  /-- A number that is not whole. -/
  float : Float → Form
  symbol : String → Form
  add : Form → Form → Form
  mul : Form → Form → Form
  pow : Form → Form → Form
  neg : Form → Form
  sin : Form → Form
  cos : Form → Form
  /-- The names of the symbols that an expression depends on. -/
  freeSymbols : Form → List String
  /-- Replaces symbols, all at once. -/
  replace : List (String × Form) → Form → Form
  /-- An expression in one line of characters. -/
  text : Form → String
  typeset : Form → String

end Symbolic
end ArithTree
