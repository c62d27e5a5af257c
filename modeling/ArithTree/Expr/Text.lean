import ArithTree.Expr.Basic

/-!
# ArithTree.Expr.Text

Expressions as text: infix in parentheses for the binary operators, function notation for the
others.
-/

namespace ArithTree
namespace Expr

/-- The infix form. -/
def text : Expr → String
  | .num x => Decimal.number x
  | .var n => n
  | .unary op a => op.symbol ++ "(" ++ a.text ++ ")"
  | .binary op a b => "(" ++ a.text ++ " " ++ op.symbol ++ " " ++ b.text ++ ")"
  | .request r a => r.symbol ++ "(" ++ a.text ++ ")"
  | .plot e s l h t =>
    "plot(" ++ e.text ++ ", " ++ s.text ++ ", " ++ l.text ++ ", " ++ h.text ++ ", " ++ t.text ++ ")"
  | .foreign (.scalar s) => s.shown
  | .foreign v => v.kind

theorem text_unary (op : UnaryOp) (a : Expr) : (unary op a).text = op.symbol ++ "(" ++ a.text ++ ")" := rfl

theorem text_binary (op : BinaryOp) (a b : Expr) :
    (binary op a b).text = "(" ++ a.text ++ " " ++ op.symbol ++ " " ++ b.text ++ ")" := rfl

theorem text_request (r : Request) (a : Expr) : (request r a).text = r.symbol ++ "(" ++ a.text ++ ")" := rfl

theorem text_plot (e s l h t : Expr) :
    (plot e s l h t).text =
      "plot(" ++ e.text ++ ", " ++ s.text ++ ", " ++ l.text ++ ", " ++ h.text ++ ", " ++ t.text ++ ")" := rfl

/-- The infix form under the label of the node. -/
def written (e : Expr) : String := e.label ++ "(" ++ e.text ++ ")"

end Expr
end ArithTree
