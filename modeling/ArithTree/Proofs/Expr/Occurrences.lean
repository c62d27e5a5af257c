import ArithTree.Expr.Basic

/-!
# ArithTree.Proofs.Expr.Occurrences

What occurs in a tree, read off its structure.

* `occurrences`: the variables, left to right, as often as they occur.
* `commands`: the symbols of the commands, outermost first.
* `wellFormed_binary` and its companions: no foreign value in a tree means none in its operands.
-/

namespace ArithTree
namespace Expr

def occurrences : Expr → List String
  | .num _ | .foreign _ => []
  | .var n => [n]
  | .unary _ a => a.occurrences
  | .binary _ a b => a.occurrences ++ b.occurrences
  | .request _ a => a.occurrences
  | .plot e s l h t =>
    e.occurrences ++ (s.occurrences ++ (l.occurrences ++ (h.occurrences ++ t.occurrences)))

theorem mem_occurrences_plot {e s l h t : Expr} {n : String} :
    n ∈ (plot e s l h t).occurrences ↔
      n ∈ e.occurrences ∨ n ∈ s.occurrences ∨ n ∈ l.occurrences ∨ n ∈ h.occurrences ∨ n ∈ t.occurrences := by
  simp only [occurrences, List.mem_append]

def commands : Expr → List String
  | .num _ | .var _ | .foreign _ => []
  | .unary _ a => a.commands
  | .binary _ a b => a.commands ++ b.commands
  | .request r a => r.symbol :: a.commands
  | .plot e s l h t =>
    Operator.plot.symbol ::
      (e.commands ++ (s.commands ++ (l.commands ++ (h.commands ++ t.commands))))

@[simp] theorem wellFormed_num (x : Float) : (num x).WellFormed := rfl

@[simp] theorem wellFormed_var (n : String) : (var n).WellFormed := rfl

@[simp] theorem not_wellFormed_foreign (v : Foreign) : ¬ (foreign v).WellFormed := by
  simp [WellFormed, foreign?]

@[simp] theorem wellFormed_unary (op : UnaryOp) (a : Expr) :
    (unary op a).WellFormed ↔ a.WellFormed := Iff.rfl

@[simp] theorem wellFormed_binary (op : BinaryOp) (a b : Expr) :
    (binary op a b).WellFormed ↔ a.WellFormed ∧ b.WellFormed := by
  simp [WellFormed, foreign?]

@[simp] theorem wellFormed_request (r : Request) (a : Expr) :
    (request r a).WellFormed ↔ a.WellFormed := Iff.rfl

@[simp] theorem wellFormed_plot (e s l h t : Expr) :
    (plot e s l h t).WellFormed ↔
      e.WellFormed ∧ s.WellFormed ∧ l.WellFormed ∧ h.WellFormed ∧ t.WellFormed := by
  simp [WellFormed, foreign?]

/-- A tree built anew is the tree it was built from. -/
@[simp] theorem copy_eq (e : Expr) : e.copy = e := by
  induction e <;> simp_all [copy]

end Expr
end ArithTree
