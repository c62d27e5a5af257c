import ArithTree.Expr.Basic

/-!
# ArithTree.Expr.Variables

The variables of a tree. `variableNames` lists every name that occurs, by a walk with an explicit stack;
`freeVariables` lists the names that a tree reads from its surroundings, where the variable of a
plot is supplied by the plot itself.
-/

namespace ArithTree
namespace Expr

/-- The nodes in a list of trees together. -/
def totalSize : List Expr → Nat
  | [] => 0
  | t :: ts => t.size + totalSize ts

theorem totalSize_append (ts us : List Expr) :
    totalSize (ts ++ us) = totalSize ts + totalSize us := by
  induction ts with
  | nil => simp [totalSize]
  | cons t ts ih => simp [totalSize, ih, Nat.add_assoc]

theorem totalSize_operands_lt (e : Expr) : totalSize e.operands < e.size := by
  cases e <;> simp [totalSize, operands, size]

/-- All nodes of the trees on a stack, each before its operands. -/
def walk : List Expr → List Expr
  | [] => []
  | e :: rest => e :: walk (e.operands ++ rest)
  termination_by stack => totalSize stack
  decreasing_by
    have h := totalSize_operands_lt e
    simp only [totalSize_append, totalSize] at h ⊢
    omega

/-- The nodes of a tree, each before its operands, operands left to right. -/
def nodes (e : Expr) : List Expr := walk [e]

def asVariable? : Expr → Option String
  | .var n => some n
  | _ => none

theorem asVariable?_eq_some {e : Expr} {n : String} : e.asVariable? = some n ↔ e = .var n := by
  cases e <;> simp [asVariable?]

/-- The names that occur in a tree, in order of first occurrence. -/
def variableNames (e : Expr) : List String := (e.nodes.filterMap asVariable?).eraseDups

/-- The names that a tree needs from its surroundings. In a plot, the swept name is not needed for
the plotted expression. -/
def freeVariables : Expr → List String
  | .plot e s l h t =>
    let inner := e.variableNames.filter fun n => s.asVariable? != some n
    (inner ++ (l.freeVariables ++ (h.freeVariables ++ t.freeVariables))).eraseDups
  | .unary _ a => a.freeVariables.eraseDups
  | .binary _ a b => (a.freeVariables ++ b.freeVariables).eraseDups
  | .request _ a => a.freeVariables.eraseDups
  | .num x => (Expr.num x).variableNames
  | .var n => (Expr.var n).variableNames
  | .foreign v => (Expr.foreign v).variableNames

end Expr
end ArithTree
