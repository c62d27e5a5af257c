import ArithTree.Proofs.Expr.Traversal

/-!
# ArithTree.Proofs.Expr.FreeVariables

The two lists of names against the structure of a tree. The names that are listed are those that occur; the free
names are those of the operands, except that a plot leaves out the occurrences of its own variable in the plotted
expression.

* `mem_variableNames`, `mem_occurrences_of_free`.
* `mem_freeVariables_plot`.
-/

namespace ArithTree
namespace Expr

variable {n : String} {e : Expr}

theorem mem_variableNames : n ∈ e.variableNames ↔ n ∈ e.occurrences := by
  rw [variableNames_eq, List.mem_eraseDups]

theorem mem_freeVariables_var {m : String} : n ∈ (var m).freeVariables ↔ n = m := by
  rw [freeVariables, mem_variableNames, occurrences, List.mem_singleton]

theorem mem_freeVariables_unary {op : UnaryOp} {a : Expr} :
    n ∈ (unary op a).freeVariables ↔ n ∈ a.freeVariables := by
  rw [freeVariables, List.mem_eraseDups]

theorem mem_freeVariables_binary {op : BinaryOp} {a b : Expr} :
    n ∈ (binary op a b).freeVariables ↔ n ∈ a.freeVariables ∨ n ∈ b.freeVariables := by
  rw [freeVariables, List.mem_eraseDups, List.mem_append]

theorem mem_freeVariables_request {r : Request} {a : Expr} :
    n ∈ (request r a).freeVariables ↔ n ∈ a.freeVariables := by
  rw [freeVariables, List.mem_eraseDups]

theorem mem_freeVariables_plot {e s l h t : Expr} :
    n ∈ (plot e s l h t).freeVariables ↔
      (n ∈ e.occurrences ∧ s ≠ var n) ∨ n ∈ l.freeVariables ∨ n ∈ h.freeVariables ∨
        n ∈ t.freeVariables := by
  have hslot : s.asVariable? ≠ some n ↔ s ≠ var n := by
    cases s <;> simp [asVariable?]
  rw [freeVariables, List.mem_eraseDups]
  simp only [List.mem_append, List.mem_filter, mem_variableNames, bne_iff_ne, hslot]

theorem mem_occurrences_of_free : n ∈ e.freeVariables → n ∈ e.occurrences := by
  induction e with
  | num x => exact mem_variableNames.mp
  | var m => exact mem_variableNames.mp
  | foreign v => exact mem_variableNames.mp
  | unary op a ih =>
    intro hn
    exact ih (mem_freeVariables_unary.mp hn)
  | binary op a b iha ihb =>
    intro hn
    rw [occurrences, List.mem_append]
    exact (mem_freeVariables_binary.mp hn).imp iha ihb
  | request r a ih =>
    intro hn
    exact ih (mem_freeVariables_request.mp hn)
  | plot e s l h t ihe ihs ihl ihh iht =>
    intro hn
    simp only [occurrences, List.mem_append]
    rcases mem_freeVariables_plot.mp hn with ⟨hn, -⟩ | hn | hn | hn
    · exact .inl hn
    · exact .inr (.inr (.inl (ihl hn)))
    · exact .inr (.inr (.inr (.inl (ihh hn))))
    · exact .inr (.inr (.inr (.inr (iht hn))))

end Expr
end ArithTree
