import ArithTree.Evaluate
import ArithTree.Proofs.Expr.Occurrences

/-!
# ArithTree.Proofs.Evaluate.Reading

Evaluation with given values for the variables, before any bindings come in.

* `evaluateWith_congr`: only the variables that occur are read.
* `evaluateWith_isOk`: there is a value exactly if every variable that occurs has one and no command
  stands in the way.
* `evaluateWith_error`: a failure is one of a variable that occurs, or names a command that occurs.
-/

namespace ArithTree

open ArithTree.Expr

variable [Numerics] {read read' : String → Except Failure Float}

theorem evaluateWith_congr {e : Expr} (h : ∀ n ∈ e.occurrences, read n = read' n) :
    evaluateWith read e = evaluateWith read' e := by
  induction e with
  | num x => rfl
  | var n => exact h n (by simp [occurrences])
  | unary op a ih => simp only [evaluateWith, ih h]
  | binary op a b iha ihb =>
    have ha := iha fun n hn => h n (by simp [occurrences, hn])
    have hb := ihb fun n hn => h n (by simp [occurrences, hn])
    simp only [evaluateWith, ha, hb]
  | request r a => rfl
  | plot e s l h t => rfl
  | foreign v => rfl

theorem evaluateWith_isOk {e : Expr} :
    (∃ x, evaluateWith read e = .ok x) ↔
      e.WellFormed ∧ e.commands = [] ∧ ∀ n ∈ e.occurrences, ∃ x, read n = .ok x := by
  induction e with
  | num x => simp [evaluateWith, commands, occurrences]
  | var n => simp [evaluateWith, commands, occurrences]
  | unary op a ih =>
    rw [wellFormed_unary, commands, occurrences, ← ih]
    simp only [evaluateWith]
    cases evaluateWith read a <;> simp
  | binary op a b iha ihb =>
    have h : (∃ x, evaluateWith read (.binary op a b) = .ok x) ↔
        (∃ x, evaluateWith read a = .ok x) ∧ ∃ x, evaluateWith read b = .ok x := by
      simp only [evaluateWith]
      cases evaluateWith read a <;> cases evaluateWith read b <;> simp
    rw [h, iha, ihb]
    simp only [wellFormed_binary, commands, occurrences, List.append_eq_nil_iff, List.mem_append,
      or_imp, forall_and]
    constructor
    · rintro ⟨⟨wa, ca, oa⟩, wb, cb, ob⟩
      exact ⟨⟨wa, wb⟩, ⟨ca, cb⟩, oa, ob⟩
    · rintro ⟨⟨wa, wb⟩, ⟨ca, cb⟩, oa, ob⟩
      exact ⟨⟨wa, ca, oa⟩, wb, cb, ob⟩
  | request r a => simp [evaluateWith, commands]
  | plot e s l h t => simp [evaluateWith, commands]
  | foreign v => simp [evaluateWith]

theorem evaluateWith_error {e : Expr} {f : Failure} (h : evaluateWith read e = .error f) :
    (∃ n ∈ e.occurrences, read n = .error f) ∨
      (∃ s ∈ e.commands, f = .unknownOperator s) ∨ ¬ e.WellFormed := by
  induction e with
  | num x => simp [evaluateWith] at h
  | var n => exact .inl ⟨n, by simp [occurrences], h⟩
  | unary op a ih =>
    simp only [evaluateWith] at h
    split at h
    · rename_i hf; cases h; exact ih hf
    · cases h
  | binary op a b iha ihb =>
    -- A failure of either operand is one of the whole: all three causes are inherited.
    have inherit {c : Expr} (hc : c = a ∨ c = b)
        (h : (∃ n ∈ c.occurrences, read n = .error f) ∨
          (∃ s ∈ c.commands, f = .unknownOperator s) ∨ ¬ c.WellFormed) :
        (∃ n ∈ (binary op a b).occurrences, read n = .error f) ∨
          (∃ s ∈ (binary op a b).commands, f = .unknownOperator s) ∨
            ¬ (binary op a b).WellFormed := by
      simp only [occurrences, commands, wellFormed_binary, List.mem_append]
      grind
    simp only [evaluateWith] at h
    split at h
    · rename_i hf; cases h; exact inherit (.inl rfl) (iha hf)
    · split at h
      · rename_i hf; cases h; exact inherit (.inr rfl) (ihb hf)
      · cases h
  | request r a =>
    cases h
    exact .inr (.inl ⟨r.symbol, by simp [commands], rfl⟩)
  | plot e s l h t =>
    cases h
    exact .inr (.inl ⟨Operator.plot.symbol, by simp [commands], rfl⟩)
  | foreign v => exact .inr (.inr (by simp))

end ArithTree
