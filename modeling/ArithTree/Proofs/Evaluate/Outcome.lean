import ArithTree.Proofs.Evaluate.Unrolling

/-!
# ArithTree.Proofs.Evaluate.Outcome

The four ways in which the evaluation of a well-formed tree under well-formed bindings can end
(`evaluate_isOutcome`), and when two evaluations end the same way: with the same number or the same
failure, where two cyclic failures may differ in their chains (`SameOutcome`).
-/

namespace ArithTree

/-- The failures that a tree without foreign values can have. -/
inductive IsTreeFailure : Failure → Prop where
  | undefinedVariable (n : String) : IsTreeFailure (.undefinedVariable n)
  | unknownOperator (s : String) : IsTreeFailure (.unknownOperator s)
  | cyclicBinding (chain : List String) : IsTreeFailure (.cyclicBinding chain)

inductive SameOutcome : Except Failure Float → Except Failure Float → Prop where
  | value (x : Float) : SameOutcome (.ok x) (.ok x)
  | undefinedVariable (n : String) :
      SameOutcome (.error (.undefinedVariable n)) (.error (.undefinedVariable n))
  | unknownOperator (s : String) :
      SameOutcome (.error (.unknownOperator s)) (.error (.unknownOperator s))
  | cyclicBinding (chain chain' : List String) :
      SameOutcome (.error (.cyclicBinding chain)) (.error (.cyclicBinding chain'))

theorem evaluateWith_isTreeFailure [Numerics] {read : String → Except Failure Float} {e : Expr} {f : Failure}
    (he : e.WellFormed) (hread : ∀ n g, read n = .error g → IsTreeFailure g)
    (h : evaluateWith read e = .error f) : IsTreeFailure f := by
  rcases evaluateWith_error h with ⟨n, -, hn⟩ | ⟨s, -, rfl⟩ | hw
  · exact hread n f hn
  · exact .unknownOperator s
  · exact absurd he hw

theorem resolve_isTreeFailure [Numerics] {b : Bindings} (hb : TreesWellFormed b) (left : Nat) :
    ∀ (path : List String) (n : String) (f : Failure),
      resolve b left path n = .error f → IsTreeFailure f := by
  induction left with
  | zero =>
    intro path n f h
    simp only [resolve] at h
    split at h
    · cases h; exact .undefinedVariable n
    · cases h; exact .cyclicBinding _
  | succ left ih =>
    intro path n f h
    simp only [resolve] at h
    split at h
    · cases h; exact .undefinedVariable n
    · rename_i t ht
      split at h
      · cases h; exact .cyclicBinding _
      · exact evaluateWith_isTreeFailure (hb.of_get? ht) (ih (path ++ [n])) h

theorem evaluate_isTreeFailure [Numerics] {b : Bindings} {e : Expr} {f : Failure} (hb : TreesWellFormed b)
    (he : e.WellFormed) (h : evaluate b e = .error f) : IsTreeFailure f :=
  evaluateWith_isTreeFailure he (resolve_isTreeFailure hb b.size []) h

theorem SameOutcome.of_isTreeFailure {r : Except Failure Float}
    (h : ∀ f, r = .error f → IsTreeFailure f) : SameOutcome r r := by
  cases r with
  | ok x => exact .value x
  | error f =>
    cases h f rfl with
    | undefinedVariable n => exact .undefinedVariable n
    | unknownOperator s => exact .unknownOperator s
    | cyclicBinding chain => exact .cyclicBinding chain chain

theorem blur_eq_self_or_cyclic (r : Except Failure Float) :
    blur r = r ∨ ∃ chain, r = .error (.cyclicBinding chain) := by
  cases r with
  | ok x => exact .inl rfl
  | error f =>
    cases f with
    | cyclicBinding chain => exact .inr ⟨chain, rfl⟩
    | _ => exact .inl rfl

theorem eq_of_blur_eq {r r' : Except Failure Float} (h : blur r = blur r')
    (hr : ∀ chain, r' ≠ .error (.cyclicBinding chain)) : r = r' := by
  have hself' : blur r' = r' :=
    (blur_eq_self_or_cyclic r').resolve_right fun ⟨chain, hchain⟩ => hr chain hchain
  rcases blur_eq_self_or_cyclic r with hself | ⟨chain, rfl⟩
  · rwa [hself, hself'] at h
  · rw [hself'] at h
    exact absurd h.symm (hr [])

/-- Results that agree up to the chains of cycles are the same outcome, if one of them is no other
failure than those of a tree. -/
theorem sameOutcome_of_blur_eq {r r' : Except Failure Float}
    (hr : ∀ f, r' = .error f → IsTreeFailure f) (h : blur r = blur r') : SameOutcome r r' := by
  rcases blur_eq_self_or_cyclic r with hself | ⟨chain, rfl⟩
  · rcases blur_eq_self_or_cyclic r' with hself' | ⟨chain', rfl⟩
    · rw [hself, hself'] at h
      rw [h]
      exact .of_isTreeFailure hr
    · rw [hself] at h
      exact h ▸ .cyclicBinding [] chain'
  · rcases blur_eq_self_or_cyclic r' with hself' | ⟨chain', rfl⟩
    · rw [hself'] at h
      exact h ▸ .cyclicBinding chain []
    · exact .cyclicBinding chain chain'

end ArithTree
