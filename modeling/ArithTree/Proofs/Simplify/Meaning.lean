import ArithTree.Elementary.Rounded
import ArithTree.Proofs.Evaluate.Outcome
import ArithTree.Simplify

/-!
# ArithTree.Proofs.Simplify.Meaning

Simplification keeps what a tree means. Folding computes what evaluation would compute
(`evaluateWith_fold`), and putting trees in for variables is the same as reading the variables as the
values of these trees (`evaluateWith_simplifyWith`). A variable read that way is unrolled one level
deeper, which makes no difference once the unrolling is deep enough.

* `blur_evaluate_simplify`: the same result, up to the chains of cycles, under all bindings that
  extend those of the simplification.
* `simplify_sameOutcome`: the same outcome for trees without foreign values.
-/

namespace ArithTree

/-- The bindings `b'` bind what `b` binds to the same trees, and perhaps more. -/
def Extends (b' b : Bindings) : Prop := ∀ n t, b.get? n = some t → b'.get? n = some t

theorem extends_insert {b : Bindings} (hb : b.WellFormed) {n : String} (t : Expr)
    (hn : b.get? n = none) : Extends (b.insert n t) b := by
  intro m u hm
  rw [hb.get?_insert]
  by_cases h : n = m
  · rw [← h, hn] at hm
    cases hm
  · simp [h, hm]

section

variable [Numerics]

theorem evaluateWith_fold (read : String → Except Failure Float) (op : BinaryOp) (a b : Expr) :
    evaluateWith read (fold op a b) = evaluateWith read (.binary op a b) := by
  unfold fold
  split
  · split
    · rfl
    · rfl
  · rfl

/-- What a variable is worth after trees were put in for variables. -/
def readThrough (read : String → Except Failure Float) (sub : String → Option Expr) (n : String) :
    Except Failure Float :=
  match sub n with
  | some t => evaluateWith read t
  | none => read n

theorem evaluateWith_simplifyWith (read : String → Except Failure Float)
    (sub : String → Option Expr) (e : Expr) :
    evaluateWith read (simplifyWith sub e) = evaluateWith (readThrough read sub) e := by
  induction e with
  | num x => rfl
  | var n =>
    simp only [simplifyWith, evaluateWith, readThrough]
    cases sub n <;> rfl
  | unary op a ih => simp only [simplifyWith, evaluateWith, ih]
  | binary op a b iha ihb =>
    rw [simplifyWith, evaluateWith_fold]
    simp only [evaluateWith, iha, ihb]
  | request r a => rfl
  | plot e s l h t => rfl
  | foreign v => rfl

/-- Building trees anew makes no difference. -/
theorem simplify_eq (copying : Bool) (b : Bindings) (e : Expr) :
    simplify copying b e = simplifyWith b.get? e := by
  have hcopy : Expr.copy = id := funext Expr.copy_eq
  simp [simplify, hcopy]

theorem blur_evaluate_simplify (copying : Bool) {b b' : Bindings} (h : Extends b' b) (e : Expr) :
    blur (evaluate b' (simplify copying b e)) = blur (evaluate b' e) := by
  have hread : ∀ n, readThrough (unrolled b' (b'.size + 1)) b.get? n =
      unrolled b' (b'.size + 1) n := by
    intro n
    unfold readThrough
    cases ht : b.get? n with
    | none => rfl
    | some t =>
      calc evaluateWith (unrolled b' (b'.size + 1)) t
          = unrolled b' (b'.size + 2) n := by simp only [unrolled, h n t ht]
        _ = blur (resolve b' b'.size [] n) := unrolled_eq_resolve (by omega) n
        _ = unrolled b' (b'.size + 1) n := (unrolled_eq_resolve (by omega) n).symm
  rw [simplify_eq, blur_evaluate (Nat.lt_succ_self _), evaluateWith_simplifyWith,
    blur_evaluate (Nat.lt_succ_self _)]
  exact evaluateWith_congr fun n _ => hread n

theorem simplify_sameOutcome (copying : Bool) {b b' : Bindings} {e : Expr} (h : Extends b' b)
    (hb' : TreesWellFormed b') (he : e.WellFormed) :
    ∃ r, simplifyChecked copying b e = .ok r ∧ SameOutcome (evaluate b' r) (evaluate b' e) := by
  refine ⟨simplify copying b e, ?_, ?_⟩
  · have hf : e.foreign? = none := he
    simp [simplifyChecked, hf]
  · exact sameOutcome_of_blur_eq (fun _ hf => evaluate_isTreeFailure hb' he hf)
      (blur_evaluate_simplify copying h e)

end

/-- Two names that refer to each other. -/
def mutualPair : Bindings :=
  Dictionary.ofList 1
    [("x", .binary .add (.var "y") (.num 1)), ("y", .binary .mul (.var "x") (.num 2))]

open scoped Elementary in
/-- The simplified tree starts at `y` and the original at `x`, so their chains differ; the name `z` is
bound for the evaluation only. -/
theorem simplify_sameOutcome_cyclic :
    Extends (mutualPair.insert "z" (.num 4)) mutualPair ∧
      TreesWellFormed (mutualPair.insert "z" (.num 4)) ∧
        (Expr.binary .sub (.binary .mul (.var "z") (.num 3)) (.var "x")).WellFormed ∧
          ∃ r, simplifyChecked true mutualPair
              (.binary .sub (.binary .mul (.var "z") (.num 3)) (.var "x")) = .ok r ∧
            SameOutcome (evaluate (mutualPair.insert "z" (.num 4)) r)
              (evaluate (mutualPair.insert "z" (.num 4))
                (.binary .sub (.binary .mul (.var "z") (.num 3)) (.var "x"))) :=
  have h := extends_insert (Dictionary.wellFormed_ofList Nat.one_pos _) (.num 4) (by decide)
  ⟨h, by decide, by decide, simplify_sameOutcome true h (by decide) (by decide)⟩

end ArithTree
