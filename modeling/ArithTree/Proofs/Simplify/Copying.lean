import ArithTree.Elementary.Rounded
import ArithTree.Proofs.Expr.Positions
import ArithTree.Proofs.Simplify.Pass

/-!
# ArithTree.Proofs.Simplify.Copying

A pass that copies the trees it puts in against one that shares them. A copy is built anew, and each of its nodes is
checked as a new node is: whether its numbers are numbers, and whether its operator takes so many operands. A tree that
could be built once passes these checks again, and comes out as the same tree. So copying fails nowhere, and decides
nothing above the trees that are put in.

* `Built`: the trees that can be built, which are those without a foreign value (`built_iff`).
* `rebuild_eq`: such a tree can be built again.
* `rebuild_error`, `simplifyBuilding_error`: how any other tree can fail, here and in a pass.
* `combine_binary`, `simplifyBuilding_eq`: with all its checks a pass is the plain one.
* `copying_unseen`.
-/

namespace ArithTree

/-- The failures of building a tree: a value that is no node, or parts that do not fit together. -/
inductive IsBuildFailure : Failure → Prop where
  | notNode (v : Foreign) (asked : String) : IsBuildFailure (.notNode v asked)
  | notSimplifiable (v : Foreign) : IsBuildFailure (.notSimplifiable v)
  | arityMismatch (symbol : String) (expected : Nat) (actual : Int) :
      IsBuildFailure (.arityMismatch symbol expected actual)
  | lacks (label : String) (what : Attribute) : IsBuildFailure (.lacks label what)
  | operandMissing : IsBuildFailure .operandMissing
  | unknownOperator (symbol : String) : IsBuildFailure (.unknownOperator symbol)

/-! ## Building -/

namespace Expr

variable {e : Expr} {op : Operator} {operands : List Expr}

theorem collect_ok {α : Type} (as : List α) : collect (as.map Except.ok) = .ok as := by
  induction as with
  | nil => rfl
  | cons a as ih => simp only [List.map_cons, collect, ih]

theorem build_ok (h : build op operands = .ok e) : e.operator? = some op ∧ e.operands = operands := by
  unfold build at h
  split at h
  · cases h
    exact ⟨rfl, rfl⟩
  · cases h
    exact ⟨rfl, rfl⟩
  · cases h
    exact ⟨rfl, rfl⟩
  · cases h
    exact ⟨rfl, rfl⟩
  · cases h

theorem wellFormed_iff_operands (h : e.operator? = some op) :
    e.WellFormed ↔ ∀ a ∈ e.operands, a.WellFormed := by
  cases e with
  | num x => cases h
  | var n => cases h
  | foreign v => cases h
  | unary op a => simp [Expr.operands]
  | binary op a b => simp [Expr.operands]
  | request r a => simp [Expr.operands]
  | plot e s l h t => simp [Expr.operands]

/-- The trees that can be built: numbers that fit, variables, and operators over as many of these trees as they
take. -/
inductive Built : Expr → Prop where
  | number {n : Number} {e : Expr} (h : ofNumber n = .ok e) : Built e
  | var (n : String) : Built (.var n)
  | node {op : Operator} {operands : List Expr} {e : Expr} (h : build op operands = .ok e)
    (built : ∀ a ∈ operands, Built a) : Built e

theorem Built.wellFormed (h : Built e) : e.WellFormed := by
  induction h with
  | number h =>
    simp only [ofNumber] at h
    split at h
    · cases h
      exact wellFormed_num _
    · cases h
  | var n => exact wellFormed_var n
  | node h _ ih =>
    obtain ⟨hop, rfl⟩ := build_ok h
    exact (wellFormed_iff_operands hop).mpr ih

theorem built_iff : Built e ↔ e.WellFormed := by
  refine ⟨Built.wellFormed, fun h => ?_⟩
  induction e using operands_induction with
  | step e ih =>
    cases hop : e.operator? with
    | some op =>
      have hoperands := (wellFormed_iff_operands hop).mp h
      exact .node (build_operands hop) fun a ha => ih a ha (hoperands a ha)
    | none =>
      cases e with
      | num x => exact .number (n := .double x) rfl
      | var n => exact .var n
      | foreign v => exact absurd h (not_wellFormed_foreign v)
      | _ => cases hop

theorem rebuild_node (h : e.operator? = some op) : e.rebuild = buildFrom op (e.operands.map rebuild) := by
  cases e with
  | num x => cases h
  | var n => cases h
  | foreign v => cases h
  | _ =>
    cases h
    rfl

theorem rebuild_eq (h : e.WellFormed) : e.rebuild = .ok e := by
  induction e using operands_induction with
  | step e ih =>
    cases hop : e.operator? with
    | some op =>
      have hoperands := (wellFormed_iff_operands hop).mp h
      have hcopies : e.operands.map rebuild = e.operands.map Except.ok :=
        List.map_congr_left fun a ha => ih a ha (hoperands a ha)
      rw [rebuild_node hop, buildFrom, hcopies, collect_ok]
      exact build_operands hop
    | none =>
      cases e with
      | num x => rfl
      | var n => rfl
      | foreign v => exact absurd h (not_wellFormed_foreign v)
      | _ => cases hop

variable {f : Failure} {parts : List (Except Failure Expr)}

theorem collect_error {α : Type} {parts : List (Except Failure α)} (h : collect parts = .error f) :
    .error f ∈ parts := by
  induction parts with
  | nil => cases h
  | cons part parts ih =>
    cases part with
    | error g =>
      cases h
      exact List.mem_cons_self
    | ok a =>
      simp only [collect] at h
      split at h
      · rename_i hrest
        cases h
        exact List.mem_cons_of_mem _ (ih hrest)
      · cases h

theorem build_error {operands : List Expr} (h : build op operands = .error f) : IsBuildFailure f := by
  unfold build at h
  split at h
  · cases h
  · cases h
  · cases h
  · cases h
  · cases h
    exact .arityMismatch _ _ _

theorem buildFrom_error (hparts : ∀ f, .error f ∈ parts → IsBuildFailure f) (h : buildFrom op parts = .error f) :
    IsBuildFailure f := by
  unfold buildFrom at h
  split at h
  · rename_i hcollect
    cases h
    exact hparts f (collect_error hcollect)
  · exact build_error h

theorem rebuild_error : ∀ {f}, e.rebuild = .error f → IsBuildFailure f := by
  induction e using operands_induction with
  | step e ih =>
    intro f h
    cases hop : e.operator? with
    | some op =>
      rw [rebuild_node hop] at h
      refine buildFrom_error (fun g hg => ?_) h
      obtain ⟨a, ha, hrebuild⟩ := List.mem_map.mp hg
      exact ih a ha hrebuild
    | none =>
      cases e with
      | num x => cases h
      | var n => cases h
      | foreign v =>
        cases v with
        | scalar v =>
          cases h
          exact .notNode _ _
        | _ => cases h
      | _ => cases hop

end Expr

/-! ## Simplifying -/

section Combine

variable {a c : Expr} {operands : List Expr}

theorem allNumbers_eq (h : ∀ a ∈ operands, a.WellFormed) : allNumbers operands = .ok (operands.all Expr.isNumber) := by
  induction operands with
  | nil => rfl
  | cons a operands ih =>
    obtain ⟨ha, hrest⟩ := List.forall_mem_cons.mp h
    cases a with
    | num x => exact ih hrest
    | foreign v => exact absurd ha (Expr.not_wellFormed_foreign v)
    | _ => rfl

/-- Two operands are computed or put together exactly as the plain pass does it. -/
theorem combine_binary [Numerics] (op : BinaryOp) (ha : a.WellFormed) (hc : c.WellFormed) :
    combine (.binary op) [a, c] = .ok (fold op a c) := by
  have hnumbers : allNumbers [a, c] = .ok (a.isNumber && c.isNumber) := by
    rw [allNumbers_eq (by simp [ha, hc]), List.all_cons, List.all_cons, List.all_nil, Bool.and_true]
  rcases fold_cases op a c with ⟨x, y, hop, rfl, rfl, hfold⟩ | ⟨hopen, hfold⟩
  · rw [hfold, combine, Operator.foldable, if_pos hop]
    rfl
  · rw [hfold, combine, Operator.foldable]
    cases hop : op.foldable with
    | false => rfl
    | true =>
      have hsome : (a.isNumber && c.isNumber) = false := by
        rw [Bool.eq_false_iff, Ne, Bool.and_eq_true]
        exact fun h => hopen ⟨hop, h⟩
      rw [hsome] at hnumbers
      simp only [if_true, hnumbers]
      rfl

end Combine

section Building

variable {copying : Bool} {b : Bindings} {e : Expr} {op : Operator}

theorem simplifyBuilding_node [Numerics] (h : e.operator? = some op) :
    simplifyBuilding copying b e = combineFrom op (e.operands.map (simplifyBuilding copying b)) := by
  cases e with
  | num x => cases h
  | var n => cases h
  | foreign v => cases h
  | _ =>
    cases h
    rfl

theorem combine_simplifyWith [Numerics] {sub : String → Option Expr} (h : e.operator? = some op)
    (hwf : ∀ a ∈ e.operands, (simplifyWith sub a).WellFormed) :
    combine op (e.operands.map (simplifyWith sub)) = .ok (simplifyWith sub e) := by
  cases e with
  | num x => cases h
  | var n => cases h
  | foreign v => cases h
  | binary op a c =>
    cases h
    exact combine_binary op (hwf a (by simp [Expr.operands])) (hwf c (by simp [Expr.operands]))
  | _ =>
    cases h
    rfl

theorem simplifyBuilding_eq [Numerics] (hb : TreesWellFormed b) (he : e.WellFormed) :
    simplifyBuilding copying b e = .ok (simplifyWith b.get? e) := by
  have hsub (n : String) (t : Expr) (ht : b.get? n = some t) : t.WellFormed := hb.of_get? ht
  induction e using Expr.operands_induction with
  | step e ih =>
    cases hop : e.operator? with
    | some op =>
      have hoperands := (Expr.wellFormed_iff_operands hop).mp he
      have hparts : e.operands.map (simplifyBuilding copying b) =
          (e.operands.map (simplifyWith b.get?)).map Except.ok := by
        rw [List.map_map]
        exact List.map_congr_left fun a ha => ih a ha (hoperands a ha)
      rw [simplifyBuilding_node hop, combineFrom, hparts, Expr.collect_ok]
      exact combine_simplifyWith hop fun a ha => wellFormed_simplifyWith hsub (hoperands a ha)
    | none =>
      cases e with
      | num x => rfl
      | var n =>
        cases ht : b.get? n with
        | none => simp only [simplifyBuilding, simplifyWith, ht, Option.getD_none]
        | some t =>
          cases copying with
          | true =>
            have hcopy := Expr.rebuild_eq (hsub n t ht)
            simp only [simplifyBuilding, simplifyWith, ht, Option.getD_some, if_true, hcopy]
          | false => simp [simplifyBuilding, simplifyWith, ht]
      | foreign v => exact absurd he (Expr.not_wellFormed_foreign v)
      | _ => cases hop

variable {f : Failure}

theorem allNumbers_error {operands : List Expr} (h : allNumbers operands = .error f) : IsBuildFailure f := by
  induction operands with
  | nil => cases h
  | cons a operands ih =>
    cases a with
    | num x => exact ih h
    | foreign v =>
      cases h
      exact .notNode _ _
    | _ => cases h

variable [Numerics]

theorem applyTo_error {xs : List Float} (h : op.applyTo xs = .error f) : IsBuildFailure f := by
  unfold Operator.applyTo at h
  split at h
  · cases h
  · cases h
  · cases h
    exact .operandMissing
  · cases h
    exact .operandMissing
  · cases h
    exact .unknownOperator _
  · cases h
    exact .unknownOperator _

theorem combine_error {operands : List Expr} (h : combine op operands = .error f) : IsBuildFailure f := by
  unfold combine at h
  split at h
  · split at h
    · rename_i hnumbers
      cases h
      exact allNumbers_error hnumbers
    · exact Expr.build_error h
    · split at h
      · rename_i hcollect
        cases h
        obtain ⟨a, -, ha⟩ := List.mem_map.mp (Expr.collect_error hcollect)
        cases a with
        | num x => cases ha
        | _ =>
          cases ha
          exact .lacks _ _
      · rename_i xs _
        cases happly : op.applyTo xs with
        | ok x =>
          rw [happly] at h
          cases h
        | error g =>
          rw [happly] at h
          cases h
          exact applyTo_error happly
  · exact Expr.build_error h

/-- By induction on the tree; a failure of a part is the failure of the whole. -/
theorem simplifyBuilding_error : ∀ {f}, simplifyBuilding copying b e = .error f → IsBuildFailure f := by
  induction e using Expr.operands_induction with
  | step e ih =>
    intro f h
    cases hop : e.operator? with
    | some op =>
      rw [simplifyBuilding_node hop] at h
      unfold combineFrom at h
      split at h
      · rename_i hcollect
        cases h
        obtain ⟨a, ha, hpart⟩ := List.mem_map.mp (Expr.collect_error hcollect)
        exact ih a ha hpart
      · exact combine_error h
    | none =>
      cases e with
      | num x => cases h
      | var n =>
        simp only [simplifyBuilding] at h
        split at h
        · split at h
          · exact Expr.rebuild_error h
          · cases h
        · cases h
      | foreign v =>
        cases h
        exact .notSimplifiable v
      | _ => cases hop

end Building

/-- Whether the trees put in are copied or shared, a pass gives the same tree, and it is the tree of the plain pass. A
tree that could be built can always be copied, and its copy is the same. -/
theorem copying_unseen [Numerics] {b : Bindings} (hb : TreesWellFormed b) {e : Expr} (he : e.WellFormed) :
    (∃ r, ∀ copying, simplifyBuilding copying b e = .ok r ∧ simplifyChecked copying b e = .ok r) ∧
      ∀ t : Expr, t.Built → t.rebuild = .ok t := by
  refine ⟨⟨simplifyWith b.get? e, fun copying => ⟨simplifyBuilding_eq hb he, ?_⟩⟩, ?_⟩
  · rw [simplifyChecked_ok copying b he, simplify_eq]
  · exact fun t ht => Expr.rebuild_eq ht.wellFormed

/-- A NaN, a negative zero, a plot, and a name whose tree mentions it. -/
def oddities : Bindings :=
  Dictionary.ofList 1
    [("x", .num (0 / 0)), ("y", .num (-0)), ("z", .plot (.var "t") (.var "t") (.num 0) (.var "x") (.num 1)),
      ("w", .unary .cos (.binary .pow (.var "w") (.num 2)))]

/-- The sum of two copies is computed, and the other copies stay. -/
def assembled : Expr :=
  .binary .mul (.binary .add (.var "y") (.binary .sub (.var "x") (.num 1)))
    (.binary .div (.var "w") (.request .simplify (.var "z")))

open scoped Elementary in
theorem copying_unseen_oddities :
    TreesWellFormed oddities ∧ assembled.WellFormed ∧ assembled.Built ∧
      (∃ r, ∀ copying,
        simplifyBuilding copying oddities assembled = .ok r ∧ simplifyChecked copying oddities assembled = .ok r) ∧
      assembled.rebuild = .ok assembled := by
  have htrees : TreesWellFormed oddities := by decide
  have hwf : assembled.WellFormed := by decide
  have hbuilt : assembled.Built := Expr.built_iff.mpr hwf
  obtain ⟨hpass, hcopy⟩ := copying_unseen htrees hwf
  exact ⟨htrees, hwf, hbuilt, hpass, hcopy assembled hbuilt⟩

end ArithTree
