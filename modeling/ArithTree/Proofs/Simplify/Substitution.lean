import ArithTree.Elementary.Rounded
import ArithTree.Proofs.Expr.Traversal
import ArithTree.Proofs.Simplify.Pass

/-!
# ArithTree.Proofs.Simplify.Substitution

A pass of simplification as a substitution. It puts the trees of the bound names in for their occurrences, once,
and whatever it folds has no variables. So the names after a pass are those of the tree with the names of the bound
trees in the places of bound names, and a second pass finds nothing to do but in the trees that were put in.

* `Settled`: a tree that a pass leaves as it is.
* `settled_fold`: folding leaves no work behind in a tree whose operands are settled.
* `settled_simplifyWith`, `simplify_settles`: when a second pass changes nothing.
* `variableNames_simplify`: the variables after a pass.
-/

namespace ArithTree

/-! ## A second pass -/

section Settled

variable [Numerics] {sub : String → Option Expr} {e a b c d : Expr}

/-- A pass leaves the tree as it is. -/
structure Settled (sub : String → Option Expr) (e : Expr) : Prop where
  wellFormed : e.WellFormed
  unchanged : simplifyWith sub e = e

theorem simplifyChecked_eq_self {copying : Bool} {b : Bindings} :
    simplifyChecked copying b e = .ok e ↔ Settled b.get? e := by
  constructor
  · intro h
    simp only [simplifyChecked, simplify_eq] at h
    split at h
    · cases h
    · rename_i hf
      exact ⟨hf, Except.ok.inj h⟩
  · intro h
    rw [simplifyChecked_ok copying b h.wellFormed, simplify_eq, h.unchanged]

theorem settled_num (x : Float) : Settled sub (.num x) := ⟨rfl, rfl⟩

theorem settled_var_of_unbound {n : String} (h : sub n = none) : Settled sub (.var n) :=
  ⟨rfl, by simp [simplifyWith, h]⟩

theorem settled_unary {op : UnaryOp} : Settled sub (.unary op a) ↔ Settled sub a := by
  constructor
  · intro h
    exact ⟨h.wellFormed, (Expr.unary.inj h.unchanged).2⟩
  · intro h
    exact ⟨h.wellFormed, congrArg (Expr.unary op) h.unchanged⟩

theorem settled_request {r : Request} : Settled sub (.request r a) ↔ Settled sub a := by
  constructor
  · intro h
    exact ⟨h.wellFormed, (Expr.request.inj h.unchanged).2⟩
  · intro h
    exact ⟨h.wellFormed, congrArg (Expr.request r) h.unchanged⟩

theorem settled_plot {s l h t : Expr} :
    Settled sub (.plot e s l h t) ↔
      Settled sub e ∧ Settled sub s ∧ Settled sub l ∧ Settled sub h ∧ Settled sub t := by
  constructor
  · intro hp
    obtain ⟨we, ws, wl, wh, wt⟩ := (Expr.wellFormed_plot e s l h t).mp hp.wellFormed
    obtain ⟨he, hs, hl, hh, ht⟩ := Expr.plot.inj hp.unchanged
    exact ⟨⟨we, he⟩, ⟨ws, hs⟩, ⟨wl, hl⟩, ⟨wh, hh⟩, ⟨wt, ht⟩⟩
  · intro hp
    obtain ⟨he, hs, hl, hh, ht⟩ := hp
    refine ⟨?_, ?_⟩
    · rw [Expr.wellFormed_plot]
      exact ⟨he.wellFormed, hs.wellFormed, hl.wellFormed, hh.wellFormed, ht.wellFormed⟩
    · rw [simplifyWith, he.unchanged, hs.unchanged, hl.unchanged, hh.unchanged, ht.unchanged]

theorem fold_eq_binary {op : BinaryOp} (h : fold op c d = .binary op a b) : c = a ∧ d = b := by
  rcases fold_cases op c d with ⟨x, y, -, -, -, hfold⟩ | ⟨-, hfold⟩
  · rw [hfold] at h
    cases h
  · rw [hfold] at h
    exact (Expr.binary.inj h).2

/-- A number that was folded is settled, and so were the two numbers it was made of. -/
theorem settled_fold {op : BinaryOp} : Settled sub (fold op a b) ↔ Settled sub a ∧ Settled sub b := by
  rcases fold_cases op a b with ⟨x, y, -, rfl, rfl, hfold⟩ | ⟨-, hfold⟩
  · rw [hfold]
    exact ⟨fun _ => ⟨settled_num x, settled_num y⟩, fun _ => settled_num _⟩
  · constructor
    · intro h
      rw [hfold] at h
      obtain ⟨wa, wb⟩ := (Expr.wellFormed_binary op a b).mp h.wellFormed
      obtain ⟨ha, hb⟩ := fold_eq_binary h.unchanged
      exact ⟨⟨wa, ha⟩, ⟨wb, hb⟩⟩
    · intro h
      obtain ⟨ha, hb⟩ := h
      refine ⟨wellFormed_fold ha.wellFormed hb.wellFormed, ?_⟩
      rw [hfold, simplifyWith, ha.unchanged, hb.unchanged, hfold]

/-- All that a second pass may find to do lies in the trees that the first has put in. -/
theorem settled_simplifyWith (he : e.WellFormed) :
    Settled sub (simplifyWith sub e) ↔ ∀ n ∈ e.occurrences, ∀ t, sub n = some t → Settled sub t := by
  induction e with
  | num x => simp [simplifyWith, settled_num, Expr.occurrences]
  | var n =>
    cases ht : sub n with
    | none => simp [simplifyWith, ht, settled_var_of_unbound ht, Expr.occurrences]
    | some t => simp [simplifyWith, ht, Expr.occurrences]
  | unary op a ih =>
    rw [simplifyWith, settled_unary]
    exact ih he
  | binary op a b iha ihb =>
    obtain ⟨ha, hb⟩ := (Expr.wellFormed_binary op a b).mp he
    rw [simplifyWith, settled_fold, iha ha, ihb hb, Expr.occurrences, List.forall_mem_append]
  | request r a ih =>
    rw [simplifyWith, settled_request]
    exact ih he
  | plot e s l h t ihe ihs ihl ihh iht =>
    obtain ⟨we, ws, wl, wh, wt⟩ := (Expr.wellFormed_plot e s l h t).mp he
    rw [simplifyWith, settled_plot, ihe we, ihs ws, ihl wl, ihh wh, iht wt]
    simp only [Expr.occurrences, List.forall_mem_append]
  | foreign v => exact absurd he (Expr.not_wellFormed_foreign v)

end Settled

/-- A second pass leaves a simplified tree as it is exactly if it leaves every tree as it is that was put in for a
bound name. So it does under all bindings whose trees a pass leaves as they are, and under none at all. -/
theorem simplify_settles [Numerics] (copying : Bool) (b : Bindings) {e : Expr} (he : e.WellFormed) :
    ∃ r, simplifyChecked copying b e = .ok r ∧
      (simplifyChecked copying b r = .ok r ↔
        ∀ n ∈ e.occurrences, ∀ t, b.get? n = some t → simplifyChecked copying b t = .ok t) := by
  refine ⟨simplify copying b e, simplifyChecked_ok copying b he, ?_⟩
  simp only [simplifyChecked_eq_self]
  rw [simplify_eq]
  exact settled_simplifyWith he

/-- A name bound to itself, one to a tree that mentions it, and one to a number. -/
def selfBound : Bindings :=
  Dictionary.ofList 1
    [("x", .var "x"), ("y", .unary .sin (.binary .mul (.var "x") (.var "z"))), ("k", .num 3)]

/-- The sum in front is folded, and the tree that `y` stands for is put in beside it. -/
def readings : Expr :=
  .binary .sub (.binary .mul (.binary .add (.var "k") (.num 2)) (.var "y")) (.unary .cos (.var "x"))

open scoped Elementary in
theorem simplify_settles_selfBound :
    readings.WellFormed ∧
      (∀ n ∈ readings.occurrences, ∀ t, selfBound.get? n = some t → simplifyChecked false selfBound t = .ok t) ∧
      ∃ r, simplifyChecked false selfBound readings = .ok r ∧ r ≠ readings ∧
        simplifyChecked false selfBound r = .ok r := by
  have htrees : ∀ n ∈ readings.occurrences, ∀ t, selfBound.get? n = some t →
      simplifyChecked false selfBound t = .ok t := by
    intro n hn t ht
    simp only [readings, Expr.occurrences, List.cons_append, List.nil_append, List.mem_cons,
      List.not_mem_nil, or_false] at hn
    rcases hn with rfl | rfl | rfl
    · cases ht
      rfl
    · cases ht
      rfl
    · cases ht
      rfl
  obtain ⟨r, hr, hsettled⟩ := simplify_settles false selfBound (e := readings) (by decide)
  refine ⟨by decide, htrees, r, hr, ?_, hsettled.mpr htrees⟩
  cases hr
  decide

/-! ## Names -/

/-- The names that occur in a tree, with those of the bound trees in the places of the names that are bound. -/
def substitutedNames (b : Bindings) (e : Expr) : List String :=
  e.occurrences.flatMap fun n =>
    match b.get? n with
    | some t => t.occurrences
    | none => [n]

/-- Folding drops trees without variables only. -/
theorem occurrences_simplify [Numerics] (copying : Bool) (b : Bindings) (e : Expr) :
    (simplify copying b e).occurrences = substitutedNames b e := by
  rw [simplify_eq, occurrences_simplifyWith, substitutedNames]
  congr 1
  funext n
  cases b.get? n with
  | none => rfl
  | some t => rfl

/-- The variables of a simplified tree are the names that its occurrences were replaced by, each of them once and
in the order in which they are met first. -/
theorem variableNames_simplify [Numerics] (copying : Bool) (b : Bindings) {e : Expr} (he : e.WellFormed) :
    ∃ r, simplifyChecked copying b e = .ok r ∧ FirstMet r.variableNames (substitutedNames b e) := by
  refine ⟨simplify copying b e, simplifyChecked_ok copying b he, ?_⟩
  rw [Expr.variableNames_eq, occurrences_simplify]
  exact firstMet_eraseDups _

/-- Two names whose trees mention each other, and one bound to a number. -/
def exchanged : Bindings :=
  Dictionary.ofList 1
    [("x", .binary .mul (.var "y") (.var "z")), ("y", .binary .add (.var "x") (.num 1)), ("k", .num 3)]

/-- `k` goes without leaving a name, `x` leaves two and `y` leaves `x`, which is not replaced again. -/
def crossing : Expr :=
  .binary .sub (.binary .mul (.binary .add (.var "k") (.num 2)) (.var "x"))
    (.binary .div (.var "w") (.binary .add (.var "y") (.var "x")))

open scoped Elementary in
theorem variableNames_simplify_exchanged :
    crossing.WellFormed ∧ substitutedNames exchanged crossing = ["y", "z", "w", "x", "y", "z"] ∧
      ∃ r, simplifyChecked true exchanged crossing = .ok r ∧
        FirstMet r.variableNames (substitutedNames exchanged crossing) :=
  ⟨by decide, rfl, variableNames_simplify true exchanged (by decide)⟩

end ArithTree
