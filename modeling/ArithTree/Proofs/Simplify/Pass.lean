import ArithTree.Proofs.Evaluate.Reachability
import ArithTree.Proofs.Simplify.Meaning

/-!
# ArithTree.Proofs.Simplify.Pass

What one pass of simplification makes of a tree, apart from its value.

* `mem_occurrences_simplify`, `reachable_of_simplify`: the names after a pass.
* `folded_simplifyWith`, `simplifyWith_eq_self`: where no name is bound, a pass folds everything there
  is to fold, and the next changes nothing.
-/

namespace ArithTree

namespace Expr

/-- No sum, difference or product of two numbers is left. -/
def Folded : Expr → Prop
  | .num _ | .var _ | .foreign _ => True
  | .unary _ a => a.Folded
  | .binary op a b =>
    ¬ (op.foldable = true ∧ a.isNumber = true ∧ b.isNumber = true) ∧ a.Folded ∧ b.Folded
  | .request _ a => a.Folded
  | .plot e s l h t => e.Folded ∧ s.Folded ∧ l.Folded ∧ h.Folded ∧ t.Folded

/-- Sums, differences and products of numbers and variables. -/
def Polynomial : Expr → Prop
  | .num _ | .var _ => True
  | .binary op a b => op.foldable = true ∧ a.Polynomial ∧ b.Polynomial
  | .unary .. | .request .. | .plot .. | .foreign _ => False

theorem isNumber_iff {e : Expr} : e.isNumber = true ↔ ∃ x, e = .num x := by
  cases e <;> simp [isNumber, kind?]

end Expr

theorem simplifyChecked_ok [Numerics] (copying : Bool) (b : Bindings) {e : Expr} (he : e.WellFormed) :
    simplifyChecked copying b e = .ok (simplify copying b e) := by
  have hf : e.foreign? = none := he
  simp only [simplifyChecked, hf]

/-! ## Folding -/

section Fold

variable [Numerics] {op : BinaryOp} {a b : Expr}

/-- Folding gives a number in the place of two, or puts the operands together. -/
theorem fold_cases (op : BinaryOp) (a b : Expr) :
    (∃ x y, op.foldable = true ∧ a = .num x ∧ b = .num y ∧ fold op a b = .num (op.apply x y)) ∨
      (¬ (op.foldable = true ∧ a.isNumber = true ∧ b.isNumber = true) ∧
        fold op a b = .binary op a b) := by
  by_cases h : op.foldable = true ∧ a.isNumber = true ∧ b.isNumber = true
  · obtain ⟨hop, ha, hb⟩ := h
    obtain ⟨x, rfl⟩ := Expr.isNumber_iff.mp ha
    obtain ⟨y, rfl⟩ := Expr.isNumber_iff.mp hb
    exact .inl ⟨x, y, hop, rfl, rfl, by simp only [fold, hop, if_true]⟩
  · refine .inr ⟨h, ?_⟩
    unfold fold
    split
    · rename_i x y
      have hop : ¬ op.foldable = true := fun hop => h ⟨hop, rfl, rfl⟩
      simp only [hop, Bool.false_eq_true, if_false]
    · rfl

theorem occurrences_fold : (fold op a b).occurrences = a.occurrences ++ b.occurrences := by
  rcases fold_cases op a b with ⟨x, y, -, rfl, rfl, h⟩ | ⟨-, h⟩
  · rw [h]
    rfl
  · rw [h]
    rfl

theorem fold_elim {P : Expr → Prop} (hnum : ∀ x, P (.num x))
    (hbinary : ¬ (op.foldable = true ∧ a.isNumber = true ∧ b.isNumber = true) → P (.binary op a b)) :
    P (fold op a b) := by
  rcases fold_cases op a b with ⟨x, y, -, -, -, h⟩ | ⟨hopen, h⟩
  · rw [h]
    exact hnum _
  · rw [h]
    exact hbinary hopen

theorem wellFormed_fold (ha : a.WellFormed) (hb : b.WellFormed) : (fold op a b).WellFormed :=
  fold_elim Expr.wellFormed_num fun _ => (Expr.wellFormed_binary op a b).mpr ⟨ha, hb⟩

theorem folded_fold (ha : a.Folded) (hb : b.Folded) : (fold op a b).Folded :=
  fold_elim (fun _ => trivial) fun hopen => ⟨hopen, ha, hb⟩

theorem polynomial_fold (hop : op.foldable = true) (ha : a.Polynomial) (hb : b.Polynomial) :
    (fold op a b).Polynomial :=
  fold_elim (fun _ => trivial) fun _ => ⟨hop, ha, hb⟩

end Fold

/-! ## One pass -/

section Pass

variable [Numerics] {sub : String → Option Expr} {e : Expr}

theorem occurrences_simplifyWith (sub : String → Option Expr) (e : Expr) :
    (simplifyWith sub e).occurrences =
      e.occurrences.flatMap fun n => ((sub n).getD (.var n)).occurrences := by
  induction e with
  | num x => rfl
  | var n => simp [simplifyWith, Expr.occurrences]
  | unary op a ih => exact ih
  | binary op a b iha ihb =>
    rw [simplifyWith, occurrences_fold, iha, ihb, Expr.occurrences, List.flatMap_append]
  | request r a ih => exact ih
  | plot e s l h t ihe ihs ihl ihh iht =>
    simp only [simplifyWith, Expr.occurrences, List.flatMap_append, ihe, ihs, ihl, ihh, iht]
  | foreign v => rfl

theorem wellFormed_simplifyWith (hsub : ∀ n t, sub n = some t → t.WellFormed) (he : e.WellFormed) :
    (simplifyWith sub e).WellFormed := by
  induction e with
  | num x => exact he
  | var n =>
    cases ht : sub n with
    | none => simp [simplifyWith, ht]
    | some t => simpa [simplifyWith, ht] using hsub n t ht
  | unary op a ih => exact ih he
  | binary op a b iha ihb =>
    obtain ⟨ha, hb⟩ := (Expr.wellFormed_binary op a b).mp he
    exact wellFormed_fold (iha ha) (ihb hb)
  | request r a ih => exact ih he
  | plot e s l h t ihe ihs ihl ihh iht =>
    obtain ⟨he', hs, hl, hh, ht⟩ := (Expr.wellFormed_plot e s l h t).mp he
    exact (Expr.wellFormed_plot ..).mpr ⟨ihe he', ihs hs, ihl hl, ihh hh, iht ht⟩
  | foreign v => exact he

theorem polynomial_simplifyWith (he : e.Polynomial)
    (hsub : ∀ n ∈ e.occurrences, ∀ t, sub n = some t → t.Polynomial) :
    (simplifyWith sub e).Polynomial := by
  induction e with
  | num x => exact he
  | var n =>
    cases ht : sub n with
    | none => simp [simplifyWith, ht, Expr.Polynomial]
    | some t => simpa [simplifyWith, ht] using hsub n (by simp [Expr.occurrences]) t ht
  | binary op a b iha ihb =>
    obtain ⟨hop, ha, hb⟩ := he
    refine polynomial_fold hop (iha ha fun n hn => ?_) (ihb hb fun n hn => ?_)
    · exact hsub n (List.mem_append_left _ hn)
    · exact hsub n (List.mem_append_right _ hn)
  | unary op a ih => exact he.elim
  | request r a ih => exact he.elim
  | plot e s l h t ihe ihs ihl ihh iht => exact he.elim
  | foreign v => exact he.elim

theorem folded_simplifyWith (hsub : ∀ n ∈ e.occurrences, sub n = none) :
    (simplifyWith sub e).Folded := by
  induction e with
  | num x => trivial
  | var n => simp [simplifyWith, hsub n (by simp [Expr.occurrences]), Expr.Folded]
  | unary op a ih => exact ih hsub
  | binary op a b iha ihb =>
    refine folded_fold (iha fun n hn => ?_) (ihb fun n hn => ?_)
    · exact hsub n (List.mem_append_left _ hn)
    · exact hsub n (List.mem_append_right _ hn)
  | request r a ih => exact ih hsub
  | plot e s l h t ihe ihs ihl ihh iht =>
    simp only [Expr.occurrences, List.forall_mem_append] at hsub
    obtain ⟨he, hs, hl, hh, ht⟩ := hsub
    exact ⟨ihe he, ihs hs, ihl hl, ihh hh, iht ht⟩
  | foreign v => trivial

theorem simplifyWith_eq_self (hsub : ∀ n ∈ e.occurrences, sub n = none) (he : e.Folded) :
    simplifyWith sub e = e := by
  induction e with
  | num x => rfl
  | var n => simp [simplifyWith, hsub n (by simp [Expr.occurrences])]
  | unary op a ih => rw [simplifyWith, ih hsub he]
  | binary op a b iha ihb =>
    obtain ⟨hopen, ha, hb⟩ := he
    rw [simplifyWith, iha (fun n hn => hsub n (List.mem_append_left _ hn)) ha,
      ihb (fun n hn => hsub n (List.mem_append_right _ hn)) hb]
    rcases fold_cases op a b with ⟨x, y, hop, rfl, rfl, -⟩ | ⟨-, h⟩
    · exact absurd ⟨hop, rfl, rfl⟩ hopen
    · exact h
  | request r a ih => rw [simplifyWith, ih hsub he]
  | plot e s l h t ihe ihs ihl ihh iht =>
    simp only [Expr.occurrences, List.forall_mem_append] at hsub
    obtain ⟨hne, hns, hnl, hnh, hnt⟩ := hsub
    obtain ⟨he', hs, hl, hh, ht⟩ := he
    rw [simplifyWith, ihe hne he', ihs hns hs, ihl hnl hl, ihh hnh hh, iht hnt ht]
  | foreign v => rfl

end Pass

theorem Expr.Polynomial.eq_num {e : Expr} (h : e.Polynomial) (hf : e.Folded)
    (ho : ∀ n, n ∉ e.occurrences) : ∃ x, e = .num x := by
  induction e with
  | num x => exact ⟨x, rfl⟩
  | var n => exact absurd (by simp [occurrences]) (ho n)
  | binary op a b iha ihb =>
    obtain ⟨hop, ha, hb⟩ := h
    obtain ⟨hopen, hfa, hfb⟩ := hf
    have hna := iha ha hfa fun n hn => ho n (List.mem_append_left _ hn)
    have hnb := ihb hb hfb fun n hn => ho n (List.mem_append_right _ hn)
    exact absurd ⟨hop, isNumber_iff.mpr hna, isNumber_iff.mpr hnb⟩ hopen
  | unary op a ih => exact h.elim
  | request r a ih => exact h.elim
  | plot e s l h t ihe ihs ihl ihh iht => exact h.elim
  | foreign v => exact h.elim

/-! ## Names -/

variable {b : Bindings} {e : Expr} {n : String}

theorem mem_occurrences_simplify [Numerics] {copying : Bool} :
    n ∈ (simplify copying b e).occurrences ↔
      (n ∈ e.occurrences ∧ b.get? n = none) ∨ ∃ m ∈ e.occurrences, Mentions b m n := by
  rw [simplify_eq, occurrences_simplifyWith, List.mem_flatMap]
  constructor
  · rintro ⟨m, hm, hn⟩
    cases ht : b.get? m with
    | none =>
      simp only [ht, Option.getD_none, Expr.occurrences, List.mem_singleton] at hn
      exact .inl ⟨hn ▸ hm, hn ▸ ht⟩
    | some t =>
      rw [ht] at hn
      exact .inr ⟨m, hm, t, ht, hn⟩
  · rintro (⟨hn, hnone⟩ | ⟨m, hm, t, ht, hn⟩)
    · exact ⟨n, hn, by simp [hnone, Expr.occurrences]⟩
    · exact ⟨m, hm, by simpa [ht] using hn⟩

theorem reachable_of_simplify [Numerics] {copying : Bool} (h : Reachable b (simplify copying b e) n) :
    Reachable b e n := by
  induction h with
  | occurs hn =>
    rcases mem_occurrences_simplify.mp hn with ⟨hn, -⟩ | ⟨m, hm, hmn⟩
    · exact .occurs hn
    · exact .mentioned (.occurs hm) hmn
  | mentioned _ hm ih => exact .mentioned ih hm

end ArithTree
