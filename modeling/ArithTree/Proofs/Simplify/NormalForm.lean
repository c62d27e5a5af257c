import ArithTree.Elementary.Rounded
import ArithTree.Proofs.Evaluate.Rank
import ArithTree.Proofs.Simplify.Pass

/-!
# ArithTree.Proofs.Simplify.NormalForm

Where repeated simplification ends. A pass puts in the trees of bound names as they are, so it only
takes every name one step closer to the names that nothing is bound to, and what it has put in is
folded by the next pass. Where the bindings have no cycle, as many passes as there are bindings leave
no bound name, one more leaves nothing to fold, and the tree does not change any more.

* `Stage.pass`: what a pass does to a tree on the way to its normal form.
* `simplifyTimes_normalForm`: the tree after one pass more than there are bindings.
-/

namespace ArithTree

/-- So many passes, each over the result of the one before. -/
def simplifyTimes [Numerics] (copying : Bool) (b : Bindings) : Nat → Expr → Except Failure Expr
  | 0, e => .ok e
  | k + 1, e =>
    match simplifyChecked copying b e with
    | .error f => .error f
    | .ok r => simplifyTimes copying b k r

variable {b : Bindings} {e r : Expr} {n : String}

/-! ## On the way -/

/-- What is known of a tree that passes over `e` have led to: its names are `k` steps away from
those that nothing is bound to. -/
structure Stage [Numerics] (b : Bindings) (e : Expr) (k : Nat) (r : Expr) : Prop where
  wellFormed : r.WellFormed
  rank : ∀ n ∈ r.occurrences, RankAtMost b k n
  value : blur (evaluate b r) = blur (evaluate b e)
  reachable : ∀ n, Reachable b r n → Reachable b e n
  polynomial : e.Polynomial →
    (∀ n, Reachable b e n → ∃ t, b.get? n = some t ∧ t.Polynomial) → r.Polynomial

theorem extends_refl (b : Bindings) : Extends b b := fun _ _ h => h

namespace Stage

variable [Numerics]

theorem start (hb : Acyclic b) (he : e.WellFormed) : Stage b e b.size e where
  wellFormed := he
  rank n _ := rankAtMost_size hb n
  value := rfl
  reachable _ h := h
  polynomial h _ := h

/-- A pass takes the names one step further, as long as there are steps to take. -/
theorem pass (hb : TreesWellFormed b) (copying : Bool) {k : Nat} (h : Stage b e k r) :
    Stage b e (k - 1) (simplify copying b r) where
  wellFormed := by
    rw [simplify_eq]
    exact wellFormed_simplifyWith (fun _ _ => hb.of_get?) h.wellFormed
  rank n hn := by
    rcases mem_occurrences_simplify.mp hn with ⟨-, hnone⟩ | ⟨m, hm, hmn⟩
    · exact rankAtMost_of_unbound hnone (k - 1)
    · have hrank := h.rank m hm
      cases k with
      | zero =>
        obtain ⟨t, ht, -⟩ := hmn
        rw [show b.get? m = none from hrank] at ht
        cases ht
      | succ k => exact hrank n hmn
  value := (blur_evaluate_simplify copying (extends_refl b) r).trans h.value
  reachable n hn := h.reachable n (reachable_of_simplify hn)
  polynomial he hbound := by
    rw [simplify_eq]
    refine polynomial_simplifyWith (h.polynomial he hbound) fun n hn t ht => ?_
    obtain ⟨t', ht', hp⟩ := hbound n (h.reachable n (.occurs hn))
    rw [ht] at ht'
    cases ht'
    exact hp

theorem unbound (h : Stage b e 0 r) : ∀ n ∈ r.occurrences, b.get? n = none := h.rank

/-- As many passes as there are steps to take, and one that folds what the last has put in. -/
theorem passes (hb : TreesWellFormed b) (copying : Bool) (k : Nat) :
    ∀ r, Stage b e k r →
      ∃ s, simplifyTimes copying b (k + 1) r = .ok s ∧ Stage b e 0 s ∧ s.Folded := by
  induction k with
  | zero =>
    intro r h
    refine ⟨simplify copying b r, ?_, h.pass hb copying, ?_⟩
    · simp only [simplifyTimes, simplifyChecked_ok copying b h.wellFormed]
    · rw [simplify_eq]
      exact folded_simplifyWith h.unbound
  | succ k ih =>
    intro r h
    obtain ⟨s, hs, hstage⟩ := ih _ (h.pass hb copying)
    refine ⟨s, ?_, hstage⟩
    rw [simplifyTimes, simplifyChecked_ok copying b h.wellFormed]
    exact hs

end Stage

/-! ## The end -/

section

variable [Numerics]

theorem evaluate_unbound {b₀ : Bindings} (h₀ : ∀ n, b₀.get? n = none)
    (h : ∀ n ∈ r.occurrences, b.get? n = none) : evaluate b₀ r = evaluate b r := by
  refine evaluateWith_congr fun n hn => ?_
  have hleft := resolve_of_unbound (h₀ n) b₀.size []
  have hright := resolve_of_unbound (h n hn) b.size []
  rw [hleft, hright]

theorem evaluate_unbound_not_cyclic (hr : r.WellFormed) (h : ∀ n ∈ r.occurrences, b.get? n = none)
    (chain : List String) : evaluate b r ≠ .error (.cyclicBinding chain) := by
  intro hcyclic
  rcases evaluateWith_error hcyclic with ⟨n, hn, hread⟩ | ⟨s, -, heq⟩ | hforeign
  · rw [resolve_of_unbound (h n hn)] at hread
    cases hread
  · cases heq
  · exact hforeign hr

/-- What `r` is to `e` when no pass has anything left to do. -/
structure NormalForm (copying : Bool) (b : Bindings) (e r : Expr) : Prop where
  unbound : ∀ n ∈ r.occurrences, b.get? n = none
  folded : r.Folded
  stable : simplifyChecked copying b r = .ok r
  value : ∀ capacity, evaluate (Dictionary.ofCapacity capacity) r = evaluate b e
  number : e.Polynomial → (∀ n, Reachable b e n → ∃ t, b.get? n = some t ∧ t.Polynomial) →
    ∃ x, evaluate b e = .ok x ∧ r = .num x

theorem Stage.normalForm (copying : Bool) (h : Stage b e 0 r) (hf : r.Folded) :
    NormalForm copying b e r := by
  have hvalue : evaluate b e = evaluate b r := by
    refine eq_of_blur_eq h.value.symm fun chain => ?_
    exact evaluate_unbound_not_cyclic h.wellFormed h.unbound chain
  have hempty : ∀ capacity, evaluate (Dictionary.ofCapacity capacity) r = evaluate b r := by
    intro capacity
    exact evaluate_unbound (Dictionary.get?_ofCapacity capacity) h.unbound
  refine ⟨h.unbound, hf, ?_, fun capacity => (hempty capacity).trans hvalue.symm, ?_⟩
  · rw [simplifyChecked_ok copying b h.wellFormed, simplify_eq, simplifyWith_eq_self h.unbound hf]
  · intro he hbound
    have hnone : ∀ n, n ∉ r.occurrences := by
      intro n hn
      obtain ⟨t, ht, -⟩ := hbound n (h.reachable n (.occurs hn))
      rw [h.unbound n hn] at ht
      cases ht
    obtain ⟨x, rfl⟩ := (h.polynomial he hbound).eq_num hf hnone
    exact ⟨x, hvalue, rfl⟩

theorem simplifyTimes_normalForm (copying : Bool) (hb : TreesWellFormed b) (hacyclic : Acyclic b)
    (he : e.WellFormed) :
    ∃ r, simplifyTimes copying b (b.size + 1) e = .ok r ∧ NormalForm copying b e r := by
  obtain ⟨r, hr, hstage, hfolded⟩ := Stage.passes hb copying b.size e (.start hacyclic he)
  exact ⟨r, hr, hstage.normalForm copying hfolded⟩

end

/-- A chain of three names that ends at a sum of numbers. -/
def chained : Bindings :=
  Dictionary.ofList 1
    [("a", .binary .add (.var "b") (.num 1)), ("b", .binary .mul (.num 2) (.var "c")),
      ("c", .binary .add (.num 1) (.num 2))]

open scoped Elementary in
/-- One pass less than it takes leaves the sum as it was put in. -/
theorem simplifyTimes_normalForm_chained :
    TreesWellFormed chained ∧ Acyclic chained ∧ (Expr.var "a").WellFormed ∧
      simplifyTimes true chained chained.size (.var "a") =
        .ok (.binary .add (.binary .mul (.num 2) (.binary .add (.num 1) (.num 2))) (.num 1)) ∧
      ∃ r, simplifyTimes true chained (chained.size + 1) (.var "a") = .ok r ∧
        NormalForm true chained (.var "a") r :=
  have hacyclic : Acyclic chained := by
    refine acyclic_of_entries (fun n => if n = "a" then 2 else if n = "b" then 1 else 0) ?_
    decide
  ⟨by decide, hacyclic, by decide, rfl,
    simplifyTimes_normalForm true (by decide) hacyclic (by decide)⟩

end ArithTree
