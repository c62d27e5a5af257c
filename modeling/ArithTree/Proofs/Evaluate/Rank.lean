import ArithTree.Proofs.Evaluate.Reachability

/-!
# ArithTree.Proofs.Evaluate.Rank

How far a name is from the names that nothing is bound to. A name has rank at most `k` if every way
through the trees of bound names leaves the bindings after at most `k` of them (`RankAtMost`). Where
no bound name leads back to itself, the number of bindings is such a bound for every name
(`rankAtMost_size`), because a way through the bindings is a path without repetitions.
-/

namespace ArithTree

open Relation (TransGen)

/-- No name is mentioned, through any number of trees, by its own tree. -/
def Acyclic (b : Bindings) : Prop := ∀ n, ¬ TransGen (Mentions b) n n

def RankAtMost (b : Bindings) : Nat → String → Prop
  | 0, n => b.get? n = none
  | k + 1, n => ∀ m, Mentions b n m → RankAtMost b k m

variable {b : Bindings} {n : String}

/-- There is no cycle where every name is greater than all names in its tree. -/
theorem acyclic_of_entries (f : String → Nat)
    (h : ∀ en ∈ b.entries, ∀ n ∈ en.value.occurrences, f n < f en.key) : Acyclic b := by
  have hstep : ∀ m n, Mentions b m n → f n < f m := by
    rintro m n ⟨t, ht, hn⟩
    obtain ⟨en, hen, rfl, rfl⟩ := mem_entries_of_get? ht
    exact h en hen n hn
  have hway : ∀ m n, TransGen (Mentions b) m n → f n < f m := by
    intro m n hmn
    induction hmn with
    | single hm => exact hstep _ _ hm
    | tail _ hm ih => exact Nat.lt_trans (hstep _ _ hm) ih
  exact fun n hn => Nat.lt_irrefl _ (hway n n hn)

theorem rankAtMost_of_unbound (h : b.get? n = none) (k : Nat) : RankAtMost b k n := by
  cases k with
  | zero => exact h
  | succ k =>
    rintro m ⟨t, ht, -⟩
    rw [h] at ht
    cases ht

/-- By induction on the steps left: what a name mentions is off the path that leads to it. -/
theorem rankAtMost_of_trail (hb : Acyclic b) (left : Nat) :
    ∀ (path : List String) (n : String), Trail b path → b.size ≤ left + path.length →
      (∀ p ∈ path, TransGen (Mentions b) p n) → RankAtMost b left n := by
  induction left with
  | zero =>
    intro path n htrail hs hpath
    cases ht : b.get? n with
    | none => exact ht
    | some t => exact absurd (hpath n (htrail.mem_of_size_le (by omega) ht)) (hb n)
  | succ left ih =>
    rintro path n htrail hs hpath m ⟨t, ht, hm⟩
    have hn : n ∉ path := fun hmem => hb n (hpath n hmem)
    have hnm : Mentions b n m := ⟨t, ht, hm⟩
    refine ih (path ++ [n]) m (htrail.extend ht hn) ?_ (leads_append hpath hnm)
    rw [List.length_append, List.length_singleton]
    omega

theorem rankAtMost_size (hb : Acyclic b) (n : String) : RankAtMost b b.size n :=
  rankAtMost_of_trail hb b.size [] n (Trail.nil b) (by simp) (by simp)

end ArithTree
