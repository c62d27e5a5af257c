import ArithTree.Expr.Variables
import ArithTree.Proofs.Expr.Occurrences
import Mathlib.Data.List.Basic

/-!
# ArithTree.Proofs.Expr.Traversal

The order in which names are listed. The walk with a stack meets the variables of a tree in the order in which a
recursion on the tree does, and a name is listed where it is met first. Repetitions can be dropped at every level
of a tree or once at the end: the list is the same.

* `filterMap_walk`, `variableNames_eq`: the walk against the recursion.
* `filter_eraseDups`: what is left out may be left out before or after repetitions are dropped.
* `eraseDups_append_eraseDups`, `eraseDups_append_congr`: repetitions may be dropped in the parts before they are
  dropped in the whole.
* `FirstMet`, `firstMet_eraseDups`: what the list without repetitions is, said without a way to make it.
-/

namespace ArithTree

/-! ## Lists without repetitions -/

section Distinct

variable {α : Type} [BEq α]

/-- Induction along the elements that are met first. -/
theorem firstMet_induction {motive : List α → Prop} (nil : motive [])
    (cons : ∀ a as, motive (as.filter fun b => !b == a) → motive (a :: as)) : ∀ as, motive as
  | [] => nil
  | a :: as => cons a as (firstMet_induction nil cons (as.filter fun b => !b == a))
  termination_by as => as.length
  decreasing_by exact Nat.lt_succ_of_le (List.length_filter_le _ as)

variable [LawfulBEq α]

theorem nodup_eraseDups (as : List α) : as.eraseDups.Nodup := by
  induction as using firstMet_induction with
  | nil => simp
  | cons a as ih =>
    rw [List.eraseDups_cons, List.nodup_cons, List.mem_eraseDups]
    exact ⟨by simp, ih⟩

theorem filter_eraseDups (p : α → Bool) (as : List α) :
    as.eraseDups.filter p = (as.filter p).eraseDups := by
  induction as using firstMet_induction with
  | nil => simp
  | cons a as ih =>
    rw [List.eraseDups_cons]
    by_cases ha : p a = true
    · rw [List.filter_cons_of_pos ha, List.filter_cons_of_pos ha, ih, List.eraseDups_cons,
        List.filter_filter, List.filter_filter]
      simp only [Bool.and_comm]
    · rw [List.filter_cons_of_neg ha, List.filter_cons_of_neg ha, ih, List.filter_filter]
      -- What passes `p` is not `a`.
      congr 1
      refine List.filter_congr fun b _ => ?_
      by_cases hb : b = a
      · subst hb
        simp [ha]
      · simp [hb]

theorem eraseDups_eraseDups (as : List α) : as.eraseDups.eraseDups = as.eraseDups := by
  induction as using firstMet_induction with
  | nil => simp
  | cons a as ih =>
    rw [List.eraseDups_cons, List.eraseDups_cons, filter_eraseDups, List.filter_filter]
    simp only [Bool.and_self, ih]

theorem eraseDups_append_eraseDups (as bs : List α) :
    (as.eraseDups ++ bs.eraseDups).eraseDups = (as ++ bs).eraseDups := by
  have hremove : bs.eraseDups.removeAll as.eraseDups = (bs.removeAll as).eraseDups := by
    show bs.eraseDups.filter (fun b => !as.eraseDups.elem b) = (bs.filter fun b => !as.elem b).eraseDups
    rw [filter_eraseDups]
    simp only [List.elem_eq_contains, List.contains_eq_mem, List.mem_eraseDups]
  rw [List.eraseDups_append, List.eraseDups_append, hremove, eraseDups_eraseDups, eraseDups_eraseDups]

theorem eraseDups_append_congr {as as' bs bs' : List α} (ha : as.eraseDups = as'.eraseDups)
    (hb : bs.eraseDups = bs'.eraseDups) : (as ++ bs).eraseDups = (as' ++ bs').eraseDups := by
  rw [← eraseDups_append_eraseDups as, ha, hb, eraseDups_append_eraseDups]

/-- The elements of `all`, each of them once and in the order in which they are met first. -/
structure FirstMet (names all : List α) : Prop where
  nodup : names.Nodup
  mem : ∀ n, n ∈ names ↔ n ∈ all
  order : names.Pairwise fun m n => all.idxOf m < all.idxOf n

/-- Of two elements that are kept, the one that is met first is still met first. -/
theorem idxOf_lt_of_filter {p : α → Bool} {m n : α} (hm : p m = true) (hn : p n = true) (as : List α)
    (h : (as.filter p).idxOf m < (as.filter p).idxOf n) : as.idxOf m < as.idxOf n := by
  induction as with
  | nil => simp at h
  | cons a as ih =>
    by_cases han : a = n
    · subst han
      rw [List.filter_cons_of_pos hn, List.idxOf_cons_self] at h
      exact absurd h (Nat.not_lt_zero _)
    · rw [List.idxOf_cons_ne _ han]
      by_cases ham : a = m
      · subst ham
        rw [List.idxOf_cons_self]
        exact Nat.succ_pos _
      · rw [List.idxOf_cons_ne _ ham]
        refine Nat.succ_lt_succ (ih ?_)
        by_cases ha : p a = true
        · rw [List.filter_cons_of_pos ha, List.idxOf_cons_ne _ han, List.idxOf_cons_ne _ ham] at h
          exact Nat.lt_of_succ_lt_succ h
        · rwa [List.filter_cons_of_neg ha] at h

theorem firstMet_eraseDups (as : List α) : FirstMet as.eraseDups as where
  nodup := nodup_eraseDups as
  mem _ := List.mem_eraseDups
  order := by
    induction as using firstMet_induction with
    | nil => simp
    | cons a as ih =>
      have hne : ∀ n ∈ (as.filter fun b => !b == a).eraseDups, a ≠ n := by
        intro n hn heq
        rw [List.mem_eraseDups, List.mem_filter, heq] at hn
        simp at hn
      rw [List.eraseDups_cons, List.pairwise_cons]
      constructor
      · intro n hn
        rw [List.idxOf_cons_self, List.idxOf_cons_ne _ (hne n hn)]
        exact Nat.succ_pos _
      · refine ih.imp_of_mem ?_
        intro m n hm hn hlt
        rw [List.idxOf_cons_ne _ (hne m hm), List.idxOf_cons_ne _ (hne n hn)]
        refine Nat.succ_lt_succ (idxOf_lt_of_filter ?_ ?_ as hlt)
        · simpa using Ne.symm (hne m hm)
        · simpa using Ne.symm (hne n hn)

end Distinct

/-! ## The walk -/

namespace Expr

theorem occurrences_eq (e : Expr) :
    e.occurrences = e.asVariable?.toList ++ e.operands.flatMap occurrences := by
  cases e <;> simp [occurrences, asVariable?, operands]

/-- By induction on the nodes left. The operands of a node go on top of the stack, so they are walked before what
was on the stack already. -/
theorem filterMap_walk (stack : List Expr) :
    (walk stack).filterMap asVariable? = stack.flatMap occurrences := by
  induction stack using walk.induct with
  | case1 => simp [walk]
  | case2 e rest ih =>
    rw [walk, List.filterMap_cons, List.flatMap_cons, occurrences_eq e]
    rw [List.flatMap_append] at ih
    cases e.asVariable? with
    | none => simpa using ih
    | some n => simpa using ih

theorem variableNames_eq (e : Expr) : e.variableNames = e.occurrences.eraseDups := by
  rw [variableNames, nodes, filterMap_walk]
  simp

end Expr
end ArithTree
