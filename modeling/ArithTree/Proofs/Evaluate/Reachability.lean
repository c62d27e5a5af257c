import ArithTree.Elementary.Rounded
import ArithTree.Proofs.Evaluate.Path

/-!
# ArithTree.Proofs.Evaluate.Reachability

When a tree has a value. The bindings are read as a graph on names, with an edge from a name to
every name that its tree mentions; what an evaluation can meet is what is reachable in that graph
from the names of the tree.

* `resolve_ok_step`: a name with a value is bound, is not on the path, and everything its tree
  mentions has a value along the path with the name added.
* `evaluate_ok_iff`: a tree has a value exactly if all reachable names are bound, no cycle is
  reachable, and no command is.
-/

namespace ArithTree

open Relation (TransGen)

/-- No foreign value in any bound tree. -/
def TreesWellFormed (b : Bindings) : Prop := ∀ en ∈ b.entries, en.value.WellFormed

instance (b : Bindings) : Decidable (TreesWellFormed b) :=
  inferInstanceAs (Decidable (∀ en ∈ b.entries, en.value.WellFormed))

theorem TreesWellFormed.of_get? {b : Bindings} (h : TreesWellFormed b) {n : String} {t : Expr}
    (ht : b.get? n = some t) : t.WellFormed := by
  obtain ⟨en, hen, -, rfl⟩ := mem_entries_of_get? ht
  exact h en hen

theorem TreesWellFormed.insert {b : Bindings} (h : TreesWellFormed b) (hb : b.WellFormed)
    (n : String) {t : Expr} (ht : t.WellFormed) : TreesWellFormed (b.insert n t) := by
  intro en hen
  rw [(hb.insert n t).2] at hen
  rcases Entries.mem_insert hen with hen | ⟨hvalue, -⟩
  · exact h en hen
  · exact hvalue ▸ ht

/-- The tree bound to `m` mentions `n`. -/
def Mentions (b : Bindings) (m n : String) : Prop := ∃ t, b.get? m = some t ∧ n ∈ t.occurrences

/-- Names that occur in a tree, or in the tree of a reachable name. -/
inductive Reachable (b : Bindings) (e : Expr) : String → Prop where
  | occurs {n : String} : n ∈ e.occurrences → Reachable b e n
  | mentioned {m n : String} : Reachable b e m → Mentions b m n → Reachable b e n

variable {b : Bindings} {e : Expr} {left : Nat} {path : List String} {n m : String}

theorem Reachable.mono {e' : Expr} (hsub : e.occurrences ⊆ e'.occurrences) (h : Reachable b e n) :
    Reachable b e' n := by
  induction h with
  | occurs hn => exact .occurs (hsub hn)
  | mentioned _ hm ih => exact .mentioned ih hm

/-- What is reachable from a bound tree is reachable from its name. -/
theorem Reachable.of_bound {t : Expr} (ht : b.get? m = some t) (h : Reachable b t n) : Reachable b (.var m) n := by
  induction h with
  | occurs hn => exact .mentioned (.occurs (List.mem_singleton_self m)) ⟨t, ht, hn⟩
  | mentioned _ hm ih => exact .mentioned ih hm

/-- Names that include those of the tree and, with a name, all that its tree mentions include all reachable ones. -/
theorem Reachable.mem_of_closed {names : List String} (he : ∀ n ∈ e.occurrences, n ∈ names)
    (hb : ∀ en ∈ b.entries, en.key ∈ names → ∀ n ∈ en.value.occurrences, n ∈ names)
    (h : Reachable b e n) : n ∈ names := by
  induction h with
  | occurs hn => exact he _ hn
  | mentioned _ hm ih =>
    obtain ⟨t, ht, hn⟩ := hm
    obtain ⟨en, hen, rfl, rfl⟩ := mem_entries_of_get? ht
    exact hb en hen ih _ hn

/-- A path that leads to a name leads, with the name added, to what the name mentions. -/
theorem leads_append (h : ∀ p ∈ path, TransGen (Mentions b) p n) (hm : Mentions b n m) :
    ∀ p ∈ path ++ [n], TransGen (Mentions b) p m := by
  intro p hp
  rcases List.mem_append.mp hp with hp | hp
  · exact .tail (h p hp) hm
  · rw [List.mem_singleton] at hp
    exact hp ▸ .single hm

section

variable [Numerics]

theorem resolve_ok_step {x : Float} (h : resolve b left path n = .ok x) :
    n ∉ path ∧ ∃ t, b.get? n = some t ∧ t.commands = [] ∧
      ∀ m ∈ t.occurrences, ∃ left' y, resolve b left' (path ++ [n]) m = .ok y := by
  cases ht : b.get? n with
  | none => cases left <;> simp [resolve, ht] at h
  | some t =>
    cases left with
    | zero => simp [resolve, ht] at h
    | succ rest =>
      simp only [resolve, ht] at h
      split at h
      · cases h
      · rename_i hn
        obtain ⟨-, hc, ho⟩ := evaluateWith_isOk.mp ⟨x, h⟩
        exact ⟨hn, t, rfl, hc, fun m hm => ⟨rest, ho m hm⟩⟩

theorem resolve_ok_mentioned {x : Float} (h : resolve b left path n = .ok x)
    (hm : Mentions b n m) : ∃ left' y, resolve b left' (path ++ [n]) m = .ok y := by
  obtain ⟨t, ht, hocc⟩ := hm
  obtain ⟨-, t', ht', -, ho⟩ := resolve_ok_step h
  rw [ht] at ht'
  cases ht'
  exact ho m hocc

theorem resolve_ok_of_reachable {x : Float} (h : evaluate b e = .ok x) (hr : Reachable b e n) :
    ∃ left path y, resolve b left path n = .ok y := by
  induction hr with
  | occurs hn =>
    obtain ⟨-, -, ho⟩ := evaluateWith_isOk.mp ⟨x, h⟩
    obtain ⟨y, hy⟩ := ho _ hn
    exact ⟨b.size, [], y, hy⟩
  | mentioned _ hm ih =>
    obtain ⟨left, path, y, hy⟩ := ih
    obtain ⟨left', z, hz⟩ := resolve_ok_mentioned hy hm
    exact ⟨left', _, z, hz⟩

/-- What a name with a value leads to has a value too, along a path that holds the name. -/
theorem resolve_ok_of_transGen {x : Float} (h : resolve b left path n = .ok x)
    (ht : TransGen (Mentions b) n m) :
    ∃ left' path' y, n ∈ path' ∧ resolve b left' path' m = .ok y := by
  induction ht with
  | single hm =>
    obtain ⟨left', y, hy⟩ := resolve_ok_mentioned h hm
    exact ⟨left', path ++ [n], y, by simp, hy⟩
  | @tail c d _ hm ih =>
    obtain ⟨left', path', y, hmem, hy⟩ := ih
    obtain ⟨left'', z, hz⟩ := resolve_ok_mentioned hy hm
    exact ⟨left'', path' ++ [c], z, by simp [hmem], hz⟩

/-- Without a cycle no reachable name can be on the path that leads to it, so resolving it ends at
numbers. By induction on the steps left. -/
theorem resolve_ok_of_acyclic (hb : TreesWellFormed b)
    (hbound : ∀ m, Reachable b e m → ∃ t, b.get? m = some t)
    (hacyclic : ∀ m, Reachable b e m → ¬ TransGen (Mentions b) m m)
    (hcommands : ∀ m t, Reachable b e m → b.get? m = some t → t.commands = []) :
    ∀ left path n, Trail b path → b.size ≤ left + path.length → Reachable b e n →
      (∀ p ∈ path, TransGen (Mentions b) p n) → ∃ x, resolve b left path n = .ok x := by
  intro left
  induction left with
  | zero =>
    intro path n htrail hs hr hpath
    obtain ⟨t, ht⟩ := hbound n hr
    have hn := htrail.mem_of_size_le (by omega) ht
    exact absurd (hpath n hn) (hacyclic n hr)
  | succ left ih =>
    intro path n htrail hs hr hpath
    rcases resolve_step htrail hs n with
      ⟨hnone, -⟩ | ⟨hn, -⟩ | ⟨-, t, rest, ht, hl, htrail', hs', heq⟩
    · obtain ⟨t, ht⟩ := hbound n hr
      rw [ht] at hnone
      cases hnone
    · exact absurd (hpath n hn) (hacyclic n hr)
    · cases hl
      rw [heq]
      refine evaluateWith_isOk.mpr ⟨hb.of_get? ht, hcommands n t hr ht, fun m hm => ?_⟩
      have hnm : Mentions b n m := ⟨t, ht, hm⟩
      exact ih (path ++ [n]) m htrail' hs' (.mentioned hr hnm) (leads_append hpath hnm)

theorem evaluate_ok_iff (hb : TreesWellFormed b) (he : e.WellFormed) :
    (∃ x, evaluate b e = .ok x) ↔
      (∀ n, Reachable b e n → ∃ t, b.get? n = some t) ∧
        (∀ n, Reachable b e n → ¬ TransGen (Mentions b) n n) ∧
          e.commands = [] ∧ ∀ n t, Reachable b e n → b.get? n = some t → t.commands = [] := by
  constructor
  · rintro ⟨x, h⟩
    refine ⟨fun n hr => ?_, fun n hr hcycle => ?_, (evaluateWith_isOk.mp ⟨x, h⟩).2.1,
      fun n t hr ht => ?_⟩
    · obtain ⟨_, _, _, hy⟩ := resolve_ok_of_reachable h hr
      obtain ⟨-, t, ht, -⟩ := resolve_ok_step hy
      exact ⟨t, ht⟩
    · obtain ⟨_, _, _, hy⟩ := resolve_ok_of_reachable h hr
      obtain ⟨_, _, _, hmem, hz⟩ := resolve_ok_of_transGen hy hcycle
      exact (resolve_ok_step hz).1 hmem
    · obtain ⟨_, _, _, hy⟩ := resolve_ok_of_reachable h hr
      obtain ⟨-, t', ht', hc, -⟩ := resolve_ok_step hy
      rw [ht] at ht'
      cases ht'
      exact hc
  · rintro ⟨hbound, hacyclic, hc, hcommands⟩
    refine evaluateWith_isOk.mpr ⟨he, hc, fun n hn => ?_⟩
    exact resolve_ok_of_acyclic hb hbound hacyclic hcommands b.size [] n (Trail.nil b) (by simp)
      (.occurs hn) (by simp)

end

/-- `a` uses `b` twice, and `c`, which `a` has nothing to do with, refers to itself. -/
def sharedAndLooping : Bindings :=
  Dictionary.ofList 1
    [("a", .binary .mul (.var "b") (.var "b")), ("b", .unary .sin (.num 3)), ("c", .var "c")]

open scoped Elementary in
theorem evaluate_ok_iff_shared :
    TreesWellFormed sharedAndLooping ∧ (Expr.binary .sub (.var "a") (.var "b")).WellFormed ∧
      ((∃ x, evaluate sharedAndLooping (.binary .sub (.var "a") (.var "b")) = .ok x) ↔
        (∀ n, Reachable sharedAndLooping (.binary .sub (.var "a") (.var "b")) n →
            ∃ t, sharedAndLooping.get? n = some t) ∧
          (∀ n, Reachable sharedAndLooping (.binary .sub (.var "a") (.var "b")) n →
            ¬ TransGen (Mentions sharedAndLooping) n n) ∧
            (Expr.binary .sub (.var "a") (.var "b")).commands = [] ∧
              ∀ n t, Reachable sharedAndLooping (.binary .sub (.var "a") (.var "b")) n →
                sharedAndLooping.get? n = some t → t.commands = []) :=
  ⟨by decide, by decide, evaluate_ok_iff (by decide) (by decide)⟩

end ArithTree
