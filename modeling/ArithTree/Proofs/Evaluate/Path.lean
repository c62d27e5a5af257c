import ArithTree.Proofs.Evaluate.Reading
import ArithTree.Proofs.Store.Entries

/-!
# ArithTree.Proofs.Evaluate.Path

The path of names along which a variable is resolved. Its names are bound and pairwise different, so
it is never longer than the number of bindings (`Trail.length_le`). Where the steps left and the path
together cover all bindings, running out of steps therefore means being on the path already, and
`resolve_step` says what resolving a name does without mention of the end of the steps.
-/

namespace ArithTree

variable {b : Bindings} {path : List String} {n : String} {t : Expr}

structure Trail (b : Bindings) (path : List String) : Prop where
  nodup : path.Nodup
  bound : ∀ m ∈ path, ∃ t, b.get? m = some t

namespace Trail

theorem nil (b : Bindings) : Trail b [] := ⟨by simp, by simp⟩

theorem extend (h : Trail b path) (ht : b.get? n = some t) (hn : n ∉ path) :
    Trail b (path ++ [n]) := by
  refine ⟨?_, ?_⟩
  · rw [List.nodup_append]
    refine ⟨h.nodup, by simp, ?_⟩
    intro a ha c hc heq
    rw [List.mem_singleton] at hc
    subst hc heq
    exact hn ha
  · intro m hm
    rcases List.mem_append.mp hm with hm | hm
    · exact h.bound m hm
    · rw [List.mem_singleton] at hm
      exact ⟨t, hm ▸ ht⟩

end Trail

theorem mem_entries_of_get? (h : b.get? n = some t) :
    ∃ en ∈ b.entries, en.key = n ∧ en.value = t := by
  rw [Dictionary.get?_eq, Option.map_eq_some_iff] at h
  obtain ⟨en, hf, ht⟩ := h
  have hk : en.key = n := by simpa using List.find?_some hf
  exact ⟨en, List.mem_of_find?_eq_some hf, hk, ht⟩

theorem mem_keys_of_get? (h : b.get? n = some t) : n ∈ b.keys := by
  obtain ⟨en, hen, rfl, -⟩ := mem_entries_of_get? h
  exact List.mem_map_of_mem hen

theorem Trail.length_le (h : Trail b path) : path.length ≤ b.size := by
  have hsub : path ⊆ b.keys := fun m hm =>
    let ⟨_, ht⟩ := h.bound m hm
    mem_keys_of_get? ht
  exact Nat.le_trans (List.Nodup.length_le_of_subset h.nodup hsub) b.length_keys_le

/-- A path that is as long as there are bindings holds every bound name. -/
theorem Trail.mem_of_size_le (h : Trail b path) (hs : b.size ≤ path.length)
    (ht : b.get? n = some t) : n ∈ path := by
  by_cases hn : n ∈ path
  · exact hn
  · have hl := (h.extend ht hn).length_le
    simp at hl
    omega

theorem resolve_of_unbound [Numerics] (h : b.get? n = none) (left : Nat) (path : List String) :
    resolve b left path n = .error (.undefinedVariable n) := by
  cases left <;> simp [resolve, h]

/-- The three things that can happen to a name. -/
theorem resolve_step [Numerics] {left : Nat} (h : Trail b path) (hs : b.size ≤ left + path.length)
    (n : String) :
    (b.get? n = none ∧ resolve b left path n = .error (.undefinedVariable n)) ∨
      (n ∈ path ∧ (∃ t, b.get? n = some t) ∧
        resolve b left path n = .error (.cyclicBinding (cycleAt path n))) ∨
      (n ∉ path ∧ ∃ t rest, b.get? n = some t ∧ left = rest + 1 ∧ Trail b (path ++ [n]) ∧
        b.size ≤ rest + (path ++ [n]).length ∧
        resolve b left path n = evaluateWith (resolve b rest (path ++ [n])) t) := by
  cases ht : b.get? n with
  | none => exact .inl ⟨rfl, resolve_of_unbound ht left path⟩
  | some t =>
    by_cases hn : n ∈ path
    · exact .inr (.inl ⟨hn, ⟨t, rfl⟩, by cases left <;> simp [resolve, ht, hn]⟩)
    · cases left with
      | zero => exact absurd (h.mem_of_size_le (by omega) ht) hn
      | succ rest =>
        refine .inr (.inr ⟨hn, t, rest, rfl, rfl, h.extend ht hn, ?_, ?_⟩)
        · simp only [List.length_append, List.length_singleton]
          omega
        · simp [resolve, ht, hn]

end ArithTree
