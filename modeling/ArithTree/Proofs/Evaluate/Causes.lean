import ArithTree.Elementary.Rounded
import ArithTree.Proofs.Evaluate.Lookups
import ArithTree.Proofs.Evaluate.Reachability
import Mathlib.Data.List.Chain

/-!
# ArithTree.Proofs.Evaluate.Causes

Every evaluation ends, and one that fails says why. What it names can be reached from the tree: a name that is not
bound, a command, or names whose trees lead from one to the next and back.

* `IsCycle`: a chain of references that closes.
* `IsCause`: what has to be so for each failure.
* `isCycle_cycleAt`: the path that has led to one of its own names closes from that name on.
* `resolve_isCause`: a name looked up along a path that is itself a chain of references.
* `evaluate_ends`: the recursion and its failures.
-/

namespace ArithTree

/-- From a name through the trees of bound names back to the same name, and through no name twice before. -/
structure IsCycle (b : Bindings) (chain : List String) : Prop where
  two_le : 2 ≤ chain.length
  closed : chain.head? = chain.getLast?
  distinct : chain.dropLast.Nodup
  bound : ∀ n ∈ chain, ∃ t, b.get? n = some t
  linked : chain.IsChain (Mentions b)

/-- What the failure says about the evaluation of a tree under the bindings is so. -/
inductive IsCause (b : Bindings) (e : Expr) : Failure → Prop where
  | undefinedVariable {n : String} :
      Reachable b e n → b.get? n = none → IsCause b e (.undefinedVariable n)
  | unknownOperator {s : String} :
      s ∈ e.commands ∨ (∃ n t, Reachable b e n ∧ b.get? n = some t ∧ s ∈ t.commands) →
      IsCause b e (.unknownOperator s)
  | cyclicBinding {chain : List String} :
      IsCycle b chain → (∀ n ∈ chain, Reachable b e n) → IsCause b e (.cyclicBinding chain)

variable {b : Bindings} {e : Expr} {path : List String} {n : String} {f : Failure}

theorem cycleAt_of_mem (h : n ∈ path) :
    ∃ before after, path = before ++ n :: after ∧ cycleAt path n = n :: (after ++ [n]) := by
  obtain ⟨before, after, rfl, hbefore⟩ := List.eq_append_cons_of_mem h
  refine ⟨before, after, rfl, ?_⟩
  have hskip : ∀ m ∈ before, (m != n) = true := by
    intro m hm
    rw [bne_iff_ne]
    rintro rfl
    exact hbefore hm
  have hstop : (n :: after).dropWhile (fun m => m != n) = n :: after :=
    List.dropWhile_cons_of_neg (by simp)
  rw [cycleAt, List.dropWhile_append_of_pos hskip, hstop, List.cons_append]

/-- The names before the first mention of `n` are no part of the cycle. -/
theorem isCycle_cycleAt (htrail : Trail b path) (hchain : (path ++ [n]).IsChain (Mentions b))
    (hn : n ∈ path) : IsCycle b (cycleAt path n) ∧ ∀ m ∈ cycleAt path n, m ∈ path := by
  obtain ⟨before, after, rfl, hcycle⟩ := cycleAt_of_mem hn
  rw [hcycle]
  have hmem : ∀ m ∈ n :: (after ++ [n]), m ∈ before ++ n :: after := by
    intro m hm
    simp only [List.mem_cons, List.mem_append, List.not_mem_nil, or_false] at hm ⊢
    tauto
  have hlast : (n :: (after ++ [n])).dropLast = n :: after := by
    rw [← List.cons_append, List.dropLast_concat]
  have hsuffix : n :: (after ++ [n]) <:+ before ++ n :: after ++ [n] := ⟨before, by simp⟩
  refine ⟨⟨?_, ?_, ?_, fun m hm => htrail.bound m (hmem m hm), hchain.suffix hsuffix⟩, hmem⟩
  · simp
  · rw [← List.cons_append, List.getLast?_concat]
    rfl
  · rw [hlast]
    exact (List.sublist_append_right before _).nodup htrail.nodup

/-- By induction on the bound names that are not on the path. The path is a chain of references, and what is looked
up is what its last tree mentions, so a name of the path that is met again closes a cycle. -/
theorem resolve_isCause [Numerics] (hb : TreesWellFormed b) (left : Nat) :
    ∀ (path : List String) (n : String), Trail b path → b.size ≤ left + path.length →
      (path ++ [n]).IsChain (Mentions b) → (∀ m ∈ path ++ [n], Reachable b e m) →
      resolve b left path n = .error f → IsCause b e f := by
  induction left using Nat.strongRecOn with
  | _ left ih =>
    intro path n htrail hs hchain hreach h
    have hn : Reachable b e n := hreach n (by simp)
    rcases resolve_step htrail hs n with
      ⟨hnone, hres⟩ | ⟨hmem, -, hres⟩ | ⟨-, t, rest, ht, hl, htrail', hs', hres⟩
    · rw [hres] at h
      cases h
      exact .undefinedVariable hn hnone
    · rw [hres] at h
      cases h
      obtain ⟨hcycle, hsub⟩ := isCycle_cycleAt htrail hchain hmem
      exact .cyclicBinding hcycle fun m hm => hreach m (List.mem_append_left _ (hsub m hm))
    · rw [hres] at h
      rcases evaluateWith_error h with ⟨m, hm, hread⟩ | ⟨s, hs, rfl⟩ | hw
      · have hmentions : Mentions b n m := ⟨t, ht, hm⟩
        refine ih rest (by omega) (path ++ [n]) m htrail' hs' ?_ ?_ hread
        · rw [List.append_assoc, List.singleton_append, List.isChain_append_cons_cons]
          exact ⟨hchain, hmentions, .singleton m⟩
        · intro k hk
          rcases List.mem_append.mp hk with hk | hk
          · exact hreach k hk
          · rw [List.mem_singleton] at hk
            exact hk ▸ .mentioned hn hmentions
      · exact .unknownOperator (.inr ⟨n, t, hn, ht, hs⟩)
      · exact absurd (hb.of_get? ht) hw

theorem evaluate_isCause [Numerics] (hb : TreesWellFormed b) (he : e.WellFormed)
    (h : evaluate b e = .error f) : IsCause b e f := by
  rcases evaluateWith_error h with ⟨n, hn, hread⟩ | ⟨s, hs, rfl⟩ | hw
  · have hreach : ∀ m ∈ [] ++ [n], Reachable b e m := by
      intro m hm
      rw [List.nil_append, List.mem_singleton] at hm
      exact hm ▸ .occurs hn
    exact resolve_isCause hb b.size [] n (Trail.nil b) (by simp) (.singleton n) hreach hread
  · exact .unknownOperator (.inl hs)
  · exact absurd he hw

/-- Under any bindings the recursion comes to one end, with no more lookups open at once than there are bindings and
one, and where it ends in a failure, this failure has its cause in the tree and the bindings. -/
theorem evaluate_ends [Numerics] (hb : TreesWellFormed b) (he : e.WellFormed) :
    (∃ d, d ≤ b.size + 1 ∧ ∀ d' r, Evaluates b [] e d' r ↔ d' = d ∧ r = evaluate b e) ∧
      ∀ f, evaluate b e = .error f → IsCause b e f := by
  refine ⟨?_, fun f => evaluate_isCause hb he⟩
  obtain ⟨d, hd, h⟩ := exists_evaluates b e
  refine ⟨d, hd, fun d' r => ⟨h.unique, ?_⟩⟩
  rintro ⟨rfl, rfl⟩
  exact h

/-- `a` leads to `b` and `c`, which refer to each other. -/
def leadingToCycle : Bindings :=
  Dictionary.ofList 1
    [("a", .binary .add (.num 1) (.var "b")), ("b", .unary .negate (.var "c")),
      ("c", .binary .mul (.var "b") (.var "x"))]

open scoped Elementary in
/-- The chain starts where the cycle does and not where the evaluation did. The lookups of `a`, `b`, `c` and `b`
again are open when the cycle is found. -/
theorem evaluate_ends_leadingToCycle :
    TreesWellFormed leadingToCycle ∧ (Expr.var "a").WellFormed ∧
      evaluate leadingToCycle (.var "a") = .error (.cyclicBinding ["b", "c", "b"]) ∧
      (∃ d, d ≤ leadingToCycle.size + 1 ∧ ∀ d' r, Evaluates leadingToCycle [] (.var "a") d' r ↔
        d' = d ∧ r = evaluate leadingToCycle (.var "a")) ∧
      IsCause leadingToCycle (.var "a") (.cyclicBinding ["b", "c", "b"]) := by
  have htrees : TreesWellFormed leadingToCycle := by decide
  have hcycle : evaluate leadingToCycle (.var "a") = .error (.cyclicBinding ["b", "c", "b"]) := rfl
  obtain ⟨hends, hcause⟩ := evaluate_ends htrees (Expr.wellFormed_var "a")
  exact ⟨htrees, Expr.wellFormed_var "a", hcycle, hends, hcause _ hcycle⟩

end ArithTree
