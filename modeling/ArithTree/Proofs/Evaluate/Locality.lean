import ArithTree.Elementary.Rounded
import ArithTree.Proofs.Evaluate.Reachability

/-!
# ArithTree.Proofs.Evaluate.Locality

Evaluation looks at nothing but the bindings of the names that it can reach. Two dictionaries that agree on these
give a tree the same result, whatever else is bound, in whatever order and in however many slots: the same number,
or the same failure down to the chain of a cycle.

* `resolve_agree`: two runs along the same path, where the reachable names are the invariant.
* `get?_of_perm`: a dictionary is read the same in any order of its entries.
* `Reachable.mem_of_closed`: what cannot be reached, shown by a list of names.
* `evaluate_local`: agreement, and the changes to a dictionary that keep it.
-/

namespace ArithTree

variable {b b' : Bindings} {e : Expr}

/-- By induction on the bound names of one side that are not on the path; the steps left on the other side only have
to be enough. -/
theorem resolve_agree [Numerics] (h : ∀ n, Reachable b e n → b.get? n = b'.get? n) (left : Nat) :
    ∀ (left' : Nat) (path : List String) (n : String), Trail b path → Trail b' path →
      b.size ≤ left + path.length → b'.size ≤ left' + path.length → Reachable b e n →
      resolve b left path n = resolve b' left' path n := by
  induction left using Nat.strongRecOn with
  | _ left ih =>
    intro left' path n htrail htrail' hs hs' hn
    rcases resolve_step htrail hs n with
      ⟨hnone, hres⟩ | ⟨hmem, ⟨t, ht⟩, hres⟩ | ⟨hnot, t, rest, ht, hl, htrailn, hsn, hres⟩
    · rw [hres, resolve_of_unbound (h n hn ▸ hnone)]
    · rcases resolve_step htrail' hs' n with ⟨hnone, -⟩ | ⟨-, -, hres'⟩ | ⟨hnot, -⟩
      · rw [← h n hn, ht] at hnone
        cases hnone
      · rw [hres, hres']
      · exact absurd hmem hnot
    · rcases resolve_step htrail' hs' n with
        ⟨hnone, -⟩ | ⟨hmem, -⟩ | ⟨-, u, rest', hu, -, htrailn', hsn', hres'⟩
      · rw [← h n hn, ht] at hnone
        cases hnone
      · exact absurd hmem hnot
      · rw [← h n hn, ht] at hu
        cases hu
        rw [hres, hres']
        refine evaluateWith_congr fun m hm => ?_
        have hnm : Mentions b n m := ⟨t, ht, hm⟩
        exact ih rest (by omega) rest' (path ++ [n]) m htrailn htrailn' hsn hsn' (.mentioned hn hnm)

theorem evaluate_agree [Numerics] (h : ∀ n, Reachable b e n → b.get? n = b'.get? n) :
    evaluate b e = evaluate b' e := by
  refine evaluateWith_congr fun n hn => ?_
  exact resolve_agree h b.size b'.size [] n (Trail.nil b) (Trail.nil b') (by simp) (by simp) (.occurs hn)

theorem get?_of_perm (hb : b.WellFormed) (hb' : b'.WellFormed) (h : b.entries.Perm b'.entries)
    (n : String) : b.get? n = b'.get? n := by
  refine Option.ext fun t => ?_
  rw [hb.get?_eq_some, hb'.get?_eq_some, h.mem_iff]

/-- A result depends on the reachable bindings only. In particular no binding that cannot be reached changes it by
being added, replaced or removed, and neither does the order of the bindings. -/
theorem evaluate_local [Numerics] (e : Expr) :
    (∀ b b' : Bindings, (∀ n, Reachable b e n → b.get? n = b'.get? n) → evaluate b e = evaluate b' e) ∧
      (∀ (b : Bindings) (n : String), b.WellFormed → ¬ Reachable b e n →
        (∀ t, evaluate (b.insert n t) e = evaluate b e) ∧
          ∀ t b', b.remove n = .ok (t, b') → evaluate b' e = evaluate b e) ∧
      ∀ b b' : Bindings, b.WellFormed → b'.WellFormed → b.entries.Perm b'.entries →
        evaluate b e = evaluate b' e := by
  refine ⟨fun b b' h => evaluate_agree h, fun b n hb hn => ⟨fun t => ?_, fun t b' hremove => ?_⟩,
    fun b b' hb hb' hperm => evaluate_agree fun n _ => get?_of_perm hb hb' hperm n⟩
  · refine (evaluate_agree fun m hm => ?_).symm
    have hne : ¬ (n == m) = true := by
      rw [beq_iff_eq]
      rintro rfl
      exact hn hm
    rw [hb.get?_insert, if_neg hne]
  · refine (evaluate_agree fun m hm => ?_).symm
    have hne : n ≠ m := by
      rintro rfl
      exact hn hm
    exact (hb.get?_remove hremove hne).symm

/-- Two names that refer to each other, and two that have nothing to do with them. -/
def entangled : Bindings :=
  Dictionary.ofList 1
    [("a", .binary .sub (.var "b") (.num 1)), ("b", .unary .cos (.var "a")), ("u", .var "v"), ("v", .num 2)]

/-- The same two names in the other order and with a history, more room, and something else beside them. -/
def rearranged : Bindings :=
  Dictionary.ofList 7
    [("b", .num 0), ("w", .var "a"), ("a", .binary .sub (.var "b") (.num 1)), ("b", .unary .cos (.var "a"))]

open scoped Elementary in
theorem evaluate_local_rearranged :
    (∀ n, Reachable entangled (.var "b") n → entangled.get? n = rearranged.get? n) ∧
      evaluate entangled (.var "b") = evaluate rearranged (.var "b") ∧
      entangled.WellFormed ∧ ¬ Reachable entangled (.var "b") "u" ∧
        ∀ t, evaluate (entangled.insert "u" t) (.var "b") = evaluate entangled (.var "b") := by
  have hreach : ∀ n, Reachable entangled (.var "b") n → n ∈ ["a", "b"] :=
    fun n hn => hn.mem_of_closed (by decide) (by decide)
  have hagree : ∀ n, Reachable entangled (.var "b") n → entangled.get? n = rearranged.get? n := by
    have hnames : ∀ n ∈ ["a", "b"], entangled.get? n = rearranged.get? n := by decide
    exact fun n hn => hnames n (hreach n hn)
  have hwf : entangled.WellFormed := Dictionary.wellFormed_ofList Nat.one_pos _
  have hu : ¬ Reachable entangled (.var "b") "u" := fun hn => absurd (hreach _ hn) (by decide)
  obtain ⟨hlocal, hchange, -⟩ := evaluate_local (.var "b")
  exact ⟨hagree, hlocal _ _ hagree, hwf, hu, (hchange _ _ hwf hu).1⟩

end ArithTree
