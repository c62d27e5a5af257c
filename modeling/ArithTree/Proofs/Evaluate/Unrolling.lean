import ArithTree.Proofs.Evaluate.Reachability

/-!
# ArithTree.Proofs.Evaluate.Unrolling

Evaluation without a path. `unrolled b k` replaces variables by their trees `k` levels deep and
gives up there; a name in a cycle is given up at every depth. Giving up stands for all cyclic
failures, whatever their chain (`blur`), and what has not been given up stays as it is when the depth
grows (`Approximates`).

* `approximates_resolve`, `resolve_approximates`: resolving along a path and unrolling agree.
* `blur_evaluate`: up to the chains of cycles, evaluation is unrolling one level deeper than there
  are bindings, and more depth changes nothing.
-/

namespace ArithTree

/-- The result of giving up. -/
def givenUp : Except Failure Float := .error (.cyclicBinding [])

/-- The value of a name whose tree is unrolled `k` levels deep. -/
def unrolled [Numerics] (b : Bindings) : Nat → String → Except Failure Float
  | 0, _ => givenUp
  | k + 1, n =>
    match b.get? n with
    | none => .error (.undefinedVariable n)
    | some t => evaluateWith (unrolled b k) t

/-- Takes all cyclic failures for one. -/
def blur : Except Failure Float → Except Failure Float
  | .error (.cyclicBinding _) => givenUp
  | r => r

/-- `r` is `r'`, or was given up. -/
def Approximates (r r' : Except Failure Float) : Prop := r = givenUp ∨ r = r'

@[simp] theorem blur_ok (x : Float) : blur (.ok x) = .ok x := rfl

namespace Approximates

variable {r r' r'' : Except Failure Float}

theorem refl (r : Except Failure Float) : Approximates r r := .inr rfl

theorem trans (h : Approximates r r') (h' : Approximates r' r'') : Approximates r r'' := by
  rcases h with h | rfl
  · exact .inl h
  · exact h'

theorem antisymm (h : Approximates r r') (h' : Approximates r' r) : r = r' := by
  rcases h with rfl | h
  · rcases h' with h' | h'
    · exact h'.symm
    · exact h'.symm
  · exact h

theorem eq_givenUp (h : Approximates r r') (h' : r' = givenUp) : r = givenUp := by
  rcases h with h | h
  · exact h
  · exact h.trans h'

end Approximates

/-- Evaluation takes approximations of the variables to an approximation of the tree. -/
theorem evaluateWith_approximates [Numerics] {read read' : String → Except Failure Float}
    (h : ∀ n, Approximates (read n) (read' n)) (e : Expr) :
    Approximates (evaluateWith read e) (evaluateWith read' e) := by
  induction e with
  | num x => exact .refl _
  | var n => exact h n
  | unary op a ih =>
    simp only [evaluateWith]
    rcases ih with ih | ih
    · exact .inl (by simp [ih, givenUp])
    · exact .inr (by rw [ih])
  | binary op a b iha ihb =>
    simp only [evaluateWith]
    rcases iha with iha | iha
    · exact .inl (by simp [iha, givenUp])
    · rw [iha]
      cases evaluateWith read' a with
      | error f => exact .refl _
      | ok x =>
        rcases ihb with ihb | ihb
        · exact .inl (by simp [ihb, givenUp])
        · exact .inr (by rw [ihb])
  | request r a => exact .refl _
  | plot e s l h t => exact .refl _
  | foreign v => exact .refl _

theorem blur_error (f : Failure) : ∃ g, blur (.error f) = .error g := by
  cases f <;> exact ⟨_, rfl⟩

variable [Numerics]

/-- It does not matter whether cycles are told apart before or after evaluation. -/
theorem blur_evaluateWith (read : String → Except Failure Float) (e : Expr) :
    blur (evaluateWith read e) = evaluateWith (fun n => blur (read n)) e := by
  induction e with
  | num x => rfl
  | var n => rfl
  | unary op a ih =>
    simp only [evaluateWith, ← ih]
    cases evaluateWith read a with
    | error f => obtain ⟨g, hg⟩ := blur_error f; simp [hg]
    | ok x => rfl
  | binary op a b iha ihb =>
    simp only [evaluateWith, ← iha, ← ihb]
    cases evaluateWith read a with
    | error f => obtain ⟨g, hg⟩ := blur_error f; simp [hg]
    | ok x =>
      cases evaluateWith read b with
      | error f => obtain ⟨g, hg⟩ := blur_error f; simp [hg]
      | ok y => rfl
  | request r a => rfl
  | plot e s l h t => rfl
  | foreign v => rfl

variable {b : Bindings}

theorem unrolled_approximates_succ (k : Nat) (n : String) :
    Approximates (unrolled b k n) (unrolled b (k + 1) n) := by
  induction k generalizing n with
  | zero => exact .inl rfl
  | succ k ih =>
    simp only [unrolled]
    cases b.get? n with
    | none => exact .refl _
    | some t => exact evaluateWith_approximates ih t

theorem unrolled_approximates {k l : Nat} (h : k ≤ l) (n : String) :
    Approximates (unrolled b k n) (unrolled b l n) := by
  induction h with
  | refl => exact .refl _
  | step _ ih => exact ih.trans (unrolled_approximates_succ _ n)

/-- Resolving along a path gives no more than unrolling as many levels and one. By induction on the
steps left: a name on the path has failed, and unrolling only ignores the path. -/
theorem resolve_approximates (left : Nat) (path : List String) (n : String) :
    Approximates (blur (resolve b left path n)) (unrolled b (left + 1) n) := by
  induction left generalizing path n with
  | zero =>
    simp only [resolve, unrolled]
    cases b.get? n with
    | none => exact .refl _
    | some t => exact .inl rfl
  | succ left ih =>
    rw [resolve, unrolled]
    cases b.get? n with
    | none => exact .refl _
    | some t =>
      by_cases hn : n ∈ path
      · simp only [hn, if_true]
        exact .inl rfl
      · simp only [hn, if_false]
        rw [blur_evaluateWith]
        exact evaluateWith_approximates (fun m => ih (path ++ [n]) m) t

theorem exists_least_depth {k : Nat} {n : String} (h : unrolled b k n ≠ givenUp) :
    ∃ j, j + 1 ≤ k ∧ unrolled b (j + 1) n ≠ givenUp ∧ unrolled b j n = givenUp := by
  induction k with
  | zero => exact absurd rfl h
  | succ k ih =>
    by_cases hk : unrolled b k n = givenUp
    · exact ⟨k, Nat.le_refl _, h, hk⟩
    · obtain ⟨j, hjk, hj⟩ := ih hk
      exact ⟨j, by omega, hj⟩

/-- Unrolling gives no more than resolving along a path whose names are all given up. By induction on
the steps left. A name that is not given up is taken at the least depth where it is not: one level
less deep the name itself is given up, so the path that it joins is again one of names given up. -/
theorem approximates_resolve (left : Nat) :
    ∀ (k : Nat) (path : List String) (n : String), Trail b path → b.size ≤ left + path.length →
      (∀ m ∈ path, unrolled b k m = givenUp) →
      Approximates (unrolled b k n) (blur (resolve b left path n)) := by
  induction left using Nat.strongRecOn with
  | _ left ih =>
    intro k path n htrail hs hpath
    by_cases hg : unrolled b k n = givenUp
    · exact .inl hg
    · obtain ⟨j, hjk, hj, hleast⟩ := exists_least_depth hg
      have heq : unrolled b (j + 1) n = unrolled b k n :=
        (unrolled_approximates hjk n).resolve_left hj
      rcases resolve_step htrail hs n with
        ⟨hnone, hres⟩ | ⟨hn, -⟩ | ⟨-, t, rest, ht, hl, htrail', hs', hres⟩
      · rw [← heq, hres, unrolled, hnone]
        exact .refl _
      · exact absurd (hpath n hn) hg
      · rw [← heq, hres, blur_evaluateWith, unrolled, ht]
        refine evaluateWith_approximates (fun m => ?_) t
        refine ih rest (by omega) j (path ++ [n]) m htrail' hs' fun p hp => ?_
        rcases List.mem_append.mp hp with hp | hp
        · exact (unrolled_approximates (by omega) p).eq_givenUp (hpath p hp)
        · rw [List.mem_singleton] at hp
          exact hp ▸ hleast

theorem unrolled_eq_resolve {k : Nat} (h : b.size < k) (n : String) :
    unrolled b k n = blur (resolve b b.size [] n) :=
  Approximates.antisymm
    (approximates_resolve b.size k [] n (Trail.nil b) (by simp) (by simp))
    ((resolve_approximates b.size [] n).trans (unrolled_approximates h n))

theorem blur_evaluate {k : Nat} (h : b.size < k) (e : Expr) :
    blur (evaluate b e) = evaluateWith (unrolled b k) e := by
  rw [evaluate, blur_evaluateWith]
  exact evaluateWith_congr fun n _ => (unrolled_eq_resolve h n).symm

end ArithTree
