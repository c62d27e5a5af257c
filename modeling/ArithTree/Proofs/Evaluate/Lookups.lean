import ArithTree.Proofs.Evaluate.Path

/-!
# ArithTree.Proofs.Evaluate.Lookups

Evaluation with nothing that counts it down. `Evaluates b path e d r` derives the result `r` of a tree from its
parts and from the trees of bound names; the depth `d` says how many lookups of names were open at once. A
derivation is finite, so a tree that has one is a tree on which the recursion ends.

* `Evaluates.unique`: a tree has one result and one depth.
* `evaluates_resolve`: a name looked up along a path. The names on the path and the lookups still open below it are
  no more than the bindings and one.
* `exists_evaluates`: every tree under every bindings.
-/

namespace ArithTree

variable [Numerics]

/-- `Evaluates b path e d r`: while the trees of the names on `path` are being evaluated, the tree `e` evaluates to
`r`, and the deepest nest of lookups on the way has `d` names. -/
inductive Evaluates (b : Bindings) : List String → Expr → Nat → Except Failure Float → Prop where
  | num {path : List String} (x : Float) : Evaluates b path (.num x) 0 (.ok x)
  | unbound {path : List String} {n : String} :
      b.get? n = none → Evaluates b path (.var n) 1 (.error (.undefinedVariable n))
  | again {path : List String} {n : String} {t : Expr} :
      b.get? n = some t → n ∈ path →
      Evaluates b path (.var n) 1 (.error (.cyclicBinding (cycleAt path n)))
  | bound {path : List String} {n : String} {t : Expr} {d : Nat} {r : Except Failure Float} :
      b.get? n = some t → n ∉ path → Evaluates b (path ++ [n]) t d r →
      Evaluates b path (.var n) (d + 1) r
  | operandFailed {path : List String} {op : UnaryOp} {a : Expr} {d : Nat} {f : Failure} :
      Evaluates b path a d (.error f) → Evaluates b path (.unary op a) d (.error f)
  | unary {path : List String} {op : UnaryOp} {a : Expr} {d : Nat} {x : Float} :
      Evaluates b path a d (.ok x) → Evaluates b path (.unary op a) d (.ok (op.apply x))
  | leftFailed {path : List String} {op : BinaryOp} {l r : Expr} {d : Nat} {f : Failure} :
      Evaluates b path l d (.error f) → Evaluates b path (.binary op l r) d (.error f)
  | rightFailed {path : List String} {op : BinaryOp} {l r : Expr} {d d' : Nat} {x : Float} {f : Failure} :
      Evaluates b path l d (.ok x) → Evaluates b path r d' (.error f) →
      Evaluates b path (.binary op l r) (max d d') (.error f)
  | binary {path : List String} {op : BinaryOp} {l r : Expr} {d d' : Nat} {x y : Float} :
      Evaluates b path l d (.ok x) → Evaluates b path r d' (.ok y) →
      Evaluates b path (.binary op l r) (max d d') (.ok (op.apply x y))
  | request {path : List String} (q : Request) (a : Expr) :
      Evaluates b path (.request q a) 0 (.error (.unknownOperator q.symbol))
  | plot {path : List String} (e s l h t : Expr) :
      Evaluates b path (.plot e s l h t) 0 (.error (.unknownOperator Operator.plot.symbol))
  | foreign {path : List String} (v : Foreign) : Evaluates b path (.foreign v) 0 (.error (.notEvaluable v))

variable {b : Bindings} {path : List String} {e : Expr} {n : String} {d d' : Nat} {r r' : Except Failure Float}

theorem Evaluates.unique (h : Evaluates b path e d r) : ∀ {d' r'}, Evaluates b path e d' r' → d' = d ∧ r' = r := by
  induction h with
  | num x =>
    intro d' r' h'
    cases h'
    exact ⟨rfl, rfl⟩
  | unbound hnone =>
    intro d' r' h'
    cases h' with
    | unbound _ => exact ⟨rfl, rfl⟩
    | again ht _ => rw [hnone] at ht; cases ht
    | bound ht _ _ => rw [hnone] at ht; cases ht
  | again ht hn =>
    intro d' r' h'
    cases h' with
    | unbound hnone => rw [hnone] at ht; cases ht
    | again _ _ => exact ⟨rfl, rfl⟩
    | bound _ hn' _ => exact absurd hn hn'
  | bound ht hn _ ih =>
    intro d' r' h'
    cases h' with
    | unbound hnone => rw [hnone] at ht; cases ht
    | again _ hn' => exact absurd hn' hn
    | bound ht' _ h' =>
      rw [ht] at ht'
      cases ht'
      obtain ⟨rfl, rfl⟩ := ih h'
      exact ⟨rfl, rfl⟩
  | operandFailed _ ih =>
    intro d' r' h'
    cases h' with
    | operandFailed h' => exact ih h'
    | unary h' => cases (ih h').2
  | unary _ ih =>
    intro d' r' h'
    cases h' with
    | operandFailed h' => cases (ih h').2
    | unary h' =>
      obtain ⟨rfl, hx⟩ := ih h'
      cases hx
      exact ⟨rfl, rfl⟩
  | leftFailed _ ih =>
    intro d' r' h'
    cases h' with
    | leftFailed h' => exact ih h'
    | rightFailed h' _ => cases (ih h').2
    | binary h' _ => cases (ih h').2
  | rightFailed _ _ ihl ihr =>
    intro d' r' h'
    cases h' with
    | leftFailed h' => cases (ihl h').2
    | rightFailed hl hr =>
      obtain ⟨rfl, -⟩ := ihl hl
      obtain ⟨rfl, hf⟩ := ihr hr
      exact ⟨rfl, hf⟩
    | binary _ hr => cases (ihr hr).2
  | binary _ _ ihl ihr =>
    intro d' r' h'
    cases h' with
    | leftFailed h' => cases (ihl h').2
    | rightFailed _ hr => cases (ihr hr).2
    | binary hl hr =>
      obtain ⟨rfl, hx⟩ := ihl hl
      obtain ⟨rfl, hy⟩ := ihr hr
      cases hx
      cases hy
      exact ⟨rfl, rfl⟩
  | request q a =>
    intro d' r' h'
    cases h'
    exact ⟨rfl, rfl⟩
  | plot e s l h t =>
    intro d' r' h'
    cases h'
    exact ⟨rfl, rfl⟩
  | foreign v =>
    intro d' r' h'
    cases h'
    exact ⟨rfl, rfl⟩

/-- A tree whose variables evaluate to what `read` gives evaluates as it does with `read`, and no deeper than the
deepest of them. -/
theorem evaluates_evaluateWith {read : String → Except Failure Float} {k : Nat}
    (h : ∀ n, ∃ d, d ≤ k ∧ Evaluates b path (.var n) d (read n)) (e : Expr) :
    ∃ d, d ≤ k ∧ Evaluates b path e d (evaluateWith read e) := by
  induction e with
  | num x => exact ⟨0, Nat.zero_le k, .num x⟩
  | var n => exact h n
  | unary op a ih =>
    obtain ⟨d, hd, ha⟩ := ih
    refine ⟨d, hd, ?_⟩
    rw [evaluateWith]
    cases hr : evaluateWith read a with
    | error f => exact .operandFailed (hr ▸ ha)
    | ok x => exact .unary (hr ▸ ha)
  | binary op l r ihl ihr =>
    obtain ⟨d, hd, hl⟩ := ihl
    obtain ⟨d', hd', hr⟩ := ihr
    rw [evaluateWith]
    cases hx : evaluateWith read l with
    | error f => exact ⟨d, hd, .leftFailed (hx ▸ hl)⟩
    | ok x =>
      refine ⟨max d d', Nat.max_le.mpr ⟨hd, hd'⟩, ?_⟩
      cases hy : evaluateWith read r with
      | error f => exact .rightFailed (hx ▸ hl) (hy ▸ hr)
      | ok y => exact .binary (hx ▸ hl) (hy ▸ hr)
  | request q a => exact ⟨0, Nat.zero_le k, .request q a⟩
  | plot e s l h t => exact ⟨0, Nat.zero_le k, .plot e s l h t⟩
  | foreign v => exact ⟨0, Nat.zero_le k, .foreign v⟩

/-- By induction on the bound names that are not on the path. -/
theorem evaluates_resolve (left : Nat) :
    ∀ (path : List String) (n : String), Trail b path → b.size ≤ left + path.length →
      ∃ d, d ≤ left + 1 ∧ Evaluates b path (.var n) d (resolve b left path n) := by
  induction left using Nat.strongRecOn with
  | _ left ih =>
    intro path n htrail hs
    rcases resolve_step htrail hs n with
      ⟨hnone, hres⟩ | ⟨hn, ⟨t, ht⟩, hres⟩ | ⟨hn, t, rest, ht, hl, htrail', hs', hres⟩
    · rw [hres]
      exact ⟨1, by omega, .unbound hnone⟩
    · rw [hres]
      exact ⟨1, by omega, .again ht hn⟩
    · obtain ⟨d, hd, h⟩ := evaluates_evaluateWith (fun m => ih rest (by omega) _ m htrail' hs') t
      rw [hres]
      exact ⟨d + 1, by omega, .bound ht hn h⟩

theorem exists_evaluates (b : Bindings) (e : Expr) :
    ∃ d, d ≤ b.size + 1 ∧ Evaluates b [] e d (evaluate b e) :=
  evaluates_evaluateWith (fun n => evaluates_resolve b.size [] n (Trail.nil b) (by simp)) e

end ArithTree
