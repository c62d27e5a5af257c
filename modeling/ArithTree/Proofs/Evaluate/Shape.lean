import ArithTree.Proofs.Evaluate.Reachability

/-!
# ArithTree.Proofs.Evaluate.Shape

Numbers never decide whether an evaluation fails. A tree with its numbers taken out (`blank`) keeps
all that a failure depends on: the operators, the names, and the order in which they are met.

* `evaluateWith_verdict`: trees of one shape, with variables that fail alike, fail alike.
* `resolve_verdict`: so do names under bindings of one shape, along the same path.
* `evaluate_verdict`: so do trees under such bindings, with the same failure.
-/

namespace ArithTree

namespace Expr

/-- The tree with the same number in all its number leaves. -/
def blank : Expr → Expr
  | .num _ => .num 0
  | .var n => .var n
  | .unary op a => .unary op a.blank
  | .binary op a b => .binary op a.blank b.blank
  | .request r a => .request r a.blank
  | .plot e s l h t => .plot e.blank s.blank l.blank h.blank t.blank
  | .foreign v => .foreign v

/-- The trees differ in the values of their numbers only. -/
def SameShape (e e' : Expr) : Prop := e.blank = e'.blank

end Expr

/-- The same names are bound, to trees of the same shapes. -/
def SameShapes (b b' : Bindings) : Prop :=
  ∀ n, (b.get? n).map Expr.blank = (b'.get? n).map Expr.blank

/-- What is left of a result without its number. -/
def verdict : Except Failure Float → Option Failure
  | .ok _ => none
  | .error f => some f

theorem verdict_eq_some {r : Except Failure Float} {f : Failure} :
    verdict r = some f ↔ r = .error f := by
  cases r <;> simp [verdict]

theorem verdict_cases {r r' : Except Failure Float} (h : verdict r = verdict r') :
    (∃ f, r = .error f ∧ r' = .error f) ∨ ∃ x x', r = .ok x ∧ r' = .ok x' := by
  cases r with
  | error f => exact .inl ⟨f, rfl, verdict_eq_some.mp h.symm⟩
  | ok x =>
    cases r' with
    | error f => cases h
    | ok x' => exact .inr ⟨x, x', rfl, rfl⟩

/-! ## Trees -/

section Trees

variable {read read' : String → Except Failure Float}

theorem evaluateWith_verdict_blank [Numerics] (h : ∀ n, verdict (read n) = verdict (read' n)) (e : Expr) :
    verdict (evaluateWith read e) = verdict (evaluateWith read' e.blank) := by
  induction e with
  | num x => rfl
  | var n => exact h n
  | unary op a ih =>
    rcases verdict_cases ih with ⟨f, ha, ha'⟩ | ⟨x, x', ha, ha'⟩
    · simp only [evaluateWith, Expr.blank, ha, ha']
    · simp only [evaluateWith, Expr.blank, ha, ha', verdict]
  | binary op a b iha ihb =>
    rcases verdict_cases iha with ⟨f, ha, ha'⟩ | ⟨x, x', ha, ha'⟩
    · simp only [evaluateWith, Expr.blank, ha, ha']
    · rcases verdict_cases ihb with ⟨f, hb, hb'⟩ | ⟨y, y', hb, hb'⟩
      · simp only [evaluateWith, Expr.blank, ha, ha', hb, hb']
      · simp only [evaluateWith, Expr.blank, ha, ha', hb, hb', verdict]
  | request r a ih => rfl
  | plot e s l h t ihe ihs ihl ihh iht => rfl
  | foreign v => rfl

theorem evaluateWith_verdict [Numerics] {e e' : Expr} (he : e.SameShape e')
    (h : ∀ n, verdict (read n) = verdict (read' n)) :
    verdict (evaluateWith read e) = verdict (evaluateWith read' e') := by
  have hself : ∀ n, verdict (read' n) = verdict (read' n) := fun _ => rfl
  calc verdict (evaluateWith read e)
      = verdict (evaluateWith read' e.blank) := evaluateWith_verdict_blank h e
    _ = verdict (evaluateWith read' e'.blank) := by rw [he]
    _ = verdict (evaluateWith read' e') := (evaluateWith_verdict_blank hself e').symm

end Trees

/-! ## Names -/

variable {b b' : Bindings}

theorem sameShapes_of_entries
    (h : b.entries.map (fun en => (en.key, en.value.blank)) =
      b'.entries.map fun en => (en.key, en.value.blank)) : SameShapes b b' := by
  intro n
  have hfind : ∀ es : List (Entry String Expr),
      ((Entries.find? es n).map Entry.value).map Expr.blank =
        ((es.map fun en => (en.key, en.value.blank)).find? fun p => p.1 == n).map Prod.snd := by
    intro es
    simp only [Entries.find?, List.find?_map, Option.map_map]
    rfl
  rw [Dictionary.get?_eq, Dictionary.get?_eq, hfind, hfind, h]

theorem SameShapes.of_none (h : SameShapes b b') {n : String} (hn : b.get? n = none) :
    b'.get? n = none := by
  have hshape := h n
  rw [hn, Option.map_none, eq_comm, Option.map_eq_none_iff] at hshape
  exact hshape

theorem SameShapes.of_some (h : SameShapes b b') {n : String} {t : Expr}
    (hn : b.get? n = some t) : ∃ t', b'.get? n = some t' ∧ t.SameShape t' := by
  have hshape := h n
  rw [hn, Option.map_some, eq_comm, Option.map_eq_some_iff] at hshape
  obtain ⟨t', ht', hblank⟩ := hshape
  exact ⟨t', ht', hblank.symm⟩

/-- By induction on the steps left on one side; those on the other side only have to be enough. -/
theorem resolve_verdict [Numerics] (h : SameShapes b b') (left : Nat) :
    ∀ (left' : Nat) (path : List String) (n : String), Trail b path → Trail b' path →
      b.size ≤ left + path.length → b'.size ≤ left' + path.length →
      verdict (resolve b left path n) = verdict (resolve b' left' path n) := by
  induction left using Nat.strongRecOn with
  | _ left ih =>
    intro left' path n htrail htrail' hs hs'
    rcases resolve_step htrail hs n with
      ⟨hnone, hres⟩ | ⟨hn, ⟨t, ht⟩, hres⟩ | ⟨hn, t, rest, ht, hl, htrailn, hsn, hres⟩
    · rw [hres, resolve_of_unbound (h.of_none hnone)]
    · obtain ⟨t', ht', -⟩ := h.of_some ht
      rcases resolve_step htrail' hs' n with ⟨hnone, -⟩ | ⟨-, -, hres'⟩ | ⟨hnot, -⟩
      · rw [ht'] at hnone
        cases hnone
      · rw [hres, hres']
      · exact absurd hn hnot
    · obtain ⟨t', ht', hshape⟩ := h.of_some ht
      rcases resolve_step htrail' hs' n with
        ⟨hnone, -⟩ | ⟨hmem, -⟩ | ⟨-, u, rest', hu, -, htrailn', hsn', hres'⟩
      · rw [ht'] at hnone
        cases hnone
      · exact absurd hmem hn
      · rw [ht'] at hu
        cases hu
        rw [hres, hres']
        refine evaluateWith_verdict hshape fun m => ?_
        exact ih rest (by omega) rest' (path ++ [n]) m htrailn htrailn' hsn hsn'

theorem evaluate_verdict [Numerics] (h : SameShapes b b') {e e' : Expr} (he : e.SameShape e') :
    verdict (evaluate b e) = verdict (evaluate b' e') := by
  refine evaluateWith_verdict he fun n => ?_
  exact resolve_verdict h b.size b'.size [] n (Trail.nil b) (Trail.nil b') (by simp) (by simp)

theorem sameShapes_insert_num (hb : b.WellFormed) (n : String) (x y : Float) :
    SameShapes (b.insert n (.num x)) (b.insert n (.num y)) := by
  intro m
  rw [hb.get?_insert, hb.get?_insert]
  split <;> rfl

end ArithTree
