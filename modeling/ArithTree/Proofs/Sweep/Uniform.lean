import ArithTree.Elementary.Rounded
import ArithTree.Proofs.Command.Plot
import ArithTree.Proofs.Evaluate.Shape

/-!
# ArithTree.Proofs.Sweep.Uniform

A sweep fails early or not at all. The bindings of two samples differ only in the number that the
swept name is bound to, so the swept expression has a value at all points of a sweep or at none, and
where it has none the sweep ends at its first point, before anything is gathered.

* `valueAt_verdict`: the expression fails alike at all points.
* `sample_uniform`: a whole sweep.
* `failure_ignores_numbers`: failures under bindings of the same shapes, and along a sweep.
-/

namespace ArithTree
namespace Sweep

variable [Numerics] {env : Environment} {span : Span} {mode : Mode} {limit : Nat}

/-- The outcomes of a sweep whose expression has a value everywhere, or nowhere. -/
inductive Uniform (env : Environment) (span : Span) (mode : Mode) (limit : Nat) :
    Progress × Option Failure → Prop where
  /-- All points are sampled, and only the sweep itself may be cut short. -/
  | everywhere (p : Progress) (visited : Array Float) (stop : Option (Stop Float)) :
    points mode span.low span.high span.step limit = (visited, stop) →
    (∀ x ∈ visited.toList, ∃ y, span.valueAt env.bindings x = .ok y) →
    p.xs.toList = visited.toList →
    Uniform env span mode limit (p, stop.map Failure.ofStop)
  | nowhere (p : Progress) (x : Float) (rest : List Float) (f : Failure) :
    (points mode span.low span.high span.step limit).1.toList = x :: rest →
    (∀ x, span.valueAt env.bindings x = .error f) → p.xs.toList = [] →
    Uniform env span mode limit (p, some f)

theorem valueAt_verdict (hwf : env.bindings.WellFormed) (span : Span) (x y : Float) :
    verdict (span.valueAt env.bindings x) = verdict (span.valueAt env.bindings y) :=
  evaluate_verdict (sameShapes_insert_num hwf span.name x y) rfl

theorem sample_uniform (hwf : env.bindings.WellFormed) (hn : env.isBound span.name = false)
    (mode : Mode) (limit : Nat) (logger : LoggerId) (log : Log) :
    Uniform env span mode limit (sample mode limit logger span env log) := by
  rcases hpoints : points mode span.low span.high span.step limit with ⟨visited, stop⟩
  obtain ⟨values, p, hvalues, hp, hg⟩ | ⟨done, x, rest, values, f, p, hsplit, hvalues, hx, hp, hg⟩ :=
    sample_cases hwf hn hpoints logger log
  · rw [hp]
    refine .everywhere p visited stop hpoints (fun x hx => ?_) hg.xs
    have hmem : span.valueAt env.bindings x ∈ values.map .ok :=
      hvalues ▸ List.mem_map_of_mem hx
    obtain ⟨y, -, hy⟩ := List.mem_map.mp hmem
    exact ⟨y, hy.symm⟩
  · have hall : ∀ y, span.valueAt env.bindings y = .error f := by
      intro y
      rw [← verdict_eq_some, ← valueAt_verdict hwf span x y, hx]
      rfl
    -- A point sampled before the failure would have a value.
    have hdone : done = [] := by
      cases done with
      | nil => rfl
      | cons y done =>
        rw [List.map_cons, hall y] at hvalues
        cases values with
        | nil => cases hvalues
        | cons v values => cases hvalues
    subst hdone
    rw [hp]
    refine .nowhere p x rest f ?_ hall hg.xs
    rw [hpoints]
    exact hsplit

end Sweep

/-- Numbers take no part in failures: neither those of two evaluations, nor the points of a sweep. -/
theorem failure_ignores_numbers [Numerics] :
    (∀ (b b' : Bindings) (e e' : Expr), SameShapes b b' → e.SameShape e' →
        ∀ f, evaluate b e = .error f ↔ evaluate b' e' = .error f) ∧
      ∀ (env : Environment) (e s l h t : Expr) (span : Sweep.Span), env.bindings.WellFormed →
        Sweep.spanOf env e s l h t = .ok span →
        ∀ (mode : Sweep.Mode) (limit : Nat) (logger : LoggerId) (log : Log),
          Sweep.Uniform env span mode limit (Sweep.sample mode limit logger span env log) := by
  constructor
  · intro b b' e e' hb he f
    rw [← verdict_eq_some, ← verdict_eq_some, evaluate_verdict hb he]
  · intro env e s l h t span hwf hspan mode limit logger log
    exact Sweep.sample_uniform hwf (Sweep.spanOf_ok hspan).unbound mode limit logger log

/-- Two names that refer to each other, beside a number. -/
def looping (x y : Float) : Bindings :=
  Dictionary.ofList 1
    [("a", .binary .div (.var "b") (.num x)), ("b", .binary .pow (.num y) (.var "a")), ("c", .num y)]

/-- A sweep of `g / y`, where `y` is not bound. -/
def openRatio : Sweep.Span := ⟨.binary .div (.var "g") (.var "y"), "x", 0, 1, 1⟩

open scoped Elementary in
theorem failure_ignores_numbers_looping :
    SameShapes (looping 0 1) (looping 5 (-2)) ∧
      (Expr.binary .mul (.num 3) (.var "a")).SameShape (.binary .mul (.num 0) (.var "a")) ∧
      (∀ f, evaluate (looping 0 1) (.binary .mul (.num 3) (.var "a")) = .error f ↔
        evaluate (looping 5 (-2)) (.binary .mul (.num 0) (.var "a")) = .error f) ∧
      Command.sloped.WellFormed ∧
      Sweep.spanOf ⟨Command.sloped, []⟩ openRatio.expression (.var "x") (.num 0) (.num 1) (.num 1) =
        .ok openRatio ∧
      Sweep.Uniform ⟨Command.sloped, []⟩ openRatio .accumulate 10
        (Sweep.sample .accumulate 10 0 openRatio ⟨Command.sloped, []⟩ {}) :=
  have hshapes : SameShapes (looping 0 1) (looping 5 (-2)) := sameShapes_of_entries (by decide)
  have hwf : Command.sloped.WellFormed := Dictionary.wellFormed_ofList Nat.one_pos _
  have hspan : Sweep.spanOf ⟨Command.sloped, []⟩ openRatio.expression (.var "x") (.num 0) (.num 1)
      (.num 1) = .ok openRatio := rfl
  ⟨hshapes, rfl, failure_ignores_numbers.1 _ _ _ _ hshapes rfl, hwf, hspan,
    failure_ignores_numbers.2 _ _ _ _ _ _ _ hwf hspan .accumulate 10 0 {}⟩

end ArithTree
