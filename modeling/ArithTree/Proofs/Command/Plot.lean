import ArithTree.Elementary.Rounded
import ArithTree.Command
import ArithTree.Proofs.Double.Order
import ArithTree.Proofs.Sweep.Gathering

/-!
# ArithTree.Proofs.Command.Plot

The plot command. A plot that succeeds renders one plot, and this plot shows the expression under the
bindings from before the command; a plot that fails renders nothing. The bindings are as before in
both cases.

* `Depicts`: what it means for a finished plot to show what a plot node asks for.
* `spanOf_ok`: what the checks before a sweep establish.
* `plot_cases`: the two outcomes of a plot node.
* `plot_depicts`: every plot that succeeds depicts its node.
-/

namespace ArithTree

/-- The plot shows what a plot node with these operands asks for under the bindings `b`. -/
structure Depicts [Numerics] (config : Config) (b : Bindings) (e s l h t : Expr) (p : Plot) : Prop where
  title : p.title = ""
  xLabel : p.xLabel = "x"
  yLabel : p.yLabel = "y"
  nonempty : 1 ≤ p.ys.length
  sameLength : p.ys.length = p.xs.length
  samples : ∃ name low high step, s = .var name ∧ b.get? name = none ∧
    evaluate b l = .ok low ∧ evaluate b h = .ok high ∧ evaluate b t = .ok step ∧
    Sweep.points config.mode low high step config.maxSamples = (p.xs.toArray, none) ∧
    ∀ (k : Nat) (x y : Float), p.xs[k]? = some x → p.ys[k]? = some y →
      evaluate (b.insert name (.num x)) e = .ok y

namespace Sweep

/-- What the checks of a plot have established when they give a span. -/
structure SpanOf [Numerics] (env : Environment) (e s l h t : Expr) (span : Span) : Prop where
  expression : span.expression = e
  slot : s = .var span.name
  low : evaluate env.bindings l = .ok span.low
  high : evaluate env.bindings h = .ok span.high
  step : evaluate env.bindings t = .ok span.step
  unbound : env.isBound span.name = false
  ordered : span.low ≤ span.high
  positive : ¬ span.step ≤ 0

theorem spanOf_ok [Numerics] {env : Environment} {e s l h t : Expr} {span : Span}
    (hspan : spanOf env e s l h t = .ok span) : SpanOf env e s l h t span := by
  unfold spanOf at hspan
  split at hspan
  · cases hspan
  rename_i name hs
  split at hspan
  · cases hspan
  rename_i low hlow
  split at hspan
  · cases hspan
  rename_i high hhigh
  split at hspan
  · cases hspan
  rename_i step hstep
  split at hspan
  · cases hspan
  rename_i hordered
  split at hspan
  · cases hspan
  rename_i hunbound
  split at hspan
  · cases hspan
  rename_i hpositive
  split at hspan
  · rename_i hfinite
    cases hspan
    simp only [Bool.and_eq_true] at hfinite
    obtain ⟨⟨hfl, hfh⟩, -⟩ := hfinite
    exact ⟨rfl, Expr.asVariable?_eq_some.mp hs, hlow, hhigh, hstep, by simpa using hunbound,
      Double.le_of_not_lt hfl hfh hordered, hpositive⟩
  · cases hspan

end Sweep

namespace Command

open Sweep

variable {env : Environment} {e s l h t : Expr} {span : Span}

/-- The samples of a complete sweep make a plot of the node that the span comes from. -/
theorem depicts_of_gathered [Numerics] {config : Config} (hspan : SpanOf env e s l h t span)
    {visited : Array Float} {values : List Float} {p : Progress}
    (hpoints : points config.mode span.low span.high span.step config.maxSamples = (visited, none))
    (hvalues : visited.toList.map (span.valueAt env.bindings) = values.map .ok)
    (hp : Gathered env visited.toList values p) :
    Depicts config env.bindings e s l h t ⟨"", "x", "y", p.xs.toList, p.ys.toList⟩ := by
  have hlength : values.length = visited.toList.length := by
    simpa using (congrArg List.length hvalues).symm
  have hsome : 1 ≤ visited.size := by
    have hordered : Arithmetic.le span.low span.high = true := by
      show decide (span.low ≤ span.high) = true
      simpa using hspan.ordered
    have hcomplete := points_nonempty hordered (congrArg Prod.snd hpoints)
    rwa [hpoints] at hcomplete
  rw [hp.xs, hp.ys]
  refine ⟨rfl, rfl, rfl, ?_, hlength, span.name, span.low, span.high, span.step, hspan.slot,
    Environment.isBound_eq_false.mp hspan.unbound, hspan.low, hspan.high, hspan.step, hpoints, ?_⟩
  · show 1 ≤ values.length
    rw [hlength]
    exact hsome
  · intro k x y hx hy
    have hk : (visited.toList.map (span.valueAt env.bindings))[k]? = (values.map .ok)[k]? := by
      rw [hvalues]
    rw [List.getElem?_map, List.getElem?_map] at hk
    simp only [hx, hy, Option.map_some, Option.some.injEq] at hk
    rw [← hspan.expression]
    exact hk

/-- A plot node either succeeds with its expression and one new plot, or fails and leaves all as it
was. -/
theorem plot_cases [Numerics] (hwf : env.bindings.WellFormed) (config : Config) (logger : LoggerId) (log : Log)
    (e s l h t : Expr) :
    (∃ p, (plot config logger env log (.plot e s l h t)).result = .ok e ∧
        (plot config logger env log (.plot e s l h t)).env.sink = env.sink ++ [p] ∧
        (plot config logger env log (.plot e s l h t)).env.bindings.Alike env.bindings ∧
        Depicts config env.bindings e s l h t p) ∨
      ∃ f, (plot config logger env log (.plot e s l h t)).result = .error f ∧
        (plot config logger env log (.plot e s l h t)).env.Alike env := by
  cases hspan : spanOf env e s l h t with
  | error f =>
    refine .inr ⟨f, ?_⟩
    simp only [plot, hspan]
    exact ⟨trivial, .refl hwf, rfl⟩
  | ok span =>
    have hs := spanOf_ok hspan
    rcases hpoints : points config.mode span.low span.high span.step config.maxSamples
      with ⟨visited, stop⟩
    obtain ⟨values, p, hvalues, hp, hg⟩ | ⟨done, x, rest, values, f, p, -, -, -, hp, hg⟩ :=
      sample_cases hwf hs.unbound hpoints logger log
    · cases stop with
      | none =>
        refine .inl ⟨⟨"", "x", "y", p.xs.toList, p.ys.toList⟩, ?_⟩
        simp only [plot, hspan, hp, Option.map]
        exact ⟨trivial, congrArg (· ++ [_]) hg.env.sink, hg.env.bindings,
          depicts_of_gathered hs hpoints hvalues hg⟩
      | some stop =>
        refine .inr ⟨Failure.ofStop stop, ?_⟩
        simp only [plot, hspan, hp, Option.map]
        exact ⟨trivial, hg.env⟩
    · refine .inr ⟨f, ?_⟩
      simp only [plot, hspan, hp]
      exact ⟨trivial, hg.env⟩

theorem plot_depicts [Numerics] (hwf : env.bindings.WellFormed) {config : Config} {logger : LoggerId}
    {log : Log} {r : Expr} (hr : (plot config logger env log (.plot e s l h t)).result = .ok r) :
    r = e ∧ ∃ p, (plot config logger env log (.plot e s l h t)).env.sink = env.sink ++ [p] ∧
      Depicts config env.bindings e s l h t p := by
  obtain ⟨p, hresult, hsink, -, hp⟩ | ⟨f, hresult, -⟩ :=
    plot_cases hwf config logger log e s l h t
  · rw [hresult] at hr
    cases hr
    exact ⟨rfl, p, hsink, hp⟩
  · rw [hresult] at hr
    cases hr

/-- A slope, and a name that stands for a tree with a free variable. -/
def sloped : Bindings :=
  Dictionary.ofList 1 [("a", .num 3), ("g", .binary .mul (.var "x") (.var "a"))]

open scoped Elementary in
theorem plot_depicts_sloped :
    sloped.WellFormed ∧
      (plot {} 0 ⟨sloped, []⟩ {} (.plot (.var "g") (.var "x") (.num 0) (.num 1)
        (.binary .div (.num 1) (.num 2)))).result = .ok (.var "g") ∧
        Expr.var "g" = .var "g" ∧ ∃ p, (plot {} 0 ⟨sloped, []⟩ {} (.plot (.var "g") (.var "x")
          (.num 0) (.num 1) (.binary .div (.num 1) (.num 2)))).env.sink = [] ++ [p] ∧
          Depicts {} sloped (.var "g") (.var "x") (.num 0) (.num 1)
            (.binary .div (.num 1) (.num 2)) p :=
  have hwf := Dictionary.wellFormed_ofList Nat.one_pos _
  ⟨hwf, rfl, plot_depicts hwf rfl⟩

end Command
end ArithTree
