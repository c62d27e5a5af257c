import ArithTree.Elementary.Rounded
import ArithTree.Symbolic.Canonical
import ArithTree.Proofs.Session.Steps
import Mathlib.Data.List.Forall2

/-!
# ArithTree.Proofs.Session.Bindings

What a whole session leaves behind in the environment.

* `runAll_bindings`: the bindings are those after the definitions and removals of the session only.
* `runAll_sink`: the sink has one plot more for each plot of the session that succeeded, in order.
* `runAll_effects`: both together, at any time of a session.
-/

namespace ArithTree
namespace Calculator

variable {c : Calculator}

/-- A session does to the bindings what its definitions and removals do by themselves, and these have
the same results. -/
theorem runAll_bindings [Numerics] [Symbolic.Library] (as : List Action) :
    ∀ (c c' : Calculator) (log log' : Log), c.env.bindings.Alike c'.env.bindings →
      (c.runAll log as).2.1.env.bindings.Alike
          (c'.runAll log' (as.filter Action.isBinding)).2.1.env.bindings ∧
        ((as.zip (c.runAll log as).1).filter fun r => r.1.isBinding).map Prod.snd =
          (c'.runAll log' (as.filter Action.isBinding)).1 := by
  induction as with
  | nil =>
    intro c c' log log' h
    exact ⟨h, rfl⟩
  | cons a as ih =>
    intro c c' log log' h
    cases ha : a.isBinding with
    | false =>
      have hstep := (perform_command ha h.left log).1.trans h
      obtain ⟨hb, hr⟩ := ih _ c' (c.perform log a).log log' hstep
      simp only [runAll, List.zip_cons_cons, List.filter_cons, ha, Bool.false_eq_true, if_false]
      exact ⟨hb, hr⟩
    | true =>
      obtain ⟨hresult, hstep, -⟩ := perform_binding ha h log log'
      obtain ⟨hb, hr⟩ := ih _ _ (c.perform log a).log (c'.perform log' a).log hstep
      simp only [runAll, List.zip_cons_cons, List.filter_cons, ha, if_true, List.map_cons]
      exact ⟨hb, by rw [hresult, hr]⟩

theorem runAll_sink [Numerics] [Symbolic.Library] (as : List Action) :
    ∀ (c : Calculator) (log : Log), c.env.bindings.WellFormed →
      ∃ plots, (c.runAll log as).2.1.env.sink = c.env.sink ++ plots ∧
        List.Forall₂ (Step.Shows c.config)
          ((c.steps log as).filter fun s => s.plotted?.isSome) plots := by
  induction as with
  | nil =>
    intro c log hwf
    exact ⟨[], by simp [runAll], .nil⟩
  | cons a as ih =>
    intro c log hwf
    obtain ⟨hwf', hrecords⟩ := perform_records hwf log a
    obtain ⟨plots, hsink, hplots⟩ := ih (c.perform log a).calculator (c.perform log a).log hwf'
    rw [perform_config] at hplots
    simp only [runAll, steps, List.filter_cons]
    obtain ⟨p, ⟨node, hnode, hp⟩, hs⟩ | ⟨hnone, hs⟩ := hrecords
    · refine ⟨p :: plots, ?_, ?_⟩
      · rw [hsink, hs]
        simp
      · simp only [hnode, Option.isSome_some, if_true]
        exact .cons ⟨node, hnode, hp⟩ hplots
    · refine ⟨plots, by rw [hsink, hs], ?_⟩
      simp only [hnone, Option.isSome_none, Bool.false_eq_true, if_false]
      exact hplots

/-- The bindings, the outcomes of definitions and removals, and the plots at any time of a session:
`as` is what has been asked so far. -/
theorem runAll_effects [Numerics] [Symbolic.Library] (hwf : c.env.bindings.WellFormed) (log log' : Log)
    (as : List Action) :
    (c.runAll log as).2.1.env.bindings.entries =
        (c.runAll log' (as.filter Action.isBinding)).2.1.env.bindings.entries ∧
      ((as.zip (c.runAll log as).1).filter fun r => r.1.isBinding).map Prod.snd =
        (c.runAll log' (as.filter Action.isBinding)).1 ∧
      ∃ plots, (c.runAll log as).2.1.env.sink = c.env.sink ++ plots ∧
        List.Forall₂ (Step.Shows c.config)
          ((c.steps log as).filter fun s => s.plotted?.isSome) plots := by
  obtain ⟨hbindings, hresults⟩ := runAll_bindings as c c log log' (.refl hwf)
  exact ⟨hbindings.entries, hresults, runAll_sink as c log hwf⟩

/-- A plot that succeeds, one of a bound name, one whose sweep is too long, and changes of the bindings
between them. -/
def errands : List Action :=
  [.plot (.var "g") (.var "x") (.num 0) (.num 1) (.binary .div (.num 1) (.num 2)),
    .define "x" (.num 5), .plot (.var "g") (.var "x") (.num 0) (.num 1) (.num 1),
    .undefine "x", .undefine "x", .toDouble (.var "g"),
    .plot (.var "x") (.var "x") (.num 0) (.num 9) (.num 1), .define "a" (.num 4)]

def slopedCalculator : Calculator := ⟨{ maxSamples := 4 }, ⟨Command.sloped, []⟩, 0⟩

open scoped Elementary Symbolic.Canonical in
theorem runAll_effects_errands :
    slopedCalculator.env.bindings.WellFormed ∧
      ((slopedCalculator.steps {} errands).filter fun s => s.plotted?.isSome).length = 1 ∧
      (slopedCalculator.runAll {} errands).2.1.env.bindings.entries =
        (slopedCalculator.runAll {} (errands.filter Action.isBinding)).2.1.env.bindings.entries ∧
      ((errands.zip (slopedCalculator.runAll {} errands).1).filter fun r => r.1.isBinding).map
          Prod.snd =
        (slopedCalculator.runAll {} (errands.filter Action.isBinding)).1 ∧
      ∃ plots, (slopedCalculator.runAll {} errands).2.1.env.sink = [] ++ plots ∧
        List.Forall₂ (Step.Shows slopedCalculator.config)
          ((slopedCalculator.steps {} errands).filter fun s => s.plotted?.isSome) plots :=
  have hwf := Dictionary.wellFormed_ofList Nat.one_pos _
  ⟨hwf, rfl, runAll_effects hwf {} {} errands⟩

end Calculator
end ArithTree
