import ArithTree.Elementary.Rounded
import ArithTree.Symbolic.Canonical
import ArithTree.Proofs.Double.Conversion
import ArithTree.Proofs.Session.Steps
import ArithTree.Proofs.Simplify.Copying
import ArithTree.Proofs.Sweep.Stops

/-!
# ArithTree.Proofs.Session.Failures

How carrying out a node can fail. Eight failures are meant for it (`IsCommandFailure`); the others are
about nodes of the wrong shape, names that are not bound, and steps of a sweep that have been ruled
out before, and none of them is reached.

* `spanOf_failure`, `sample_failure`: the checks before a sweep, and the sweep.
* `Command.run_isCommandOutcome`: a well-formed node under bindings to well-formed trees.
* `Calculator.Sound`: what every step of a session keeps.
* `Calculator.execute_contained`: a node at any time of a session.
-/

namespace ArithTree

inductive IsCommandFailure : Failure → Prop where
  | undefinedVariable (n : String) : IsCommandFailure (.undefinedVariable n)
  | unknownOperator (s : String) : IsCommandFailure (.unknownOperator s)
  | cyclicBinding (chain : List String) : IsCommandFailure (.cyclicBinding chain)
  | rangeInvalid (low high : Float) : IsCommandFailure (.rangeInvalid low high)
  | variableBound (n : String) : IsCommandFailure (.variableBound n)
  | stepNotPositive (step : Float) : IsCommandFailure (.stepNotPositive step)
  | slotInvalid (text : String) : IsCommandFailure (.slotInvalid text)
  | unbounded (why : Sweep.Unbounded Float) : IsCommandFailure (.unbounded why)

theorem IsTreeFailure.isCommandFailure {f : Failure} (h : IsTreeFailure f) : IsCommandFailure f := by
  cases h with
  | undefinedVariable n => exact .undefinedVariable n
  | unknownOperator s => exact .unknownOperator s
  | cyclicBinding chain => exact .cyclicBinding chain

theorem IsCommandFailure.isEvaluation {f : Failure} (h : IsCommandFailure f) : f.isEvaluation = true := by
  cases h <;> rfl

/-- A node, or a failure that is meant for commands. -/
inductive IsCommandOutcome : Except Failure Expr → Prop where
  | node {e : Expr} : e.WellFormed → IsCommandOutcome (.ok e)
  | failure {f : Failure} : IsCommandFailure f → IsCommandOutcome (.error f)

/-! ## Sweeps -/

namespace Sweep

variable [Numerics] {env : Environment} {e s l h t : Expr} {span : Span} {f : Failure}

theorem spanOf_failure (hb : TreesWellFormed env.bindings) (hl : l.WellFormed) (hh : h.WellFormed)
    (ht : t.WellFormed) (hf : spanOf env e s l h t = .error f) : IsCommandFailure f := by
  unfold spanOf at hf
  split at hf
  · cases hf
    exact .slotInvalid _
  split at hf
  · rename_i heval
    cases hf
    exact (evaluate_isTreeFailure hb hl heval).isCommandFailure
  split at hf
  · rename_i heval
    cases hf
    exact (evaluate_isTreeFailure hb hh heval).isCommandFailure
  split at hf
  · rename_i heval
    cases hf
    exact (evaluate_isTreeFailure hb ht heval).isCommandFailure
  split at hf
  · cases hf
    exact .rangeInvalid _ _
  split at hf
  · cases hf
    exact .variableBound _
  split at hf
  · cases hf
    exact .stepNotPositive _
  split at hf
  · cases hf
  · cases hf
    exact .unbounded _

/-- A sample fails as the evaluation of its expression does; binding and removing the swept name
always succeed. -/
theorem sample_failure (hwf : env.bindings.WellFormed) (hb : TreesWellFormed env.bindings)
    (he : e.WellFormed) (hspan : SpanOf env e s l h t span) {mode : Mode} {limit : Nat}
    {logger : LoggerId} {log : Log} {p : Progress}
    (hf : sample mode limit logger span env log = (p, some f)) : IsCommandFailure f := by
  rcases hpoints : points mode span.low span.high span.step limit with ⟨visited, stop⟩
  obtain ⟨values, q, -, hq, -⟩ | ⟨done, x, rest, values, g, q, -, -, hx, hq, -⟩ :=
    sample_cases hwf hspan.unbound hpoints logger log
  · rw [hq] at hf
    cases stop with
    | none => cases hf
    | some stop =>
      have hstop : (pointList mode span.low span.high span.step limit).2 = some stop := by
        rw [points_eq] at hpoints
        exact congrArg Prod.snd hpoints
      obtain ⟨why, rfl⟩ := pointList_stop (same_zero hspan.positive) hstop
      cases hf
      exact .unbounded why
  · rw [hq] at hf
    cases hf
    have hbound := hb.insert hwf span.name (Expr.wellFormed_num x)
    rw [Span.valueAt, hspan.expression] at hx
    exact (evaluate_isTreeFailure hbound he hx).isCommandFailure

end Sweep

/-! ## Commands -/

namespace Command

variable {env : Environment}

theorem subject_request (r : Request) (e : Expr) : subject (.request r e) = .ok e := rfl

variable [Numerics]

theorem toDouble_isCommandOutcome (hb : TreesWellFormed env.bindings) {e : Expr}
    (he : e.WellFormed) : IsCommandOutcome (toDouble env (.request .toDouble e)) := by
  cases heval : env.evaluate e with
  | error f =>
    simp only [toDouble, subject_request, heval]
    exact .failure (evaluate_isTreeFailure hb he heval).isCommandFailure
  | ok x =>
    simp only [toDouble, subject_request, heval]
    exact .node (Expr.wellFormed_num x)

theorem simplify_isCommandOutcome (hb : TreesWellFormed env.bindings) (config : Config) {e : Expr}
    (he : e.WellFormed) : IsCommandOutcome (simplify config env (.request .simplify e)) := by
  simp only [simplify, subject_request, simplifyBuilding_eq hb he]
  exact .node (wellFormed_simplifyWith (fun _ _ => hb.of_get?) he)

theorem plot_isCommandOutcome (hwf : env.bindings.WellFormed) (hb : TreesWellFormed env.bindings)
    (config : Config) (logger : LoggerId) (log : Log) {e s l h t : Expr} (he : e.WellFormed)
    (hl : l.WellFormed) (hh : h.WellFormed) (ht : t.WellFormed) :
    IsCommandOutcome (plot config logger env log (.plot e s l h t)).result := by
  cases hspan : Sweep.spanOf env e s l h t with
  | error f =>
    simp only [plot, hspan]
    exact .failure (Sweep.spanOf_failure hb hl hh ht hspan)
  | ok span =>
    rcases hsample : Sweep.sample config.mode config.maxSamples logger span env log with ⟨p, _ | f⟩
    · simp only [plot, hspan, hsample]
      exact .node he
    · simp only [plot, hspan, hsample]
      exact .failure (Sweep.sample_failure hwf hb he (Sweep.spanOf_ok hspan) hsample)

theorem run_isCommandOutcome (hwf : env.bindings.WellFormed) (hb : TreesWellFormed env.bindings)
    (config : Config) (logger : LoggerId) (log : Log) {node : Expr} (hnode : node.WellFormed) :
    IsCommandOutcome (run config logger env log node).result := by
  cases node with
  | request r e =>
    cases r with
    | toDouble => exact toDouble_isCommandOutcome hb hnode
    | simplify => exact simplify_isCommandOutcome hb config hnode
  | plot e s l h t =>
    obtain ⟨he, -, hl, hh, ht⟩ := (Expr.wellFormed_plot e s l h t).mp hnode
    exact plot_isCommandOutcome hwf hb config logger log he hl hh ht
  | num x => exact .failure (.unknownOperator _)
  | var n => exact .failure (.unknownOperator _)
  | unary op a => exact .failure (.unknownOperator _)
  | binary op a b => exact .failure (.unknownOperator _)
  | foreign v => exact .failure (.unknownOperator _)

end Command

/-! ## Sessions -/

/-- A definition is given a tree without foreign values; other steps may be given anything. -/
def Action.Sound : Action → Prop
  | .define _ given =>
    match Expr.ofCaller given with
    | .ok e => e.WellFormed
    | .error _ => True
  | _ => True

namespace Calculator

variable {c : Calculator}

structure Sound (c : Calculator) : Prop where
  bindings : c.env.bindings.WellFormed
  trees : TreesWellFormed c.env.bindings

theorem Sound.of_alike {c' : Calculator} (h : c.Sound)
    (halike : c'.env.bindings.Alike c.env.bindings) : c'.Sound := by
  refine ⟨halike.left, ?_⟩
  unfold TreesWellFormed
  rw [halike.entries]
  exact h.trees

theorem make_sound (config : Config) {b : Bindings} (hb : b.WellFormed) (ht : TreesWellFormed b)
    (log : Log) : (make config b log).1.Sound :=
  ⟨hb, ht⟩

theorem undefine_sound (h : c.Sound) (log : Log) (name : String) :
    (c.undefine log name).calculator.Sound := by
  cases hf : Entries.find? c.env.bindings.entries name with
  | none =>
    simp only [undefine, Environment.unbind, Dictionary.remove_absent hf]
    exact h
  | some en =>
    obtain ⟨b, hremove, hwf, hentries⟩ := h.bindings.remove hf
    simp only [undefine, Environment.unbind, hremove]
    refine ⟨hwf, fun en' hen' => h.trees en' ?_⟩
    rw [hentries] at hen'
    exact List.mem_of_mem_eraseP hen'

section

variable [Numerics]

/-- What carrying out a node comes to. The mode of a sweep is looked up by name, and `named` says that it is found:
the points are those of the mode, and a sweep that they do not complete has no reasonable end. The points are computed
from the numbers up to one more than the whole steps in the range of the sweep; `countable` says that all of these have
a double. -/
structure Contained (c : Calculator) (log : Log) (node : Expr) : Prop where
  outcome : IsCommandOutcome (c.execute log node).result
  named : ∀ e s l h t span, node = .plot e s l h t → Sweep.spanOf c.env e s l h t = .ok span →
    (Sweep.pointsNamed c.config.mode.name span.low span.high span.step c.config.maxSamples).1 =
        (Sweep.points c.config.mode span.low span.high span.step c.config.maxSamples).1 ∧
      ∀ f, (Sweep.pointsNamed c.config.mode.name span.low span.high span.step c.config.maxSamples).2 = some f →
        ∃ why, f = .unbounded why
  countable : ∀ e s l h t span n, node = .plot e s l h t →
    Sweep.spanOf c.env e s l h t = .ok span →
    Double.floor? ((span.high - span.low) / span.step) = some n →
    ∀ k : Int, k.natAbs ≤ n.natAbs + 1 → Double.ofInt? k = some (Double.ofInt k)

theorem Sound.contained (h : c.Sound) (log : Log) {node : Expr} (hnode : node.WellFormed) :
    Contained c log node := by
  refine ⟨?_, fun e s l h t span _ hspan => ⟨?_, fun f hf => ?_⟩,
    fun e s l h t span n _ _ hn k hk => Double.ofInt?_of_floor? hn hk⟩
  · rw [(execute_eq c log node).1]
    exact Command.run_isCommandOutcome h.bindings h.trees c.config c.logger log hnode
  · rw [Sweep.pointsNamed_name]
  · exact Sweep.pointsNamed_stop (Sweep.spanOf_ok hspan).positive hf

variable [Symbolic.Library]

theorem perform_sound (h : c.Sound) (log : Log) {a : Action} (ha : a.Sound) :
    (c.perform log a).calculator.Sound := by
  cases hbinding : a.isBinding with
  | false => exact h.of_alike (perform_command hbinding h.bindings log).1
  | true =>
    cases a with
    | define name given =>
      cases hgiven : Expr.ofCaller given with
      | error f =>
        simp only [perform, define, hgiven, Outcome.map]
        exact h
      | ok e =>
        have he : e.WellFormed := by
          simp only [Action.Sound, hgiven] at ha
          exact ha
        simp only [perform, define, hgiven, Outcome.map]
        exact ⟨(h.bindings.insert name e).1, h.trees.insert h.bindings name he⟩
    | undefine name => exact undefine_sound h log name
    | toDouble given => cases hbinding
    | simplify given => cases hbinding
    | plot e s l h t => cases hbinding
    | execute node => cases hbinding
    | missing e => cases hbinding
    | typeset substituting e => cases hbinding

theorem runAll_sound (as : List Action) :
    ∀ (c : Calculator) (log : Log), c.Sound → (∀ a ∈ as, a.Sound) →
      (c.runAll log as).2.1.Sound := by
  induction as with
  | nil =>
    intro c log h _
    exact h
  | cons a as ih =>
    intro c log h has
    have hstep := perform_sound h log (has a List.mem_cons_self)
    exact ih _ _ hstep fun a' ha' => has a' (List.mem_cons_of_mem a ha')

theorem execute_contained (config : Config) {b : Bindings} (hb : b.WellFormed)
    (ht : TreesWellFormed b) {as : List Action} (has : ∀ a ∈ as, a.Sound) {node : Expr}
    (hnode : node.WellFormed) (log log' log'' : Log) :
    Contained ((make config b log).1.runAll log' as).2.1 log'' node :=
  (runAll_sound as _ _ (make_sound config hb ht log) has).contained log'' hnode

end

/-- A cycle is defined, a name is undefined twice, a sweep is too long, and a list is no tree. -/
def mishaps : List Action :=
  [.define "y" (.binary .div (.var "z") (.num 0)), .define "z" (.var "y"), .undefine "a",
    .undefine "a", .plot (.var "g") (.var "x") (.num 0) (.num 9) (.num 1),
    .define "x" (.foreign .list)]

open scoped Elementary Symbolic.Canonical in
/-- The upper bound of the plot is the name of a cycle. -/
theorem execute_contained_mishaps :
    Command.sloped.WellFormed ∧ TreesWellFormed Command.sloped ∧ (∀ a ∈ mishaps, a.Sound) ∧
      (Expr.plot (.var "g") (.var "x") (.num 0) (.var "y") (.num 1)).WellFormed ∧
        Contained ((make { maxSamples := 4 } Command.sloped {}).1.runAll {} mishaps).2.1 {}
          (.plot (.var "g") (.var "x") (.num 0) (.var "y") (.num 1)) :=
  have hwf : Command.sloped.WellFormed := Dictionary.wellFormed_ofList Nat.one_pos _
  have hsound : ∀ a ∈ mishaps, a.Sound := by simp [mishaps, Action.Sound, Expr.ofCaller]
  ⟨hwf, by decide, hsound, by decide,
    execute_contained { maxSamples := 4 } hwf (by decide) hsound (by decide) {} {} {}⟩

end Calculator
end ArithTree
