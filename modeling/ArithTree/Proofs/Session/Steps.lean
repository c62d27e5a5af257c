import ArithTree.Proofs.Command.Plot
import ArithTree.Session

/-!
# ArithTree.Proofs.Session.Steps

What one step of a session does to the environment. Definitions and their removals work on the
bindings alone; commands and questions leave the bindings as they are, and a plot that succeeds adds
one plot to the sink.

* `execute_cases`: carrying out a node.
* `perform_command`: a step that is no definition and no removal keeps the bindings.
* `perform_binding`: a definition or a removal does the same under alike bindings.
* `perform_records`: any step adds to the sink what it has plotted.
* `perform_calculator`: no step changes the configuration or the logger.
-/

namespace ArithTree

/-- Does a step define a name or remove a definition? -/
def Action.isBinding : Action → Bool
  | .define .. | .undefine _ => true
  | _ => false

/-- The plot node that a step carries out, if it carries out one. -/
def Action.plotNode? : Action → Option Expr
  | .plot e s l h t => (Calculator.plotNode e s l h t).toOption
  | .execute (.plot e s l h t) => some (.plot e s l h t)
  | _ => none

/-- The plot shows what this node asks for under the bindings `b`. -/
def DepictsNode [Numerics] (config : Config) (b : Bindings) (node : Expr) (p : Plot) : Prop :=
  ∃ e s l h t, node = .plot e s l h t ∧ Depicts config b e s l h t p

/-- A step that was taken: the calculator before it, and its result. -/
structure Step where
  before : Calculator
  action : Action
  result : Except Failure Answer

/-- The node of a plot that succeeded. -/
def Step.plotted? (s : Step) : Option Expr :=
  match s.result with
  | .ok _ => s.action.plotNode?
  | .error _ => none

/-- The step is a plot that succeeded, and the plot shows what it asked for. -/
def Step.Shows [Numerics] (config : Config) (s : Step) (p : Plot) : Prop :=
  ∃ node, s.plotted? = some node ∧ DepictsNode config s.before.env.bindings node p

/-- The step adds to the sink what it shows: one plot or nothing. -/
def Step.Records [Numerics] (s : Step) (sink sink' : Sink) : Prop :=
  (∃ p, s.Shows s.before.config p ∧ sink' = sink ++ [p]) ∨ s.plotted? = none ∧ sink' = sink

namespace Calculator

variable {c c' : Calculator}

theorem plotNode_ok {e s l h t node : Expr} (hnode : plotNode e s l h t = .ok node) :
    (Action.execute node).plotNode? = some node := by
  unfold plotNode at hnode
  split at hnode
  · cases hnode
  split at hnode
  · cases hnode
  split at hnode
  · cases hnode
  split at hnode
  · cases hnode
  split at hnode
  · cases hnode
  cases hnode
  rfl

theorem plotNode?_of_isBinding {a : Action} (ha : a.isBinding = true) : a.plotNode? = none := by
  cases a with
  | define name given => rfl
  | undefine name => rfl
  | toDouble given => cases ha
  | simplify given => cases ha
  | missing e => cases ha
  | typeset substituting e => cases ha
  | execute node => cases ha
  | plot e s l h t => cases ha

theorem plotted?_eq_none {a : Action} (ha : a.plotNode? = none) (result : Except Failure Answer) :
    Step.plotted? ⟨c, a, result⟩ = none := by
  cases result with
  | ok r => exact ha
  | error f => rfl

theorem unbind_alike {env env' : Environment} (h : env.bindings.Alike env'.bindings)
    (name : String) :
    (env.unbind name).1 = (env'.unbind name).1 ∧
      (env.unbind name).2.bindings.Alike (env'.unbind name).2.bindings ∧
      (env.unbind name).2.sink = env.sink := by
  obtain ⟨hr, hr'⟩ | ⟨e, b, b', hr, hr', hb⟩ := h.remove name
  · simp only [Environment.unbind, hr, hr']
    exact ⟨trivial, h, trivial⟩
  · simp only [Environment.unbind, hr, hr']
    exact ⟨trivial, hb, trivial⟩

variable [Numerics]

theorem execute_eq (c : Calculator) (log : Log) (node : Expr) :
    (c.execute log node).result = (Command.run c.config c.logger c.env log node).result ∧
      (c.execute log node).calculator =
        { c with env := (Command.run c.config c.logger c.env log node).env } := by
  cases hr : (Command.run c.config c.logger c.env log node).result with
  | ok e =>
    simp only [execute, hr]
    split
    · exact ⟨rfl, rfl⟩
    · exact ⟨rfl, rfl⟩
    · exact ⟨rfl, rfl⟩
  | error f =>
    simp only [execute, hr]
    split
    · cases f.isEvaluation <;> exact ⟨rfl, rfl⟩
    · cases f.isEvaluation <;> exact ⟨rfl, rfl⟩
    · exact ⟨rfl, rfl⟩

/-- A node leaves the environment as it was, unless it is a plot that succeeds. -/
theorem execute_cases (hwf : c.env.bindings.WellFormed) (log : Log) (node : Expr) :
    (∃ p e, DepictsNode c.config c.env.bindings node p ∧ (c.execute log node).result = .ok e ∧
        (c.execute log node).calculator.env.sink = c.env.sink ++ [p] ∧
        (c.execute log node).calculator.env.bindings.Alike c.env.bindings) ∨
      (c.execute log node).calculator.env.Alike c.env ∧
        ((Action.execute node).plotNode? = none ∨ ∃ f, (c.execute log node).result = .error f) := by
  obtain ⟨hresult, hcalculator⟩ := execute_eq c log node
  rw [hresult, hcalculator]
  have hsame : c.env.Alike c.env := ⟨.refl hwf, rfl⟩
  cases node with
  | plot e s l h t =>
    simp only [Command.run]
    obtain ⟨p, hr, hsink, halike, hp⟩ | ⟨f, hr, halike⟩ :=
      Command.plot_cases hwf c.config c.logger log e s l h t
    · exact .inl ⟨p, e, ⟨e, s, l, h, t, rfl, hp⟩, hr, hsink, halike⟩
    · exact .inr ⟨halike, .inr ⟨f, hr⟩⟩
  | request r a => cases r <;> exact .inr ⟨hsame, .inl rfl⟩
  | num x => exact .inr ⟨hsame, .inl rfl⟩
  | var n => exact .inr ⟨hsame, .inl rfl⟩
  | unary op a => exact .inr ⟨hsame, .inl rfl⟩
  | binary op a b => exact .inr ⟨hsame, .inl rfl⟩
  | foreign v => exact .inr ⟨hsame, .inl rfl⟩

/-- A request changes nothing but the log. -/
theorem execute_request (c : Calculator) (log : Log) (r : Request) (e : Expr) :
    (c.execute log (.request r e)).calculator = c := by
  rw [(execute_eq c log (.request r e)).2]
  cases r <;> rfl

theorem toDouble_calculator (c : Calculator) (log : Log) (given : Expr) :
    (c.toDouble log given).calculator = c := by
  unfold toDouble
  split
  · rfl
  · rename_i e _
    have hc := execute_request c log .toDouble e
    dsimp only
    split
    · exact hc
    · exact hc

theorem simplify_calculator (c : Calculator) (log : Log) (given : Expr) :
    (c.simplify log given).calculator = c := by
  unfold simplify
  split
  · rfl
  · exact execute_request c log .simplify _

/-- Taking a step by carrying out its node. -/
theorem execute_records {a : Action} {node : Expr} (hnode : a.plotNode? = (Action.execute node).plotNode?)
    (hwf : c.env.bindings.WellFormed) (log : Log) :
    (c.execute log node).calculator.env.bindings.Alike c.env.bindings ∧
      Step.Records ⟨c, a, (c.execute log node).result.map .tree⟩ c.env.sink
        (c.execute log node).calculator.env.sink := by
  obtain ⟨p, r, hp, hr, hsink, halike⟩ | ⟨halike, hnone | ⟨f, hr⟩⟩ := execute_cases hwf log node
  · refine ⟨halike, .inl ⟨p, ⟨node, ?_, hp⟩, hsink⟩⟩
    obtain ⟨e, s, l, h, t, rfl, -⟩ := hp
    rw [hr]
    exact hnode
  · exact ⟨halike.bindings, .inr ⟨plotted?_eq_none (hnode.trans hnone) _, halike.sink⟩⟩
  · refine ⟨halike.bindings, .inr ⟨?_, halike.sink⟩⟩
    rw [hr]
    rfl

variable [Symbolic.Library]

/-- The steps of a session as they are taken. -/
def steps (c : Calculator) (log : Log) : List Action → List Step
  | [] => []
  | a :: rest =>
    let o := c.perform log a
    ⟨c, a, o.result⟩ :: o.calculator.steps o.log rest

theorem steps_actions (as : List Action) :
    ∀ (c : Calculator) (log : Log), (c.steps log as).map Step.action = as := by
  induction as with
  | nil => intro c log; rfl
  | cons a as ih =>
    intro c log
    simp only [steps, List.map_cons, ih]

theorem steps_results (as : List Action) :
    ∀ (c : Calculator) (log : Log), (c.steps log as).map Step.result = (c.runAll log as).1 := by
  induction as with
  | nil => intro c log; rfl
  | cons a as ih =>
    intro c log
    simp only [steps, runAll, List.map_cons, ih]

theorem perform_command {a : Action} (ha : a.isBinding = false) (hwf : c.env.bindings.WellFormed)
    (log : Log) :
    (c.perform log a).calculator.env.bindings.Alike c.env.bindings ∧
      Step.Records ⟨c, a, (c.perform log a).result⟩ c.env.sink
        (c.perform log a).calculator.env.sink := by
  -- The steps that are about no plot leave the whole calculator as it was.
  have idle (hnone : a.plotNode? = none) (hc : (c.perform log a).calculator = c) :
      (c.perform log a).calculator.env.bindings.Alike c.env.bindings ∧
        Step.Records ⟨c, a, (c.perform log a).result⟩ c.env.sink
          (c.perform log a).calculator.env.sink := by
    rw [hc]
    exact ⟨.refl hwf, .inr ⟨plotted?_eq_none hnone _, rfl⟩⟩
  cases a with
  | define name given => cases ha
  | undefine name => cases ha
  | toDouble given => exact idle rfl (toDouble_calculator c log given)
  | simplify given => exact idle rfl (simplify_calculator c log given)
  | missing e => exact idle rfl rfl
  | typeset substituting e => exact idle rfl rfl
  | execute node => exact execute_records rfl hwf log
  | plot e s l h t =>
    cases hnode : plotNode e s l h t with
    | error f =>
      refine idle ?_ ?_
      · simp only [Action.plotNode?, hnode, Except.toOption]
      · simp only [perform, plot, hnode, Outcome.map]
    | ok node =>
      simp only [perform, plot, hnode, Outcome.map]
      refine execute_records ?_ hwf log
      rw [plotNode_ok hnode]
      simp only [Action.plotNode?, hnode, Except.toOption]

theorem perform_binding {a : Action} (ha : a.isBinding = true)
    (h : c.env.bindings.Alike c'.env.bindings) (log log' : Log) :
    (c.perform log a).result = (c'.perform log' a).result ∧
      (c.perform log a).calculator.env.bindings.Alike (c'.perform log' a).calculator.env.bindings ∧
      (c.perform log a).calculator.env.sink = c.env.sink := by
  cases a with
  | define name given =>
    cases hgiven : Expr.ofCaller given with
    | error f =>
      simp only [perform, define, hgiven, Outcome.map]
      exact ⟨trivial, h, trivial⟩
    | ok e =>
      simp only [perform, define, hgiven, Outcome.map]
      exact ⟨trivial, h.insert name e, rfl⟩
  | undefine name =>
    obtain ⟨hr, hb, hs⟩ := unbind_alike h name
    simp only [perform, undefine, Outcome.map]
    exact ⟨by rw [hr], hb, hs⟩
  | toDouble given => cases ha
  | simplify given => cases ha
  | missing e => cases ha
  | typeset substituting e => cases ha
  | execute node => cases ha
  | plot e s l h t => cases ha

/-- What any step does: the bindings stay well-formed, and only a plot can reach the sink. -/
theorem perform_records (hwf : c.env.bindings.WellFormed) (log : Log) (a : Action) :
    (c.perform log a).calculator.env.bindings.WellFormed ∧
      Step.Records ⟨c, a, (c.perform log a).result⟩ c.env.sink
        (c.perform log a).calculator.env.sink := by
  cases ha : a.isBinding with
  | false =>
    obtain ⟨halike, hrecords⟩ := perform_command ha hwf log
    exact ⟨halike.left, hrecords⟩
  | true =>
    obtain ⟨-, halike, hsink⟩ := perform_binding ha (.refl hwf) log log
    exact ⟨halike.left, .inr ⟨plotted?_eq_none (plotNode?_of_isBinding ha) _, hsink⟩⟩

/-- A step changes nothing of a calculator but its environment. -/
theorem perform_calculator (c : Calculator) (log : Log) (a : Action) :
    (c.perform log a).calculator = { c with env := (c.perform log a).calculator.env } := by
  have idle {c' : Calculator} (h : c' = c) : c' = { c with env := c'.env } := by rw [h]
  have carried (node : Expr) : (c.execute log node).calculator =
      { c with env := (c.execute log node).calculator.env } := by
    rw [(execute_eq c log node).2]
  cases a with
  | define name given =>
    cases hgiven : Expr.ofCaller given with
    | error f => simp only [perform, define, hgiven, Outcome.map]
    | ok e => simp only [perform, define, hgiven, Outcome.map]
  | undefine name => rfl
  | toDouble given => exact idle (toDouble_calculator c log given)
  | simplify given => exact idle (simplify_calculator c log given)
  | missing e => rfl
  | typeset substituting e => rfl
  | execute node => exact carried node
  | plot e s l h t =>
    cases hnode : plotNode e s l h t with
    | error f => simp only [perform, plot, hnode, Outcome.map]
    | ok node =>
      simp only [perform, plot, hnode, Outcome.map]
      exact carried node

theorem perform_config (c : Calculator) (log : Log) (a : Action) :
    (c.perform log a).calculator.config = c.config := by
  rw [perform_calculator]

theorem perform_logger (c : Calculator) (log : Log) (a : Action) :
    (c.perform log a).calculator.logger = c.logger := by
  rw [perform_calculator]

end Calculator
end ArithTree
