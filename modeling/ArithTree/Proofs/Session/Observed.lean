import ArithTree.Elementary.Rounded
import ArithTree.Symbolic.Canonical
import ArithTree.Proofs.Session.Steps
import ArithTree.Proofs.Sweep.Watching

/-!
# ArithTree.Proofs.Session.Observed

Sessions and their log. A session comes to the same with any log, and what it reports is one row of events, of
which each log gets those that its level lets pass.

* `Command.run_told`, `Calculator.perform_told`: one node, one step.
* `Calculator.runAll_told`: a whole session.
* `Calculator.runAll_observed`: two sessions that differ in their logs only.
-/

namespace ArithTree

def Event.isSample : Event → Bool
  | .sample .. => true
  | _ => false

namespace Sweep

variable {span : Span}

theorem filter_isSample_told (samples : List (Float × Float)) (n : Nat) (failed : Option Failure) :
    (span.lines samples ++ span.summary n failed).filter Event.isSample = span.lines samples := by
  have hlines : (span.lines samples).filter Event.isSample = span.lines samples := by
    refine List.filter_eq_self.mpr fun e he => ?_
    obtain ⟨s, -, rfl⟩ := List.mem_map.mp he
    rfl
  have hsummary : (span.summary n failed).filter Event.isSample = [] := by
    cases failed <;> rfl
  rw [List.filter_append, hlines, hsummary, List.append_nil]

end Sweep

namespace Command

variable {env : Environment}

/-- A line for each sample that the sweep of a node completes, whether or not the sweep fails later. -/
def sampleLines [Numerics] (config : Config) (env : Environment) : Expr → List Event
  | .plot e s l h t =>
    match Sweep.spanOf env e s l h t with
    | .ok span => span.lines (span.completed env.bindings
        (Sweep.points config.mode span.low span.high span.step config.maxSamples).1.toList)
    | .error _ => []
  | _ => []

theorem run_told [Numerics] (hwf : env.bindings.WellFormed) (config : Config) (node : Expr) :
    ∃ result env' events, events.filter Event.isSample = sampleLines config env node ∧
      ∀ logger log, run config logger env log node = ⟨result, env', log.tell logger events⟩ := by
  cases node with
  | plot e s l h t =>
    cases hspan : Sweep.spanOf env e s l h t with
    | error f =>
      refine ⟨.error f, env, [], ?_, fun logger log => ?_⟩
      · simp only [sampleLines, hspan, List.filter_nil]
      · simp only [run, plot, hspan]
        rfl
    | ok span =>
      obtain ⟨p, failed, hp⟩ :=
        Sweep.sample_told hwf (Sweep.spanOf_ok hspan).unbound config.mode config.maxSamples
      generalize hevents : span.lines (span.completed env.bindings (Sweep.points config.mode span.low span.high
        span.step config.maxSamples).1.toList) ++ span.summary p.xs.size failed = events at hp
      have hsamples : events.filter Event.isSample = sampleLines config env (.plot e s l h t) := by
        rw [← hevents, Sweep.filter_isSample_told]
        simp only [sampleLines, hspan]
      cases failed with
      | some f =>
        refine ⟨.error f, p.env, events, hsamples, fun logger log => ?_⟩
        simp only [run, plot, hspan, hp]
        rfl
      | none =>
        refine ⟨.ok e, p.env.render ⟨"", "x", "y", p.xs.toList, p.ys.toList⟩, events, hsamples,
          fun logger log => ?_⟩
        simp only [run, plot, hspan, hp]
        rfl
  | request r a =>
    cases r with
    | toDouble => exact ⟨_, env, [], rfl, fun logger log => rfl⟩
    | simplify => exact ⟨_, env, [], rfl, fun logger log => rfl⟩
  | num x => exact ⟨_, env, [], rfl, fun logger log => rfl⟩
  | var n => exact ⟨_, env, [], rfl, fun logger log => rfl⟩
  | unary op a => exact ⟨_, env, [], rfl, fun logger log => rfl⟩
  | binary op a b => exact ⟨_, env, [], rfl, fun logger log => rfl⟩
  | foreign v => exact ⟨_, env, [], rfl, fun logger log => rfl⟩

end Command

/-- A line for each sample that a step completes. -/
def Step.sampleLines [Numerics] (s : Step) : List Event :=
  match s.action.plotNode? with
  | some node => Command.sampleLines s.before.config s.before.env node
  | none => []

namespace Calculator

variable {c : Calculator} {β γ : Type}

/-- The work comes to the same with any log, and is told to it as one row of events, with these lines about
samples. -/
def ToldBy (id : LoggerId) (lines : List Event) (work : Log → Outcome β) : Prop :=
  ∃ result c' events, events.filter Event.isSample = lines ∧
    ∀ log, work log = ⟨result, c', log.tell id events⟩

theorem ToldBy.silent (id : LoggerId) (result : Except Failure β) (c' : Calculator) :
    ToldBy id [] fun log => ⟨result, c', log⟩ :=
  ⟨result, c', [], rfl, fun _ => rfl⟩

theorem ToldBy.map {id : LoggerId} {lines : List Event} {work : Log → Outcome β} (h : ToldBy id lines work)
    (f : β → γ) : ToldBy id lines fun log => (work log).map f := by
  obtain ⟨result, c', events, hlines, hwork⟩ := h
  exact ⟨result.map f, c', events, hlines, fun log => congrArg (Outcome.map f) (hwork log)⟩

/-- What is said about a node at the end: how it went. -/
def closing (node : Expr) (result : Except Failure Expr) : List Event :=
  match node.operator? with
  | none | some (.binary _) | some (.unary _) => []
  | some op =>
    match result with
    | .ok e => [.info .moderate (node.text ++ " -> " ++ e.text)]
    | .error f => if f.isEvaluation then [.error (op.symbol ++ " failed: " ++ f.message)] else []

theorem filter_isSample_closing (node : Expr) (result : Except Failure Expr) :
    (closing node result).filter Event.isSample = [] := by
  unfold closing
  split
  · rfl
  · rfl
  · rfl
  · cases result with
    | ok e => rfl
    | error f =>
      dsimp only
      split
      · rfl
      · rfl

/-- Lines about samples pass at the highest level only. -/
theorem filter_isSample_passing (l : Level) (events : List Event) :
    (events.filter fun e => l.reports e.required).filter Event.isSample =
      if l = .verbose then events.filter Event.isSample else [] := by
  have hsample {e : Event} (he : e.isSample = true) : e.required = .verbose := by
    cases e <;> first | rfl | cases he
  rw [List.filter_filter, List.filter_congr fun e _ => Bool.and_comm _ _, ← List.filter_filter]
  split
  · rename_i hl
    exact List.filter_eq_self.mpr fun e _ => by rw [hl, Log.reports_verbose]
  · rename_i hl
    refine List.filter_eq_nil_iff.mpr fun e he => ?_
    rw [hsample (List.mem_filter.mp he).2, Log.reports_verbose_iff]
    exact hl

section

variable [Numerics]

theorem execute_log (c : Calculator) (log : Log) (node : Expr) :
    (c.execute log node).log = (Command.run c.config c.logger c.env log node).log.tell c.logger
      (closing node (Command.run c.config c.logger c.env log node).result) := by
  have nothing (log : Log) : log = log.tell c.logger [] := rfl
  cases hop : node.operator? with
  | none =>
    simp only [execute, closing, hop]
    exact nothing _
  | some op =>
    rcases op with op | op | _ | r
    · simp only [execute, closing, hop]
      exact nothing _
    · simp only [execute, closing, hop]
      exact nothing _
    all_goals
      cases hresult : (Command.run c.config c.logger c.env log node).result with
      | ok e =>
        simp only [execute, closing, hop, hresult, Log.report_eq]
      | error f =>
        cases hf : f.isEvaluation with
        | true => simp only [execute, closing, hop, hresult, hf, if_true, Log.report_eq]
        | false =>
          simp only [execute, closing, hop, hresult, hf, Bool.false_eq_true, if_false]
          exact nothing _

theorem execute_told (hwf : c.env.bindings.WellFormed) (node : Expr) :
    ToldBy c.logger (Command.sampleLines c.config c.env node) fun log => c.execute log node := by
  obtain ⟨result, env', events, hlines, hrun⟩ := Command.run_told hwf c.config node
  refine ⟨result, { c with env := env' }, events ++ closing node result, ?_, fun log => ?_⟩
  · rw [List.filter_append, hlines, filter_isSample_closing, List.append_nil]
  · obtain ⟨hresult, hcalculator⟩ := execute_eq c log node
    have hlog := execute_log c log node
    rw [hrun] at hresult hcalculator hlog
    dsimp only at hresult hcalculator hlog ⊢
    rw [Log.tell_append, ← hlog, ← hcalculator, ← hresult]

theorem sampleLines_execute (c : Calculator) (node : Expr) (result : Except Failure Answer) :
    Step.sampleLines ⟨c, .execute node, result⟩ = Command.sampleLines c.config c.env node := by
  cases node <;> rfl

theorem toDouble_told (hwf : c.env.bindings.WellFormed) (given : Expr) :
    ToldBy c.logger [] fun log => c.toDouble log given := by
  cases hgiven : Expr.ofCaller given with
  | error f =>
    simp only [toDouble, hgiven]
    exact .silent _ _ _
  | ok e =>
    obtain ⟨result, c', events, hlines, hexecute⟩ := execute_told hwf (.request .toDouble e)
    dsimp only at hexecute
    cases result with
    | error f =>
      refine ⟨.error f, c', events, hlines, fun log => ?_⟩
      simp only [toDouble, hgiven, hexecute]
    | ok e =>
      refine ⟨e.numericValue, c', events, hlines, fun log => ?_⟩
      simp only [toDouble, hgiven, hexecute]

variable [Symbolic.Library]

theorem perform_told (hwf : c.env.bindings.WellFormed) (a : Action) (result : Except Failure Answer) :
    ToldBy c.logger (Step.sampleLines ⟨c, a, result⟩) fun log => c.perform log a := by
  cases a with
  | define name given =>
    cases hgiven : Expr.ofCaller given with
    | error f =>
      simp only [perform, define, hgiven]
      exact .map (.silent _ _ _) _
    | ok e =>
      refine ⟨.ok (.tree e), { c with env := c.env.bind name e }, [.info .moderate (name ++ " := " ++ e.text)],
        rfl, fun log => ?_⟩
      simp only [perform, define, hgiven, Outcome.map, Log.report_eq]
      rfl
  | undefine name => exact .map (.silent _ _ _) _
  | toDouble given => exact .map (toDouble_told hwf given) _
  | simplify given =>
    cases hgiven : Expr.ofCaller given with
    | error f =>
      simp only [perform, simplify, hgiven]
      exact .map (.silent _ _ _) _
    | ok e =>
      simp only [perform, simplify, hgiven]
      exact .map (execute_told hwf (.request .simplify e)) _
  | plot e s l h t =>
    cases hnode : plotNode e s l h t with
    | error f =>
      simp only [perform, plot, hnode, Step.sampleLines, Action.plotNode?, Except.toOption]
      exact .map (.silent _ _ _) _
    | ok node =>
      simp only [perform, plot, hnode, Step.sampleLines, Action.plotNode?, Except.toOption]
      exact .map (execute_told hwf node) _
  | execute node =>
    rw [sampleLines_execute]
    exact .map (execute_told hwf node) _
  | missing e => exact .silent _ _ _
  | typeset substituting e => exact .silent _ _ _

/-- A session comes to the same with any log, and is told to it as one row of events. -/
theorem runAll_told (as : List Action) :
    ∀ c : Calculator, c.env.bindings.WellFormed → ∃ results final steps events,
      events.filter Event.isSample = steps.flatMap Step.sampleLines ∧
        ∀ log, c.runAll log as = (results, final, log.tell c.logger events) ∧ c.steps log as = steps := by
  induction as with
  | nil =>
    intro c _
    exact ⟨[], c, [], [], rfl, fun log => ⟨rfl, rfl⟩⟩
  | cons a as ih =>
    intro c hwf
    have hlogger := perform_logger c .start a
    have hwf' := (perform_records hwf .start a).1
    obtain ⟨result, c', events, hlines, hperform⟩ := perform_told hwf a (c.perform .start a).result
    dsimp only at hperform
    rw [hperform] at hlines hlogger hwf'
    obtain ⟨results, final, steps, more, hmore, hrest⟩ := ih c' hwf'
    refine ⟨result :: results, final, ⟨c, a, result⟩ :: steps, events ++ more, ?_, fun log => ?_⟩
    · rw [List.filter_append, hlines, hmore, List.flatMap_cons]
    · obtain ⟨hrun, hsteps⟩ := hrest (log.tell c.logger events)
      refine ⟨?_, ?_⟩
      · simp only [runAll, hperform, hrun, Log.tell_append]
        rw [← hlogger]
      · simp only [Calculator.steps, hperform, hsteps]

/-- Two sessions with the same steps, one of them with a logger that lets all events pass: these are `events`. -/
structure Observed (c : Calculator) (as : List Action) (events : List Event) (log verbose : Log) : Prop where
  results : (c.runAll log as).1 = (c.runAll verbose as).1
  /-- The bindings and the plots are the same before every step. -/
  steps : c.steps log as = c.steps verbose as
  final : (c.runAll log as).2.1 = (c.runAll verbose as).2.1
  all : (c.runAll verbose as).2.2 = verbose.record events
  passing : (c.runAll log as).2.2 =
    log.record (events.filter fun e => (log.levelOf c.logger).reports e.required)
  /-- What an open file has got at the end. -/
  file (i : Nat) (hfile : log.file = some i) : (c.runAll log as).2.2.files[i]? =
    log.files[i]?.map (· ++ (events.filter fun e => (log.levelOf c.logger).reports e.required).toArray)
  /-- One line for each completed sample, or none. -/
  samples : ((events.filter fun e => (log.levelOf c.logger).reports e.required).filter Event.isSample) =
    if log.levelOf c.logger = .verbose then (c.steps log as).flatMap Step.sampleLines else []

/-- Logging makes no difference to a session, and every level lets its part of one row of events pass. -/
theorem runAll_observed (hwf : c.env.bindings.WellFormed) (as : List Action) :
    ∃ events, ∀ log verbose, verbose.levelOf c.logger = .verbose → Observed c as events log verbose := by
  obtain ⟨results, final, steps, events, hsamples, hrun⟩ := runAll_told as c hwf
  refine ⟨events, fun log verbose hverbose => ?_⟩
  obtain ⟨hlog, hsteps⟩ := hrun log
  obtain ⟨hall, hsteps'⟩ := hrun verbose
  refine ⟨?_, ?_, ?_, ?_, ?_, fun i hfile => ?_, ?_⟩
  · rw [hlog, hall]
  · rw [hsteps, hsteps']
  · rw [hlog, hall]
  · rw [hall, Log.tell_verbose hverbose]
  · rw [hlog, Log.tell]
  · rw [hlog]
    exact log.files_record hfile _
  · rw [filter_isSample_passing, hsamples, hsteps]

end

/-- A definition, a sweep whose step has no effect any more after three samples, and a question. -/
def stalling : List Action :=
  [.define "a" (.num 2),
    .plot (.binary .add (.var "x") (.var "a")) (.var "x") (.num 9007199254740990) (.num 9007199254741000)
      (.num 1),
    .toDouble (.var "a")]

def accumulating : Calculator := ⟨{ mode := .accumulate, maxSamples := 100 }, ⟨Dictionary.ofCapacity 1, []⟩, 0⟩

open scoped Elementary Symbolic.Canonical in
theorem runAll_observed_stalling :
    accumulating.env.bindings.WellFormed ∧
      ((accumulating.steps .start stalling).flatMap Step.sampleLines).length = 3 ∧
      ∃ events, ∀ log verbose, verbose.levelOf accumulating.logger = .verbose →
        Observed accumulating stalling events log verbose :=
  have hwf := Dictionary.wellFormed_ofCapacity Nat.one_pos
  ⟨hwf, by decide +kernel, runAll_observed hwf stalling⟩

end Calculator
end ArithTree
