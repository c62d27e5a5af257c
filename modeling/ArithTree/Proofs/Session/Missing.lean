import ArithTree.Elementary.Rounded
import ArithTree.Proofs.Command.Plot
import ArithTree.Proofs.Expr.FreeVariables
import ArithTree.Proofs.Session.Failures

/-!
# ArithTree.Proofs.Session.Missing

Names without a binding. A command fails for the lack of a name only if the name is free in its node or
in a bound tree that is reachable from it: evaluation follows bindings from tree to tree, and a sweep binds its
own variable. The list of undefined variables of a node looks at the node alone, so it foretells such a failure
only together with the lists of these trees.

* `Lacks`: a name that evaluation may come upon without finding it bound.
* `evaluate_undefined`: what evaluation stops at is lacking.
* `Calculator.execute_undefined`, `Calculator.execute_defined`: what a command stops at.
* `Calculator.undefinedVariables_of_ok`: what a command that succeeds had.
* `Calculator.execute_missing`: a conversion or a plot with an undefined variable fails.
-/

namespace ArithTree

open ArithTree.Expr (mem_freeVariables_var mem_freeVariables_unary mem_freeVariables_binary
  mem_freeVariables_plot mem_occurrences_of_free mem_occurrences_plot)

/-- The name is free in the tree or in a bound tree reachable from it, and it is not bound. -/
structure Lacks (b : Bindings) (e : Expr) (n : String) : Prop where
  unbound : b.get? n = none
  free : n ∈ e.freeVariables ∨ ∃ m t, Reachable b e m ∧ b.get? m = some t ∧ n ∈ t.freeVariables

variable {b : Bindings} {e : Expr} {n : String}

theorem Lacks.mono {e' : Expr} (h : Lacks b e n) (hfree : n ∈ e.freeVariables → n ∈ e'.freeVariables)
    (hsub : e.occurrences ⊆ e'.occurrences) : Lacks b e' n :=
  ⟨h.unbound, h.free.imp hfree fun ⟨m, t, hm, ht, hn⟩ => ⟨m, t, hm.mono hsub, ht, hn⟩⟩

theorem Lacks.of_var {m : String} (h : Lacks b (.var m) n) (hm : m ∈ e.freeVariables) : Lacks b e n := by
  refine h.mono (fun hn => ?_) (List.cons_subset.mpr ⟨mem_occurrences_of_free hm, List.nil_subset _⟩)
  rw [mem_freeVariables_var.mp hn]
  exact hm

/-- What is lacking in a bound tree is lacking in its name. -/
theorem Lacks.of_bound {m : String} {t : Expr} (ht : b.get? m = some t) (h : Lacks b t n) : Lacks b (.var m) n := by
  refine ⟨h.unbound, .inr ?_⟩
  obtain hn | ⟨k, u, hk, hu, hn⟩ := h.free
  · exact ⟨m, t, .occurs (List.mem_singleton_self m), ht, hn⟩
  · exact ⟨k, u, hk.of_bound ht, hu, hn⟩

/-- Nothing is reached through a name that stands for a number. -/
theorem reachable_of_insert {b : Bindings} (hwf : b.WellFormed) {name m : String} {x : Float}
    (h : Reachable (b.insert name (.num x)) e m) : Reachable b e m := by
  induction h with
  | occurs hm => exact .occurs hm
  | mentioned _ hm ih =>
    obtain ⟨t, ht, hocc⟩ := hm
    rw [hwf.get?_insert] at ht
    split at ht
    · cases ht
      cases hocc
    · exact .mentioned ih ⟨t, ht, hocc⟩

/-! ## Evaluation -/

section

variable [Numerics]

/-- Only free names are read: a command inside a tree fails before its operands are looked at. -/
theorem evaluateWith_undefined {read : String → Except Failure Float}
    (h : evaluateWith read e = .error (.undefinedVariable n)) :
    ∃ m ∈ e.freeVariables, read m = .error (.undefinedVariable n) := by
  induction e with
  | num x => cases h
  | var m => exact ⟨m, mem_freeVariables_var.mpr rfl, h⟩
  | unary op a ih =>
    simp only [evaluateWith] at h
    split at h
    · rename_i ha
      cases h
      obtain ⟨m, hm, hread⟩ := ih ha
      exact ⟨m, mem_freeVariables_unary.mpr hm, hread⟩
    · cases h
  | binary op a b iha ihb =>
    simp only [evaluateWith] at h
    split at h
    · rename_i ha
      cases h
      obtain ⟨m, hm, hread⟩ := iha ha
      exact ⟨m, mem_freeVariables_binary.mpr (.inl hm), hread⟩
    · split at h
      · rename_i hb
        cases h
        obtain ⟨m, hm, hread⟩ := ihb hb
        exact ⟨m, mem_freeVariables_binary.mpr (.inr hm), hread⟩
      · cases h
  | request r a => cases h
  | plot e s l h t => cases h
  | foreign v => cases h

theorem resolve_undefined (left : Nat) :
    ∀ (path : List String) (m : String), resolve b left path m = .error (.undefinedVariable n) →
      Lacks b (.var m) n := by
  induction left with
  | zero =>
    intro path m h
    simp only [resolve] at h
    split at h
    · rename_i hnone
      cases h
      exact ⟨hnone, .inl (mem_freeVariables_var.mpr rfl)⟩
    · cases h
  | succ left ih =>
    intro path m h
    simp only [resolve] at h
    split at h
    · rename_i hnone
      cases h
      exact ⟨hnone, .inl (mem_freeVariables_var.mpr rfl)⟩
    · rename_i t ht
      split at h
      · cases h
      · obtain ⟨k, hk, hread⟩ := evaluateWith_undefined h
        exact .of_bound ht ((ih _ _ hread).of_var hk)

theorem get?_of_evaluate_ok {x : Float} (h : evaluate b e = .ok x) (hn : n ∈ e.occurrences) :
    ∃ t, b.get? n = some t := by
  obtain ⟨-, -, hread⟩ := evaluateWith_isOk.mp ⟨x, h⟩
  obtain ⟨y, hy⟩ := hread n hn
  obtain ⟨-, t, ht, -⟩ := resolve_ok_step hy
  exact ⟨t, ht⟩

theorem evaluate_undefined (h : evaluate b e = .error (.undefinedVariable n)) : Lacks b e n := by
  obtain ⟨m, hm, hread⟩ := evaluateWith_undefined h
  exact (resolve_undefined b.size [] m hread).of_var hm

/-! ## Sweeps -/

namespace Sweep

variable {env : Environment} {s l h t : Expr} {span : Span}

theorem spanOf_undefined (hf : spanOf env e s l h t = .error (.undefinedVariable n)) :
    Lacks env.bindings (.plot e s l h t) n := by
  unfold spanOf at hf
  split at hf
  · cases hf
  split at hf
  · rename_i hlow
    cases hf
    exact (evaluate_undefined hlow).mono (fun hn => mem_freeVariables_plot.mpr (.inr (.inl hn)))
      fun _ hm => mem_occurrences_plot.mpr (.inr (.inr (.inl hm)))
  split at hf
  · rename_i hhigh
    cases hf
    exact (evaluate_undefined hhigh).mono (fun hn => mem_freeVariables_plot.mpr (.inr (.inr (.inl hn))))
      fun _ hm => mem_occurrences_plot.mpr (.inr (.inr (.inr (.inl hm))))
  split at hf
  · rename_i hstep
    cases hf
    exact (evaluate_undefined hstep).mono (fun hn => mem_freeVariables_plot.mpr (.inr (.inr (.inr hn))))
      fun _ hm => mem_occurrences_plot.mpr (.inr (.inr (.inr (.inr hm))))
  split at hf
  · cases hf
  split at hf
  · cases hf
  split at hf
  · cases hf
  split at hf <;> cases hf

/-- What is lacking at a point of the sweep is lacking in the plot: it is not the swept name, which is
bound at the point. -/
theorem valueAt_undefined (hwf : env.bindings.WellFormed) (hspan : SpanOf env e s l h t span) {x : Float}
    (hx : span.valueAt env.bindings x = .error (.undefinedVariable n)) :
    Lacks env.bindings (.plot e s l h t) n := by
  rw [Span.valueAt, hspan.expression] at hx
  obtain ⟨hunbound, hfree⟩ := evaluate_undefined hx
  rw [hwf.get?_insert] at hunbound
  split at hunbound
  · cases hunbound
  rename_i hne
  have hslot : s ≠ .var n := by
    rw [hspan.slot]
    rintro ⟨⟩
    exact hne (beq_self_eq_true _)
  refine ⟨hunbound, ?_⟩
  rcases hfree with hn | ⟨m, u, hm, hu, hn⟩
  · exact .inl (mem_freeVariables_plot.mpr (.inl ⟨mem_occurrences_of_free hn, hslot⟩))
  · rw [hwf.get?_insert] at hu
    split at hu
    · cases hu
      have hocc := mem_occurrences_of_free hn
      cases hocc
    · have hplot : Reachable env.bindings (.plot e s l h t) m :=
        (reachable_of_insert hwf hm).mono fun _ hk => mem_occurrences_plot.mpr (.inl hk)
      exact .inr ⟨m, u, hplot, hu, hn⟩

theorem sample_undefined (hwf : env.bindings.WellFormed) (hspan : SpanOf env e s l h t span)
    {mode : Mode} {limit : Nat} {logger : LoggerId} {log : Log} {p : Progress}
    (hf : sample mode limit logger span env log = (p, some (.undefinedVariable n))) :
    Lacks env.bindings (.plot e s l h t) n := by
  rcases hpoints : points mode span.low span.high span.step limit with ⟨visited, stop⟩
  obtain ⟨values, q, -, hq, -⟩ | ⟨done, x, rest, values, g, q, -, -, hx, hq, -⟩ :=
    sample_cases hwf hspan.unbound hpoints logger log
  · rw [hq] at hf
    rcases stop with _ | _ | _ <;> cases hf
  · rw [hq] at hf
    cases hf
    exact valueAt_undefined hwf hspan hx

end Sweep

/-! ## Commands -/

theorem Command.run_undefined {env : Environment} (hwf : env.bindings.WellFormed) (config : Config)
    (logger : LoggerId) (log : Log) {node : Expr}
    (hf : (Command.run config logger env log node).result = .error (.undefinedVariable n)) :
    Lacks env.bindings node n := by
  cases node with
  | request r a =>
    cases r with
    | toDouble =>
      cases heval : env.evaluate a with
      | ok x =>
        simp only [run, toDouble, subject_request, heval] at hf
        cases hf
      | error f =>
        simp only [run, toDouble, subject_request, heval] at hf
        cases hf
        exact (evaluate_undefined heval).mono Expr.mem_freeVariables_request.mpr fun _ hm => hm
    | simplify =>
      have hbuild := simplifyBuilding_error hf
      cases hbuild
  | plot e s l h t =>
    cases hspan : Sweep.spanOf env e s l h t with
    | error f =>
      simp only [run, plot, hspan] at hf
      cases hf
      exact Sweep.spanOf_undefined hspan
    | ok span =>
      rcases hsample : Sweep.sample config.mode config.maxSamples logger span env log with ⟨p, _ | f⟩
      · simp only [run, plot, hspan, hsample] at hf
        cases hf
      · simp only [run, plot, hspan, hsample] at hf
        cases hf
        exact Sweep.sample_undefined hwf (Sweep.spanOf_ok hspan) hsample
  | num x => cases hf
  | var m => cases hf
  | unary op a => cases hf
  | binary op a b => cases hf
  | foreign v => cases hf

end

namespace Calculator

variable {c : Calculator}

theorem mem_undefinedVariables :
    n ∈ c.undefinedVariables e ↔ n ∈ e.freeVariables ∧ c.env.bindings.get? n = none := by
  simp only [undefinedVariables, List.mem_filter, Bool.not_eq_true', Environment.isBound_eq_false]

theorem undefinedVariables_eq_nil :
    c.undefinedVariables e = [] ↔ ∀ n ∈ e.freeVariables, c.env.isBound n = true := by
  simp [undefinedVariables]

section

variable [Numerics]

/-- A name that a command stops at is listed for the node or for a bound tree reachable from it. -/
theorem execute_undefined (hwf : c.env.bindings.WellFormed) (log : Log) {node : Expr}
    (h : (c.execute log node).result = .error (.undefinedVariable n)) :
    n ∈ c.undefinedVariables node ∨
      ∃ m t, Reachable c.env.bindings node m ∧ c.env.bindings.get? m = some t ∧ n ∈ c.undefinedVariables t := by
  rw [(execute_eq c log node).1] at h
  obtain ⟨hunbound, hn | ⟨m, t, hm, ht, hn⟩⟩ := Command.run_undefined hwf c.config c.logger log h
  · exact .inl (mem_undefinedVariables.mpr ⟨hn, hunbound⟩)
  · exact .inr ⟨m, t, hm, ht, mem_undefinedVariables.mpr ⟨hn, hunbound⟩⟩

/-- Nothing is missing for a command if neither its node nor any bound tree that is reachable from it has an
undefined variable. -/
theorem execute_defined (hwf : c.env.bindings.WellFormed) {node : Expr}
    (htrees : ∀ m t, Reachable c.env.bindings node m → c.env.bindings.get? m = some t → c.undefinedVariables t = [])
    (hnode : c.undefinedVariables node = []) (log : Log) (n : String) :
    (c.execute log node).result ≠ .error (.undefinedVariable n) := by
  intro h
  rcases execute_undefined hwf log h with hn | ⟨m, t, hm, ht, hn⟩
  · rw [hnode] at hn
    cases hn
  · rw [htrees m t hm ht] at hn
    cases hn

/-- Of a plot that succeeds at least one point was visited, so its expression has a value there. -/
theorem bound_of_depicts {config : Config} {env : Environment} (hwf : env.bindings.WellFormed)
    {e s l h t : Expr} {p : Plot} (hp : Depicts config env.bindings e s l h t p)
    (hn : n ∈ (Expr.plot e s l h t).freeVariables) : env.isBound n = true := by
  obtain ⟨name, low, high, step, rfl, -, hlow, hhigh, hstep, -, hsample⟩ := hp.samples
  apply Environment.isBound_eq_true.mpr
  rcases mem_freeVariables_plot.mp hn with ⟨hn, hne⟩ | hn | hn | hn
  · have hys := hp.nonempty
    have hxs : 0 < p.xs.length := by rw [← hp.sameLength]; omega
    obtain ⟨u, hu⟩ := get?_of_evaluate_ok
      (hsample 0 p.xs[0] p.ys[0] (List.getElem?_eq_getElem hxs) (List.getElem?_eq_getElem hys)) hn
    rw [hwf.get?_insert] at hu
    split at hu
    · rename_i hname
      exact absurd (congrArg Expr.var (eq_of_beq hname)) hne
    · exact ⟨u, hu⟩
  · exact get?_of_evaluate_ok hlow (mem_occurrences_of_free hn)
  · exact get?_of_evaluate_ok hhigh (mem_occurrences_of_free hn)
  · exact get?_of_evaluate_ok hstep (mem_occurrences_of_free hn)

/-- No name is listed in vain: a command other than a simplification that succeeds had all of them. -/
theorem undefinedVariables_of_ok (hwf : c.env.bindings.WellFormed) (log : Log) {node r : Expr}
    (hop : node.operator? ≠ some (.request .simplify)) (h : (c.execute log node).result = .ok r) :
    c.undefinedVariables node = [] := by
  rw [undefinedVariables_eq_nil]
  intro n hn
  rw [(execute_eq c log node).1] at h
  cases node with
  | request q a =>
    cases q with
    | simplify => exact absurd rfl hop
    | toDouble =>
      have hocc := mem_occurrences_of_free (Expr.mem_freeVariables_request.mp hn)
      cases heval : c.env.evaluate a with
      | error f =>
        simp only [Command.run, Command.toDouble, Command.subject_request, heval] at h
        cases h
      | ok x => exact Environment.isBound_eq_true.mpr (get?_of_evaluate_ok heval hocc)
  | plot e s l hi t =>
    obtain ⟨p, -, -, -, hp⟩ | ⟨f, hresult, -⟩ :=
      Command.plot_cases hwf c.config c.logger log e s l hi t
    · exact bound_of_depicts hwf hp hn
    · rw [Command.run, hresult] at h
      cases h
  | num x => cases h
  | var m => cases h
  | unary op a => cases h
  | binary op a b => cases h
  | foreign v => cases h

/-- A node that fails leaves the environment as it was. -/
theorem execute_failed (hwf : c.env.bindings.WellFormed) {log : Log} {node : Expr} {f : Failure}
    (h : (c.execute log node).result = .error f) : (c.execute log node).calculator.env.Alike c.env := by
  obtain ⟨p, e, -, hok, -, -⟩ | ⟨halike, -⟩ := execute_cases hwf log node
  · rw [h] at hok
    cases hok
  · exact halike

/-- A conversion or a plot with an undefined variable fails, whatever else is wrong with it. -/
theorem execute_missing (hc : c.Sound) (log : Log) {node : Expr} (hnode : node.WellFormed)
    (hcommand : node.operator? = some (.request .toDouble) ∨ node.operator? = some .plot)
    (hmissing : c.undefinedVariables node ≠ []) :
    ∃ f, (c.execute log node).result = .error f ∧ f.isEvaluation = true ∧
      (c.execute log node).calculator.env.sink = c.env.sink ∧
        (c.execute log node).calculator.env.bindings.entries = c.env.bindings.entries := by
  have hop : node.operator? ≠ some (.request .simplify) := by
    rcases hcommand with h | h <;> simp [h]
  have houtcome := (hc.contained log hnode).outcome
  cases hresult : (c.execute log node).result with
  | ok r => exact absurd (undefinedVariables_of_ok hc.bindings log hop hresult) hmissing
  | error f =>
    have halike := execute_failed hc.bindings hresult
    rw [hresult] at houtcome
    cases houtcome with
    | failure hf => exact ⟨f, rfl, hf.isEvaluation, halike.sink, halike.bindings.entries⟩

end

/-- The name of a sine, and the name of that name; `r` has nothing to do with them. -/
def waves : Calculator :=
  ⟨{}, ⟨Dictionary.ofList 1 [("w", .unary .sin (.var "k")), ("k", .num 2), ("v", .var "w"), ("r", .var "s")], []⟩, 0⟩

/-- A wave over one point. -/
def wavePlot : Expr :=
  .plot (.binary .mul (.var "v") (.var "x")) (.var "x") (.var "k") (.var "k") (.var "k")

theorem waves_reachable (h : Reachable waves.env.bindings wavePlot n) : n ∈ ["w", "k", "v", "x"] :=
  h.mem_of_closed (by decide) (by decide)

open scoped Elementary in
theorem execute_defined_waves :
    waves.env.bindings.WellFormed ∧
      (∀ m t, Reachable waves.env.bindings wavePlot m → waves.env.bindings.get? m = some t →
        waves.undefinedVariables t = []) ∧
        waves.undefinedVariables wavePlot = [] ∧
          (waves.execute {} wavePlot).result ≠ .error (.undefinedVariable "x") := by
  have hwf : waves.env.bindings.WellFormed := Dictionary.wellFormed_ofList Nat.one_pos _
  have hbound : ∀ m ∈ ["w", "k", "v", "x"], ∀ t ∈ waves.env.bindings.get? m, ∀ n ∈ t.occurrences,
      waves.env.isBound n = true := by decide
  have htrees : ∀ m t, Reachable waves.env.bindings wavePlot m → waves.env.bindings.get? m = some t →
      waves.undefinedVariables t = [] := by
    intro m t hm ht
    exact undefinedVariables_eq_nil.mpr fun n hn =>
      hbound m (waves_reachable hm) t ht n (mem_occurrences_of_free hn)
  have hnode : waves.undefinedVariables wavePlot = [] := by
    rw [undefinedVariables_eq_nil]
    intro n hn
    have hname : n = "v" ∨ n = "k" := by
      rcases mem_freeVariables_plot.mp hn with ⟨hn, hne⟩ | hn | hn | hn
      · simp only [Expr.occurrences, List.mem_append, List.mem_singleton] at hn
        exact .inl (hn.resolve_right fun h => hne (by rw [h]))
      · exact .inr (mem_freeVariables_var.mp hn)
      · exact .inr (mem_freeVariables_var.mp hn)
      · exact .inr (mem_freeVariables_var.mp hn)
    rcases hname with rfl | rfl <;> decide
  exact ⟨hwf, htrees, hnode, execute_defined hwf htrees hnode {} "x"⟩

/-- A wave whose amplitude nothing defines. -/
def openPlot : Expr :=
  .plot (.binary .mul (.var "u") (.var "x")) (.var "x") (.var "k") (.var "k") (.var "k")

open scoped Elementary in
theorem execute_missing_amplitude :
    waves.Sound ∧ openPlot.WellFormed ∧ openPlot.operator? = some .plot ∧
      waves.undefinedVariables openPlot ≠ [] ∧
        ∃ f, (waves.execute {} openPlot).result = .error f ∧ f.isEvaluation = true ∧
          (waves.execute {} openPlot).calculator.env.sink = waves.env.sink ∧
            (waves.execute {} openPlot).calculator.env.bindings.entries = waves.env.bindings.entries := by
  have hsound : waves.Sound := ⟨Dictionary.wellFormed_ofList Nat.one_pos _, by decide⟩
  have hu : "u" ∈ openPlot.freeVariables :=
    mem_freeVariables_plot.mpr (.inl ⟨List.mem_append_left _ (List.mem_singleton.mpr rfl), by decide⟩)
  have hmissing : waves.undefinedVariables openPlot ≠ [] :=
    List.ne_nil_of_mem (mem_undefinedVariables.mpr ⟨hu, rfl⟩)
  exact ⟨hsound, rfl, rfl, hmissing, execute_missing hsound {} rfl (.inr rfl) hmissing⟩

/-- A name that stands for another, which nothing defines. -/
def dangling : Calculator := ⟨{}, ⟨Dictionary.ofList 1 [("a", .var "b")], []⟩, 0⟩

theorem dangling_sound : dangling.Sound :=
  ⟨Dictionary.wellFormed_ofList Nat.one_pos _, by decide⟩

open scoped Elementary in
/-- The list of the node alone is not enough. -/
theorem execute_dangling :
    dangling.Sound ∧ (Expr.request .toDouble (.var "a")).WellFormed ∧
      dangling.undefinedVariables (.request .toDouble (.var "a")) = [] ∧
        (dangling.execute {} (.request .toDouble (.var "a"))).result = .error (.undefinedVariable "b") := by
  refine ⟨dangling_sound, rfl, ?_, rfl⟩
  rw [undefinedVariables_eq_nil]
  intro n hn
  rw [mem_freeVariables_var.mp (Expr.mem_freeVariables_request.mp hn)]
  decide

end Calculator
end ArithTree
