import ArithTree.Elementary.Rounded
import ArithTree.Proofs.Sweep.First

/-!
# ArithTree.Proofs.Command.Decision

What a plot comes to is decided by a row of checks. Each check refuses for a reason of its own, stated
here without regard to the others (`Refuses`); the first that refuses in the order `Check.order` gives
the failure of the plot, and a plot that none refuses succeeds.

* `Decided`: a result that the first refusal in a row of checks decides.
* `spanOf_decided`, `sample_decided`: the checks before the sweep, and those along it.
* `plot_decides`: the whole command, and what a refused plot leaves behind.
-/

namespace ArithTree

/-- `Decided refuses checks r`: the first of the checks that refuses has failed with `r`, or they all
pass and `r` is a success. -/
inductive Decided {ι β : Type} (refuses : ι → Failure → Prop) : List ι → Except Failure β → Prop where
  | refused {c : ι} {rest : List ι} {f : Failure} : refuses c f → Decided refuses (c :: rest) (.error f)
  | passed {c : ι} {rest : List ι} {r : Except Failure β} : (∀ f, ¬ refuses c f) →
      Decided refuses rest r → Decided refuses (c :: rest) r
  | accepted {x : β} : Decided refuses [] (.ok x)

namespace Decided

variable {ι β γ : Type} {refuses : ι → Failure → Prop} {checks rest : List ι} {f : Failure}

theorem append_error (h : Decided refuses checks (.error f : Except Failure β)) :
    Decided refuses (checks ++ rest) (.error f : Except Failure γ) := by
  generalize hr : (.error f : Except Failure β) = r at h
  induction h with
  | refused hc =>
    cases hr
    exact .refused hc
  | passed hc _ ih => exact .passed hc (ih hr)
  | accepted => cases hr

theorem append_ok {x : β} (h : Decided refuses checks (.ok x)) {r : Except Failure γ}
    (hrest : Decided refuses rest r) : Decided refuses (checks ++ rest) r := by
  generalize hx : Except.ok x = s at h
  induction h with
  | refused hc => cases hx
  | passed hc _ ih => exact .passed hc (ih hx)
  | accepted => exact hrest

/-- By induction on the row: the two results part at no check. -/
theorem error_unique (hrefuses : ∀ c f g, refuses c f → refuses c g → g = f) {r r' : Except Failure β}
    (h : Decided refuses checks r) (h' : Decided refuses checks r') (hr : r = .error f) : r' = r := by
  induction h with
  | refused hc =>
    cases h' with
    | refused hc' => rw [hrefuses _ _ _ hc hc']
    | passed hpass _ => exact absurd hc (hpass _)
  | passed hpass _ ih =>
    cases h' with
    | refused hc' => exact absurd hc' (hpass _)
    | passed _ h' => exact ih h' hr
  | accepted => cases hr

end Decided

namespace Sweep

inductive Check where
  | slot
  | low
  | high
  | step
  | range
  | name
  | positive
  | finite
  | ratio
  | samples
  | first
  | running
  deriving DecidableEq, Repr

/-- The checks of the operands, before the sweep. -/
def Check.ofSpan : List Check := [.slot, .low, .high, .step, .range, .name, .positive, .finite]

/-- The checks of the sweep: the number of its samples, its first sample, and the way it runs. -/
def Check.ofSweep : List Check := [.ratio, .samples, .first, .running]

def Check.order : List Check := Check.ofSpan ++ Check.ofSweep

/-- The bounds and the step have these values. -/
structure Operands [Numerics] (b : Bindings) (l h t : Expr) (low high step : Float) : Prop where
  low : evaluate b l = .ok low
  high : evaluate b h = .ok high
  step : evaluate b t = .ok step

theorem Operands.unique [Numerics] {b : Bindings} {l h t : Expr} {low high step low' high' step' : Float}
    (v : Operands b l h t low high step) (v' : Operands b l h t low' high' step') :
    low' = low ∧ high' = high ∧ step' = step :=
  ⟨Except.ok.inj (v'.low.symm.trans v.low), Except.ok.inj (v'.high.symm.trans v.high),
    Except.ok.inj (v'.step.symm.trans v.step)⟩

/-- Why each check refuses a plot, and with which failure. -/
inductive Refuses [Numerics] (mode : Mode) (limit : Nat) (b : Bindings) (e s l h t : Expr) :
    Check → Failure → Prop where
  | slot : (∀ name, s ≠ .var name) → Refuses mode limit b e s l h t .slot (.slotInvalid s.text)
  | low {f : Failure} : evaluate b l = .error f → Refuses mode limit b e s l h t .low f
  | high {f : Failure} : evaluate b h = .error f → Refuses mode limit b e s l h t .high f
  | step {f : Failure} : evaluate b t = .error f → Refuses mode limit b e s l h t .step f
  | range {low high : Float} : evaluate b l = .ok low → evaluate b h = .ok high → high < low →
      Refuses mode limit b e s l h t .range (.rangeInvalid low high)
  | name {name : String} {d : Expr} : s = .var name → b.get? name = some d →
      Refuses mode limit b e s l h t .name (.variableBound name)
  | positive {step : Float} : evaluate b t = .ok step → step ≤ 0 →
      Refuses mode limit b e s l h t .positive (.stepNotPositive step)
  | finite {low high step : Float} : Operands b l h t low high step →
      (∃ x ∈ [low, high, step], x.isNaN = true ∨ x.isInf = true) →
      Refuses mode limit b e s l h t .finite (.unbounded (.openRange low high step))
  | ratio {low high step : Float} : Operands b l h t low high step →
      ((high - low) / step).isNaN = true ∨ ((high - low) / step).isInf = true →
      Refuses mode limit b e s l h t .ratio (.unbounded (.coarse step low high))
  | samples {low high step : Float} {n : Int} {ends : Bool} : Operands b l h t low high step →
      countSteps low high step = .ok (n, ends) → limit < n + 1 →
      Refuses mode limit b e s l h t .samples (.unbounded (.tooMany (n + 1) limit))
  | first {name : String} {low high step : Float} {n : Int} {ends : Bool} {f : Failure} : s = .var name →
      Operands b l h t low high step → countSteps low high step = .ok (n, ends) →
      evaluate (b.insert name (.num (firstPoint mode low high step n ends))) e = .error f →
      Refuses mode limit b e s l h t .first f
  | stalled {low high step x : Float} {xs : List Float} : mode = .accumulate →
      Operands b l h t low high step →
      Runs high step limit 0 low (xs, some (.unbounded (.stalled step x))) →
      Refuses mode limit b e s l h t .running (.unbounded (.stalled step x))
  | exceeded {low high step : Float} {count : Nat} {xs : List Float} : mode = .accumulate →
      Operands b l h t low high step →
      Runs high step limit 0 low (xs, some (.unbounded (.exceeded limit count))) →
      Refuses mode limit b e s l h t .running (.unbounded (.exceeded limit count))

variable {mode : Mode} {limit : Nat} {e s l h t : Expr}

theorem Refuses.unique [Numerics] {b : Bindings} {c : Check} {f g : Failure} (hf : Refuses mode limit b e s l h t c f)
    (hg : Refuses mode limit b e s l h t c g) : g = f := by
  cases hf with
  | slot hs => cases hg with | slot _ => rfl
  | low hl => cases hg with | low hl' => exact Except.error.inj (hl'.symm.trans hl)
  | high hh => cases hg with | high hh' => exact Except.error.inj (hh'.symm.trans hh)
  | step ht => cases hg with | step ht' => exact Except.error.inj (ht'.symm.trans ht)
  | range hl hh _ =>
    cases hg with
    | range hl' hh' _ => rw [Except.ok.inj (hl'.symm.trans hl), Except.ok.inj (hh'.symm.trans hh)]
  | name hs _ => cases hg with | name hs' _ => rw [Expr.var.inj (hs'.symm.trans hs)]
  | positive ht _ => cases hg with | positive ht' _ => rw [Except.ok.inj (ht'.symm.trans ht)]
  | finite v _ =>
    cases hg with
    | finite v' _ =>
      obtain ⟨rfl, rfl, rfl⟩ := v.unique v'
      rfl
  | ratio v _ =>
    cases hg with
    | ratio v' _ =>
      obtain ⟨rfl, rfl, rfl⟩ := v.unique v'
      rfl
  | samples v hcount _ =>
    cases hg with
    | samples v' hcount' _ =>
      obtain ⟨rfl, rfl, rfl⟩ := v.unique v'
      cases hcount.symm.trans hcount'
      rfl
  | first hs v hcount hx =>
    cases hg with
    | first hs' v' hcount' hx' =>
      obtain ⟨rfl, rfl, rfl⟩ := v.unique v'
      cases hs.symm.trans hs'
      cases hcount.symm.trans hcount'
      exact Except.error.inj (hx'.symm.trans hx)
  | stalled _ v hruns =>
    cases hg with
    | stalled _ v' hruns' =>
      obtain ⟨rfl, rfl, rfl⟩ := v.unique v'
      cases hruns.unique hruns'
      rfl
    | exceeded _ v' hruns' =>
      obtain ⟨rfl, rfl, rfl⟩ := v.unique v'
      cases hruns.unique hruns'
  | exceeded _ v hruns =>
    cases hg with
    | stalled _ v' hruns' =>
      obtain ⟨rfl, rfl, rfl⟩ := v.unique v'
      cases hruns.unique hruns'
    | exceeded _ v' hruns' =>
      obtain ⟨rfl, rfl, rfl⟩ := v.unique v'
      cases hruns.unique hruns'
      rfl

/-! ## When a check passes -/

section Passing

variable {b : Bindings} {name : String} {low high step : Float} {n : Int} {ends : Bool}

variable [Numerics]

theorem slot_passes (hs : s = .var name) (f : Failure) : ¬ Refuses mode limit b e s l h t .slot f := by
  intro hf
  cases hf with
  | slot hne => exact hne name hs

theorem low_passes (hl : evaluate b l = .ok low) (f : Failure) :
    ¬ Refuses mode limit b e s l h t .low f := by
  intro hf
  cases hf with
  | low hl' => cases hl.symm.trans hl'

theorem high_passes (hh : evaluate b h = .ok high) (f : Failure) :
    ¬ Refuses mode limit b e s l h t .high f := by
  intro hf
  cases hf with
  | high hh' => cases hh.symm.trans hh'

theorem step_passes (ht : evaluate b t = .ok step) (f : Failure) :
    ¬ Refuses mode limit b e s l h t .step f := by
  intro hf
  cases hf with
  | step ht' => cases ht.symm.trans ht'

theorem name_passes (hs : s = .var name) (hn : b.get? name = none) (f : Failure) :
    ¬ Refuses mode limit b e s l h t .name f := by
  intro hf
  cases hf with
  | name hs' hd =>
    cases hs.symm.trans hs'
    cases hn.symm.trans hd

variable (v : Operands b l h t low high step)
include v

theorem range_passes (hordered : ¬ high < low) (f : Failure) :
    ¬ Refuses mode limit b e s l h t .range f := by
  intro hf
  cases hf with
  | range hl hh hlt =>
    obtain ⟨rfl, rfl, -⟩ := v.unique ⟨hl, hh, v.step⟩
    exact hordered hlt

theorem positive_passes (hpositive : ¬ step ≤ 0) (f : Failure) :
    ¬ Refuses mode limit b e s l h t .positive f := by
  intro hf
  cases hf with
  | positive ht hle =>
    obtain ⟨-, -, rfl⟩ := v.unique ⟨v.low, v.high, ht⟩
    exact hpositive hle

theorem finite_passes (hfinite : ¬ ∃ x ∈ [low, high, step], x.isNaN = true ∨ x.isInf = true)
    (f : Failure) : ¬ Refuses mode limit b e s l h t .finite f := by
  intro hf
  cases hf with
  | finite v' hx =>
    obtain ⟨rfl, rfl, rfl⟩ := v.unique v'
    exact hfinite hx

theorem ratio_passes (hratio : Double.isFinite ((high - low) / step) = true) (f : Failure) :
    ¬ Refuses mode limit b e s l h t .ratio f := by
  intro hf
  cases hf with
  | ratio v' hx =>
    obtain ⟨rfl, rfl, rfl⟩ := v.unique v'
    rw [Double.isFinite_eq_false.mpr hx] at hratio
    cases hratio

variable (hcount : countSteps low high step = .ok (n, ends))
include hcount

theorem samples_passes (hfew : ¬ (limit : Int) < n + 1) (f : Failure) :
    ¬ Refuses mode limit b e s l h t .samples f := by
  intro hf
  cases hf with
  | samples v' hcount' hmany =>
    obtain ⟨rfl, rfl, rfl⟩ := v.unique v'
    cases hcount.symm.trans hcount'
    exact hfew hmany

theorem first_passes (hs : s = .var name) {y : Float}
    (hy : evaluate (b.insert name (.num (firstPoint mode low high step n ends))) e = .ok y) (f : Failure) :
    ¬ Refuses mode limit b e s l h t .first f := by
  intro hf
  cases hf with
  | first hs' v' hcount' hx =>
    obtain ⟨rfl, rfl, rfl⟩ := v.unique v'
    cases hs.symm.trans hs'
    cases hcount.symm.trans hcount'
    cases hy.symm.trans hx

omit hcount

theorem running_passes (xs : List Float) (hruns : mode = .accumulate → Runs high step limit 0 low (xs, none))
    (f : Failure) : ¬ Refuses mode limit b e s l h t .running f := by
  intro hf
  cases hf with
  | stalled hmode v' hstopped =>
    obtain ⟨rfl, rfl, rfl⟩ := v.unique v'
    cases (hruns hmode).unique hstopped
  | exceeded hmode v' hstopped =>
    obtain ⟨rfl, rfl, rfl⟩ := v.unique v'
    cases (hruns hmode).unique hstopped

end Passing

/-! ## The operands -/

variable {env : Environment}

theorem ne_var_of_asVariable? (hs : s.asVariable? = none) (name : String) : s ≠ .var name := by
  rintro rfl
  cases hs

theorem not_allFinite {low high step : Float} :
    ¬ (Double.isFinite low && Double.isFinite high && Double.isFinite step) = true ↔
      ∃ x ∈ [low, high, step], x.isNaN = true ∨ x.isInf = true := by
  simp only [← Double.isFinite_eq_false, List.mem_cons, List.not_mem_nil, or_false, exists_eq_or_imp,
    exists_eq_left, Bool.and_eq_true, Bool.eq_false_iff, Ne, not_and_or]
  exact or_assoc

/-- Each test of the code is the next check in the row. -/
theorem spanOf_decided [Numerics] (mode : Mode) (limit : Nat) :
    Decided (Refuses mode limit env.bindings e s l h t) Check.ofSpan (spanOf env e s l h t) := by
  unfold spanOf
  split
  · rename_i hs
    exact .refused (.slot (ne_var_of_asVariable? hs))
  rename_i name hs
  have hslot := Expr.asVariable?_eq_some.mp hs
  refine .passed (slot_passes hslot) ?_
  split
  · rename_i f hl
    exact .refused (.low hl)
  rename_i low hl
  refine .passed (low_passes hl) ?_
  split
  · rename_i f hh
    exact .refused (.high hh)
  rename_i high hh
  refine .passed (high_passes hh) ?_
  split
  · rename_i f ht
    exact .refused (.step ht)
  rename_i step ht
  have v : Operands env.bindings l h t low high step := ⟨hl, hh, ht⟩
  refine .passed (step_passes ht) ?_
  split
  · rename_i hlt
    exact .refused (.range hl hh hlt)
  rename_i hordered
  refine .passed (range_passes v hordered) ?_
  split
  · rename_i hbound
    obtain ⟨d, hd⟩ := Environment.isBound_eq_true.mp hbound
    exact .refused (.name hslot hd)
  rename_i hunbound
  refine .passed (name_passes hslot (Environment.isBound_eq_false.mp (Bool.eq_false_iff.mpr hunbound))) ?_
  split
  · rename_i hle
    exact .refused (.positive ht hle)
  rename_i hpositive
  refine .passed (positive_passes v hpositive) ?_
  split
  · rename_i hfinite
    exact .passed (finite_passes v fun hx => not_allFinite.mpr hx hfinite) .accepted
  · rename_i hfinite
    exact .refused (.finite v (not_allFinite.mp hfinite))

/-! ## The sweep -/

/-- The result of a command that gives `x` unless something has failed. -/
def concluded {β : Type} (x : β) : Option Failure → Except Failure β
  | none => .ok x
  | some f => .error f

theorem running_decided [Numerics] {low high step : Float} {n : Int} {ends : Bool}
    (v : Operands env.bindings l h t low high step)
    (hplan : plan low high step limit = .ok (n, ends)) :
    Decided (Refuses mode limit env.bindings e s l h t) [.running]
      (concluded e ((pointList mode low high step limit).2.map Failure.ofStop)) := by
  obtain ⟨stop, hplan', -⟩ | ⟨n', ends', -, rfl, hpoints⟩ | ⟨n', ends', -, rfl, hruns⟩ :=
    @pointList_cases Float _ low high step limit mode (Int.natCast_nonneg limit)
  · cases hplan'.symm.trans hplan
  · rw [hpoints]
    refine .passed (running_passes v [] fun hmode => ?_) .accepted
    cases hmode
  · generalize pointList .accumulate low high step limit = out at hruns ⊢
    obtain ⟨xs, _ | stop⟩ := out
    · exact .passed (running_passes v xs fun _ => hruns) .accepted
    · obtain ⟨x, rfl⟩ | ⟨hstop, -⟩ := hruns.stopped (Int.natCast_nonneg limit) rfl
      · exact .refused (.stalled rfl v hruns)
      · generalize 0 + (xs, some stop).1.length = count at hstop
        subst hstop
        exact .refused (.exceeded rfl v hruns)

theorem sample_decided [Numerics] (hwf : env.bindings.WellFormed) {span : Span} (hspan : SpanOf env e s l h t span)
    (logger : LoggerId) (log : Log) :
    Decided (Refuses mode limit env.bindings e s l h t) Check.ofSweep
      (concluded e (sample mode limit logger span env log).2) := by
  have v : Operands env.bindings l h t span.low span.high span.step := ⟨hspan.low, hspan.high, hspan.step⟩
  cases hratio : Double.isFinite ((span.high - span.low) / span.step) with
  | false =>
    have hplan : plan span.low span.high span.step limit =
        .error (.unbounded (.coarse span.step span.low span.high)) := by
      simp only [plan, countSteps_coarse hspan.positive hratio]
    rw [sample_refused hplan]
    exact .refused (.ratio v (Double.isFinite_eq_false.mp hratio))
  | true =>
    obtain ⟨n, ends, hcount⟩ := exists_countSteps hspan.positive hratio
    refine .passed (ratio_passes v hratio) ?_
    by_cases hmany : (limit : Int) < n + 1
    · have hplan : plan span.low span.high span.step limit =
          .error (.unbounded (.tooMany (n + 1) limit)) := by
        simp only [plan, hcount, hmany, if_true]
      rw [sample_refused hplan]
      exact .refused (.samples v hcount hmany)
    have hplan : plan span.low span.high span.step limit = .ok (n, ends) := by
      simp only [plan, hcount, hmany, if_false]
    refine .passed (samples_passes v hcount hmany) ?_
    obtain ⟨rest, hfirst⟩ := pointList_first mode hspan.ordered hplan
    cases hx : span.valueAt env.bindings (firstPoint mode span.low span.high span.step n ends) with
    | error f =>
      rw [sample_first_failed hwf hspan.unbound hfirst hx]
      rw [Span.valueAt, hspan.expression] at hx
      exact .refused (.first hspan.slot v hcount hx)
    | ok y =>
      -- A value at the first point is a value at all points, so only the run is left to go wrong.
      rw [sample_ok hwf hspan.unbound hx]
      rw [Span.valueAt, hspan.expression] at hx
      exact .passed (first_passes v hcount hspan.slot hx) (running_decided v hplan)

end Sweep

namespace Command

open Sweep

variable {env : Environment} {e s l h t : Expr}

theorem plot_result [Numerics] {config : Config} {logger : LoggerId} {log : Log} {span : Span}
    (hspan : spanOf env e s l h t = .ok span) :
    (plot config logger env log (.plot e s l h t)).result =
      concluded e (sample config.mode config.maxSamples logger span env log).2 := by
  simp only [plot, hspan]
  rcases sample config.mode config.maxSamples logger span env log with ⟨p, _ | f⟩ <;> rfl

theorem plot_decided [Numerics] (hwf : env.bindings.WellFormed) (config : Config) (logger : LoggerId) (log : Log)
    (e s l h t : Expr) :
    Decided (Refuses config.mode config.maxSamples env.bindings e s l h t) Check.order
      (plot config logger env log (.plot e s l h t)).result := by
  have hchecked : Decided (Refuses config.mode config.maxSamples env.bindings e s l h t) Check.ofSpan
      (spanOf env e s l h t) := spanOf_decided config.mode config.maxSamples
  cases hspan : spanOf env e s l h t with
  | error f =>
    have hresult : (plot config logger env log (.plot e s l h t)).result = .error f := by
      simp only [plot, hspan]
    rw [hresult]
    rw [hspan] at hchecked
    exact hchecked.append_error
  | ok span =>
    rw [plot_result hspan]
    rw [hspan] at hchecked
    exact hchecked.append_ok (sample_decided hwf (spanOf_ok hspan) logger log)

/-- The failure of a plot is the first refusal in the order of the checks, and a plot without a refusal
gives its expression. A failed plot renders nothing and leaves the bindings as they were, in their order.
No comparison with a NaN holds, so a NaN passes the checks of the range and of the step. -/
theorem plot_decides [Numerics] (hwf : env.bindings.WellFormed) (config : Config) (logger : LoggerId) (log : Log)
    (e s l h t : Expr) :
    (∀ f, (plot config logger env log (.plot e s l h t)).result = .error f ↔
        Decided (Refuses config.mode config.maxSamples env.bindings e s l h t) Check.order
          (.error f : Except Failure Expr)) ∧
      (∀ r, (plot config logger env log (.plot e s l h t)).result = .ok r ↔
        r = e ∧ Decided (Refuses config.mode config.maxSamples env.bindings e s l h t) Check.order
          (.ok r : Except Failure Expr)) ∧
      (∀ f, (plot config logger env log (.plot e s l h t)).result = .error f →
        (plot config logger env log (.plot e s l h t)).env.sink = env.sink ∧
          (plot config logger env log (.plot e s l h t)).env.bindings.entries = env.bindings.entries) ∧
      ∀ x y : Float, x.isNaN = true ∨ y.isNaN = true → ¬ x < y ∧ ¬ x ≤ y ∧ (x == y) = false := by
  have hdecided := plot_decided hwf config logger log e s l h t
  have hcases := plot_cases hwf config logger log e s l h t
  have hunique (c : Check) (f g : Failure) (hf : Refuses config.mode config.maxSamples env.bindings e s l h t c f)
      (hg : Refuses config.mode config.maxSamples env.bindings e s l h t c g) : g = f := hf.unique hg
  refine ⟨fun f => ⟨fun hf => hf ▸ hdecided, fun hf => hf.error_unique hunique hdecided rfl⟩,
    fun r => ⟨fun hr => ⟨?_, hr ▸ hdecided⟩, ?_⟩, fun f hf => ?_, fun x y hnan => ?_⟩
  · obtain ⟨p, hok, -⟩ | ⟨f, hf, -⟩ := hcases
    · exact Except.ok.inj (hr.symm.trans hok)
    · cases hr.symm.trans hf
  · rintro ⟨rfl, hr⟩
    obtain ⟨p, hok, -⟩ | ⟨f, hf, -⟩ := hcases
    · exact hok
    · rw [hf] at hdecided
      cases hdecided.error_unique hunique hr rfl
  · obtain ⟨p, hok, -⟩ | ⟨g, -, halike⟩ := hcases
    · cases hok.symm.trans hf
    · exact ⟨halike.sink, halike.bindings.entries⟩
  · exact ⟨(Double.not_lt_of_isNaN hnan).1, (Double.not_lt_of_isNaN hnan).2,
      Double.beq_eq_false_of_isNaN hnan⟩

/-- A bound so far out that adding one is absorbed, and a plot that is there already. -/
def distant : Environment :=
  ⟨Dictionary.ofList 1 [("far", .num 10000000000000000), ("width", .num 10)],
    [⟨"", "x", "y", [1], [1]⟩]⟩

def strolling : Config := ⟨.accumulate, 640, by decide, false, none⟩

/-- A plot from `far` on, in steps of one. -/
def outing (e : Expr) : Expr :=
  .plot e (.var "x") (.var "far") (.binary .add (.var "far") (.var "width")) (.num 1)

open scoped Elementary in
/-- The sweep stalls, unless its first sample fails before that. -/
theorem plot_decides_distant :
    distant.bindings.WellFormed ∧
      (plot strolling 0 distant {} (outing (.var "x"))).result =
        .error (.unbounded (.stalled 1 10000000000000000)) ∧
      (plot strolling 0 distant {} (outing (.var "y"))).result = .error (.undefinedVariable "y") ∧
      Decided (Refuses .accumulate 640 distant.bindings (.var "y") (.var "x") (.var "far")
          (.binary .add (.var "far") (.var "width")) (.num 1)) Check.order
        (.error (.undefinedVariable "y") : Except Failure Expr) ∧
      (plot strolling 0 distant {} (outing (.var "y"))).env.sink = distant.sink ∧
      (plot strolling 0 distant {} (outing (.var "y"))).env.bindings.entries = distant.bindings.entries :=
  have hwf : distant.bindings.WellFormed := Dictionary.wellFormed_ofList Nat.one_pos _
  have hfailed : (plot strolling 0 distant {} (outing (.var "y"))).result =
    .error (.undefinedVariable "y") := rfl
  have hdecides := plot_decides hwf strolling 0 {} (.var "y") (.var "x") (.var "far")
    (.binary .add (.var "far") (.var "width")) (.num 1)
  ⟨hwf, rfl, hfailed, (hdecides.1 _).mp hfailed, hdecides.2.2.1 _ hfailed⟩

end Command
end ArithTree
