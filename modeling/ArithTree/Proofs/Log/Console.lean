import ArithTree.Calculator

/-!
# ArithTree.Proofs.Log.Console

Which messages get to the console. The level given last decides for the current logger. A calculator whose
logger has been replaced keeps the level that this logger had then, and no level opens a console that was not
opened when the logger made last was made.

* `Standing`: the invariant. The current logger is the one made last, and its level is the level given last.
* `Standing.applyAll`, `Standing.levelOf_applyAll`: what a row of steps makes of it, and of the level of a
  logger that is current before them.
* `reaches_console_iff`: every message after any row of steps.
-/

namespace ArithTree

/-- What can be done about logging before a message. -/
inductive Setup where
  | configure (level : Level) (toFile : Bool)
  | setLevel (level : Level)
  /-- Asking for the current logger. -/
  | ensure
  | make (config : Config) (bindings : Bindings)

namespace Setup

def apply (log : Log) : Setup → Log
  | .configure level toFile => log.configure level toFile
  | .setLevel level => log.setLevel level
  | .ensure => log.ensure.2
  | .make config b => (Calculator.make config b log).2

def applyAll (log : Log) (steps : List Setup) : Log := steps.foldl apply log

/-- The level that a step gives, if it gives one. -/
def level? : Setup → Option Level
  | .configure level _ | .setLevel level => some level
  | .ensure => none
  | .make config _ => config.level

/-- Does the step replace the current logger? -/
def replaces : Setup → Bool
  | .configure .. => true
  | _ => false

/-- The level given last, where it was `before` at first. -/
def lastLevel (before : Level) (steps : List Setup) : Level :=
  ((steps.filterMap level?).getLast?).getD before

/-- The level given last by steps from the start. -/
def given (steps : List Setup) : Level := lastLevel .minimal steps

/-- The level at which the last logger was made. The first step makes one, whatever it is. -/
def opening : List Setup → Level
  | [] => .minimal
  | s :: rest => lastLevel (s.level?.getD .minimal) (rest.filter replaces)

theorem exists_of_replaces {s : Setup} (hs : s.replaces = true) :
    ∃ level toFile, s = .configure level toFile := by
  cases s with
  | configure level toFile => exact ⟨level, toFile, rfl⟩
  | setLevel level => cases hs
  | ensure => cases hs
  | make config b => cases hs

theorem lastLevel_cons (before : Level) (s : Setup) (rest : List Setup) :
    lastLevel before (s :: rest) = lastLevel (s.level?.getD before) rest := by
  cases h : s.level? with
  | none => simp [lastLevel, h]
  | some level => simp [lastLevel, h, List.getLast?_cons]

theorem lastLevel_append (before : Level) (steps rest : List Setup) :
    lastLevel before (steps ++ rest) = lastLevel (lastLevel before steps) rest := by
  induction steps generalizing before with
  | nil => rfl
  | cons s steps ih => rw [List.cons_append, lastLevel_cons, lastLevel_cons, ih]

theorem applyAll_append (log : Log) (steps rest : List Setup) :
    applyAll log (steps ++ rest) = applyAll (applyAll log steps) rest :=
  List.foldl_append

theorem opening_append {steps : List Setup} (hsteps : steps ≠ []) (rest : List Setup) :
    opening (steps ++ rest) = lastLevel (opening steps) (rest.filter replaces) := by
  cases steps with
  | nil => exact absurd rfl hsteps
  | cons s steps => rw [List.cons_append, opening, opening, List.filter_append, lastLevel_append]

/-- Asking for the current logger gives no level, and the logger that it may make is an open one. -/
theorem given_ensure (steps : List Setup) : given (steps ++ [.ensure]) = given steps :=
  lastLevel_append _ steps [.ensure]

theorem opening_ensure (steps : List Setup) : opening (steps ++ [.ensure]) = opening steps := by
  cases steps with
  | nil => rfl
  | cons s steps => exact opening_append (List.cons_ne_nil s steps) [.ensure]

end Setup

open Setup

/-! ## One message -/

namespace Log

variable {log : Log} {id : LoggerId} {e : Event}

/-- The message is written to the console, with its time and severity. -/
def Reaches (log : Log) (id : LoggerId) (e : Event) : Prop :=
  (log.report id e).screen = log.screen.push ⟨e, false⟩

theorem reaches_iff :
    log.Reaches id e ↔ e.required.rank ≤ (log.levelOf id).rank ∧ log.console = true := by
  have hpasses : (log.levelOf id).passes e = decide (e.required.rank ≤ (log.levelOf id).rank) :=
    Level.passes_eq _ e
  unfold Reaches report
  rw [hpasses]
  by_cases hlevel : e.required.rank ≤ (log.levelOf id).rank
  · cases hconsole : log.console with
    | true => simp [hlevel, write, shown?, hconsole]
    | false =>
      -- What is written without a console is bare, or nothing.
      simp only [hlevel, decide_true, if_true, write, shown?, hconsole, Bool.false_eq_true, if_false, and_false,
        iff_false]
      split
      · rename_i line hline
        split at hline
        · cases hline
          intro hscreen
          simpa using congrArg Array.back? hscreen
        · cases hline
      · intro hscreen
        simpa using congrArg Array.size hscreen
  · simp only [hlevel, decide_false, Bool.false_eq_true, if_false, false_and, iff_false]
    intro hscreen
    simpa using congrArg Array.size hscreen

end Log

/-! ## Many steps -/

/-- The current logger is the one made last, at level `level` now, and `opened` when it was made. -/
structure Standing (log : Log) (earlier : List Level) (level opened : Level) : Prop where
  levels : log.levels = earlier ++ [level]
  current : log.current = some earlier.length
  console : log.console = (opened != .silent)

namespace Standing

variable {log : Log} {earlier : List Level} {level opened : Level}

theorem levelOf (h : Standing log earlier level opened) : log.levelOf earlier.length = level := by
  simp [Log.levelOf, h.levels]

theorem configure (h : Standing log earlier level opened) (l : Level) (toFile : Bool) :
    Standing (log.configure l toFile) (earlier ++ [level]) l l where
  levels := congrArg (· ++ [l]) h.levels
  current := by simp [Log.configure, h.levels]
  console := rfl

theorem setLevel (h : Standing log earlier level opened) (l : Level) :
    Standing (log.setLevel l) earlier l opened := by
  refine ⟨?_, ?_, ?_⟩
  · simp [Log.setLevel, h.current, h.levels]
  · simp [Log.setLevel, h.current]
  · simp [Log.setLevel, h.current, h.console]

theorem ensure (h : Standing log earlier level opened) : log.ensure = (earlier.length, log) := by
  simp [Log.ensure, h.current]

theorem apply {s : Setup} (h : Standing log earlier level opened) (hs : s.replaces = false) :
    Standing (s.apply log) earlier (s.level?.getD level) opened := by
  cases s with
  | configure l toFile => cases hs
  | setLevel l => exact h.setLevel l
  | ensure =>
    simp only [Setup.apply, h.ensure]
    exact h
  | make config b =>
    cases hlevel : config.level with
    | none =>
      simp only [Setup.apply, Calculator.make, level?, hlevel, h.ensure]
      exact h
    | some l =>
      simp only [Setup.apply, Calculator.make, level?, hlevel, (h.setLevel l).ensure]
      exact h.setLevel l

theorem applyAll (steps : List Setup) :
    ∀ {log earlier level opened}, Standing log earlier level opened →
      ∃ earlier', earlier <+: earlier' ∧ Standing (Setup.applyAll log steps) earlier' (lastLevel level steps)
        (lastLevel opened (steps.filter replaces)) := by
  induction steps with
  | nil =>
    intro log earlier level opened h
    exact ⟨earlier, List.prefix_rfl, h⟩
  | cons s rest ih =>
    intro log earlier level opened h
    rw [lastLevel_cons]
    cases hs : s.replaces with
    | false =>
      rw [List.filter_cons_of_neg (by simp [hs])]
      exact ih (h.apply hs)
    | true =>
      obtain ⟨l, toFile, rfl⟩ := exists_of_replaces hs
      rw [List.filter_cons_of_pos hs, lastLevel_cons]
      obtain ⟨earlier', hprefix, hrest⟩ := ih (h.configure l toFile)
      exact ⟨earlier', (List.prefix_append earlier [level]).trans hprefix, hrest⟩

/-- The logger that is current before some steps has, after them, the level given last before it was
replaced: then its level does not change any more. -/
theorem levelOf_applyAll (steps : List Setup) :
    ∀ {log earlier level opened}, Standing log earlier level opened →
      (Setup.applyAll log steps).levelOf earlier.length =
        lastLevel level (steps.takeWhile fun s => !s.replaces) := by
  induction steps with
  | nil =>
    intro log earlier level opened h
    exact h.levelOf
  | cons s rest ih =>
    intro log earlier level opened h
    cases hs : s.replaces with
    | false =>
      rw [List.takeWhile_cons_of_pos (by simp [hs]), lastLevel_cons]
      exact ih (h.apply hs)
    | true =>
      obtain ⟨l, toFile, rfl⟩ := exists_of_replaces hs
      rw [List.takeWhile_cons_of_neg (by simp [hs])]
      obtain ⟨earlier', ⟨more, rfl⟩, hrest⟩ := (h.configure l toFile).applyAll rest
      show (Setup.applyAll (log.configure l toFile) rest).levelOf earlier.length = level
      simp [Log.levelOf, hrest.levels]

/-- The first step makes a logger. -/
theorem start (s : Setup) :
    Standing (s.apply Log.start) [] (s.level?.getD .minimal) (s.level?.getD .minimal) := by
  cases s with
  | configure l toFile => exact ⟨rfl, rfl, rfl⟩
  | setLevel l => exact ⟨rfl, rfl, rfl⟩
  | ensure => exact ⟨rfl, rfl, rfl⟩
  | make config b =>
    cases hlevel : config.level with
    | none =>
      simp only [Setup.apply, Calculator.make, Setup.level?, hlevel]
      exact ⟨rfl, rfl, rfl⟩
    | some l =>
      simp only [Setup.apply, Calculator.make, Setup.level?, hlevel]
      exact ⟨rfl, rfl, rfl⟩

theorem applyAll_start {steps : List Setup} (hsteps : steps ≠ []) :
    ∃ earlier, Standing (Setup.applyAll .start steps) earlier (given steps) (opening steps) := by
  cases steps with
  | nil => exact absurd rfl hsteps
  | cons s rest =>
    obtain ⟨earlier, -, h⟩ := (start s).applyAll rest
    rw [given, lastLevel_cons]
    exact ⟨earlier, h⟩

theorem eq_of_current {id : LoggerId} (h : Standing log earlier level opened) (hid : log.current = some id) :
    id = earlier.length := by
  rw [h.current] at hid
  exact (Option.some.inj hid).symm

end Standing

/-! ## One message after many steps -/

theorem Log.ensure_current (log : Log) : log.ensure.2.current = some log.ensure.1 := by
  cases h : log.current with
  | none => simp [ensure, h, configure]
  | some id => simp [ensure, h]

theorem reaches_current_iff (steps : List Setup) (e : Event) :
    (applyAll .start steps).ensure.2.Reaches (applyAll .start steps).ensure.1 e ↔
      e.required.rank ≤ (given steps).rank ∧ opening steps ≠ .silent := by
  -- Asking for the logger is a step more, and one that gives no level.
  have hsteps : steps ++ [.ensure] ≠ [] := by simp
  obtain ⟨earlier, h⟩ := Standing.applyAll_start hsteps
  have hlog : applyAll .start (steps ++ [.ensure]) = (applyAll .start steps).ensure.2 := by
    rw [applyAll_append]
    rfl
  rw [hlog] at h
  rw [h.eq_of_current (Log.ensure_current _), Log.reaches_iff, h.levelOf, h.console]
  rw [given_ensure, opening_ensure]
  simp

theorem reaches_made_iff (before : List Setup) (config : Config) (b : Bindings) (after : List Setup) (e : Event) :
    (applyAll .start (before ++ .make config b :: after)).Reaches
        (Calculator.make config b (applyAll .start before)).1.logger e ↔
      e.required.rank ≤ (given (before ++ .make config b :: after.takeWhile fun s => !s.replaces)).rank ∧
        opening (before ++ .make config b :: after) ≠ .silent := by
  let made := before ++ [.make config b]
  have hsplit (rest : List Setup) : before ++ .make config b :: rest = made ++ rest := List.append_cons before _ rest
  have hmade : made ≠ [] := by simp [made]
  obtain ⟨earlier, h⟩ := Standing.applyAll_start hmade
  have hcurrent : (applyAll .start made).current =
      some (Calculator.make config b (applyAll .start before)).1.logger := by
    rw [applyAll_append]
    exact Log.ensure_current _
  obtain ⟨earlier', -, hafter⟩ := h.applyAll after
  rw [hsplit, hsplit, applyAll_append, given, lastLevel_append, opening_append hmade, h.eq_of_current hcurrent,
    Log.reaches_iff, h.levelOf_applyAll, hafter.console]
  simp [given]

/-- Every message after any steps: one through the current logger, and one through a calculator made on the
way. -/
theorem reaches_console_iff (e : Event) :
    (∀ steps, (applyAll .start steps).ensure.2.Reaches (applyAll .start steps).ensure.1 e ↔
        e.required.rank ≤ (given steps).rank ∧ opening steps ≠ .silent) ∧
      ∀ before config b after,
        (applyAll .start (before ++ .make config b :: after)).Reaches
            (Calculator.make config b (applyAll .start before)).1.logger e ↔
          e.required.rank ≤ (given (before ++ .make config b :: after.takeWhile fun s => !s.replaces)).rank ∧
            opening (before ++ .make config b :: after) ≠ .silent :=
  ⟨fun steps => reaches_current_iff steps e,
    fun before config b after => reaches_made_iff before config b after e⟩

/-- A logger that was made silent is given the highest level. -/
def raised : List Setup := [.configure .silent false, .setLevel .verbose]

/-- The logger of a calculator is replaced by one of the highest level. -/
def replaced : List Setup := [.make { maxSamples := 1 } (Dictionary.ofCapacity 1), .configure .verbose false]

/-- The level given last does not decide alone: there may be no console, and there may be two levels. -/
theorem reaches_console_not_iff_given :
    ¬ ((applyAll .start raised).ensure.2.Reaches (applyAll .start raised).ensure.1 (.info .moderate "x := 1") ↔
        Level.rank .moderate ≤ (given raised).rank) ∧
      ¬ ((applyAll .start replaced).Reaches
            (Calculator.make { maxSamples := 1 } (Dictionary.ofCapacity 1) .start).1.logger
            (.info .moderate "x := 1") ↔
          Level.rank .moderate ≤ (given replaced).rank) := by
  rw [Log.reaches_iff, Log.reaches_iff]
  decide

end ArithTree
