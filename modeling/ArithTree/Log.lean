import ArithTree.Decimal.Layout

/-!
# ArithTree.Log

What the calculator reports, and where reports go. A logger lets an event pass by a test that depends on the kind
of the event.

* `passes_eq`: all these tests are one: every event has a level that a logger must have reached.

There is one current logger for all; setting the level changes it in place, configuring replaces it.
A caller that holds on to a logger keeps its level, but the outlets are common: they belong to the
logger configured last and are chosen when it is made. A logger made `silent` opens no console, also
if its level is raised later. Where there is no outlet at all, errors and warnings still reach the
screen, as bare lines.
-/

namespace ArithTree

inductive Level where
  | silent
  | minimal
  | moderate
  | detailed
  | verbose
  deriving DecidableEq, Repr

namespace Level

def rank : Level → Nat
  | .silent => 0
  | .minimal => 1
  | .moderate => 2
  | .detailed => 3
  | .verbose => 4

def name : Level → String
  | .silent => "SILENT"
  | .minimal => "MINIMAL"
  | .moderate => "MODERATE"
  | .detailed => "DETAILED"
  | .verbose => "VERBOSE"

def all : List Level := [.silent, .minimal, .moderate, .detailed, .verbose]

def ofName? (s : String) : Option Level := all.find? fun l => l.name == s

/-- Does a logger at level `l` report what requires `required`? -/
def reports (l required : Level) : Bool := decide (required.rank ≤ l.rank)

end Level

inductive Severity where
  | error
  | warning
  | info
  | debug
  deriving DecidableEq, Repr

def Severity.name : Severity → String
  | .error => "ERROR"
  | .warning => "WARNING"
  | .info => "INFO"
  | .debug => "DEBUG"

inductive Event where
  | error (text : String)
  | warning (text : String)
  | info (required : Level) (text : String)
  | debug (text : String)
  /-- One sample of a plot. -/
  | sample (name : String) (x y : Float)
  /-- The summary of a plot with `n` samples. -/
  | sweep (name : String) (low high step : Float) (n : Nat)
  deriving DecidableEq

namespace Event

def required : Event → Level
  | .error _ | .warning _ => .minimal
  | .info required _ => required
  | .debug _ | .sample .. => .verbose
  | .sweep .. => .detailed

def severity : Event → Severity
  | .error _ => .error
  | .warning _ => .warning
  | .info .. | .sweep .. => .info
  | .debug _ | .sample .. => .debug

def text : Event → String
  | .error text | .warning text | .info _ text | .debug text => text
  | .sample name x y => name ++ "=" ++ Decimal.brief x ++ " -> " ++ Decimal.brief y
  | .sweep name low high step n =>
    "Sweep " ++ name ++ " from " ++ Decimal.brief low ++ " to " ++ Decimal.brief high ++ " step " ++
      Decimal.brief step ++ ": " ++ toString n ++ " samples"

/-- A line of a log, with the time of day in front. -/
def line (clock : String) (e : Event) : String :=
  clock ++ " - " ++ e.severity.name ++ " - " ++ e.text ++ "\n"

/-- Is an event important enough to be shown where there is no outlet? -/
def isUrgent (e : Event) : Bool := e.severity == .error || e.severity == .warning

end Event

namespace Level

/-- Does a logger at level `l` let an event pass? Errors pass unless the logger is silent. -/
def passes (l : Level) : Event → Bool
  | .error _ => l != .silent
  | .warning _ => l.reports .minimal
  | .info required _ => l.reports required
  | .debug _ | .sample .. => l.reports .verbose
  | .sweep .. => l.reports .detailed

theorem passes_eq (l : Level) (e : Event) : l.passes e = l.reports e.required := by
  cases e with
  | error text => cases l <;> rfl
  | _ => rfl

end Level

/-- A line on the screen: with the time and severity, or bare. -/
structure Shown where
  event : Event
  bare : Bool
  deriving DecidableEq

def Shown.line (clock : String) (s : Shown) : String :=
  if s.bare then s.event.text ++ "\n" else s.event.line clock

/-- Which logger a caller holds: they are numbered in the order in which they were made. -/
abbrev LoggerId := Nat

structure Log where
  /-- The levels of the loggers made so far. -/
  levels : List Level := []
  current : Option LoggerId := none
  /-- Is the screen an outlet? -/
  console : Bool := false
  file : Option Nat := none
  screen : Array Shown := #[]
  /-- The events in each file opened so far. -/
  files : Array (Array Event) := #[]
  deriving DecidableEq

namespace Log

def start : Log := {}

/-- Makes a logger the current one and opens its outlets. -/
def configure (log : Log) (level : Level) (toFile : Bool) : Log :=
  { log with
    levels := log.levels ++ [level]
    current := some log.levels.length
    console := level != .silent
    file := if toFile then some log.files.size else none
    files := if toFile then log.files.push #[] else log.files }

/-- The current logger, made at level `minimal` if there is none. -/
def ensure (log : Log) : LoggerId × Log :=
  match log.current with
  | some id => (id, log)
  | none => (log.levels.length, log.configure .minimal false)

/-- Sets the level of the current logger, which is made at that level if there is none. -/
def setLevel (log : Log) (level : Level) : Log :=
  match log.current with
  | some id => { log with levels := log.levels.set id level }
  | none => log.configure level false

def levelOf (log : Log) (id : LoggerId) : Level := log.levels.getD id .silent

/-- How an event appears on the screen. -/
def shown? (log : Log) (e : Event) : Option Shown :=
  if log.console then some ⟨e, false⟩
  else if log.file.isNone && e.isUrgent then some ⟨e, true⟩
  else none

def write (log : Log) (e : Event) : Log :=
  { log with
    screen := match log.shown? e with
      | some line => log.screen.push line
      | none => log.screen
    files := match log.file with
      | some i => log.files.modify i (·.push e)
      | none => log.files }

def report (log : Log) (id : LoggerId) (e : Event) : Log :=
  if (log.levelOf id).passes e then log.write e else log

end Log
end ArithTree
