import ArithTree.Log

/-!
# ArithTree.Proofs.Log.Told

What a log gets to know of a row of events that one logger reports: those that its level lets pass, in order
(`tell`). Reporting changes no level, so rows that are told one after the other are told as one
(`tell_append`). A file has the whole row at the end (`files_record`).
-/

namespace ArithTree
namespace Log

variable {log : Log} {id : LoggerId} {e : Event}

/-- Writes events, whatever their level. -/
def record (log : Log) (events : List Event) : Log := events.foldl write log

/-- The log after a logger has reported events. -/
def tell (log : Log) (id : LoggerId) (events : List Event) : Log :=
  log.record (events.filter fun e => (log.levelOf id).reports e.required)

theorem levels_record (log : Log) (events : List Event) : (log.record events).levels = log.levels := by
  induction events generalizing log with
  | nil => rfl
  | cons e events ih => exact ih (log.write e)

theorem levelOf_tell (log : Log) (id id' : LoggerId) (events : List Event) :
    (log.tell id events).levelOf id' = log.levelOf id' := by
  rw [levelOf, tell, levels_record]
  rfl

theorem tell_append (log : Log) (id : LoggerId) (events more : List Event) :
    log.tell id (events ++ more) = (log.tell id events).tell id more := by
  rw [tell, List.filter_append, record, List.foldl_append, tell, levelOf_tell]
  rfl

theorem report_eq (log : Log) (id : LoggerId) (e : Event) : log.report id e = log.tell id [e] := by
  rw [report, Level.passes_eq]
  cases h : (log.levelOf id).reports e.required with
  | true => simp [tell, h, record]
  | false => simp [tell, h, record]

/-- A gate that is opened at the level of an event lets the same pass as the report itself. -/
theorem gate_eq (log : Log) (id : LoggerId) (e : Event) :
    (if (log.levelOf id).reports e.required then log.report id e else log) = log.tell id [e] := by
  rw [report_eq]
  cases h : (log.levelOf id).reports e.required with
  | true => rfl
  | false => simp [tell, h, record]

theorem reports_verbose (required : Level) : Level.verbose.reports required = true := by
  cases required <;> rfl

theorem reports_verbose_iff (l : Level) : l.reports .verbose = true ↔ l = .verbose := by
  cases l <;> decide

theorem tell_verbose (h : log.levelOf id = .verbose) (events : List Event) :
    log.tell id events = log.record events := by
  rw [tell, h, List.filter_eq_self.mpr fun e _ => reports_verbose e.required]

/-- The open file gets them all, in order. -/
theorem files_record (log : Log) {i : Nat} (hfile : log.file = some i) (events : List Event) :
    (log.record events).files[i]? = log.files[i]?.map (· ++ events.toArray) := by
  induction events generalizing log with
  | nil => simp [record]
  | cons e events ih =>
    have hwrite : (log.write e).files[i]? = log.files[i]?.map (·.push e) := by
      simp [write, hfile, Array.getElem?_modify]
    have hrest := ih (log.write e) hfile
    rw [hwrite] at hrest
    refine hrest.trans ?_
    simp [Function.comp_def]

end Log
end ArithTree
