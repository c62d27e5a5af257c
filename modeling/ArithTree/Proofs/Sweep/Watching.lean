import ArithTree.Proofs.Log.Told
import ArithTree.Proofs.Sweep.Gathering

/-!
# ArithTree.Proofs.Sweep.Watching

What a sweep reports: one line for each sample that it completes, in order, and a summary after them if it is
carried through to its end. Whether it is watched changes nothing else.

* `Span.completed`: the samples at some points, up to the first where the expression has no value.
* `visitAll_told`: samples in a row.
* `sample_told`: a whole sweep.
-/

namespace ArithTree
namespace Sweep

variable {env : Environment} {span : Span} {xs ys : List Float} {p : Progress}

/-- The samples at these points, up to the first where the expression has no value. -/
def Span.completed [Numerics] (span : Span) (b : Bindings) : List Float → List (Float × Float)
  | [] => []
  | x :: rest =>
    match span.valueAt b x with
    | .ok y => (x, y) :: span.completed b rest
    | .error _ => []

/-- A line for each sample. -/
def Span.lines (span : Span) (samples : List (Float × Float)) : List Event :=
  samples.map fun s => .sample span.name s.1 s.2

/-- A line about a sweep of `n` samples that has not failed. -/
def Span.summary (span : Span) (n : Nat) : Option Failure → List Event
  | none => [.sweep span.name span.low span.high span.step n]
  | some _ => []

/-- What has been gathered, where the log decides whether the samples are reported to it. -/
def Progress.under (p : Progress) (logger : LoggerId) (log : Log) : Progress :=
  { p with log := log, watched := (log.levelOf logger).reports .verbose }

variable [Numerics]

theorem Progress.sample_told (hn : env.isBound span.name = false) (h : Gathered env xs ys p) (x : Float) :
    (∃ y, ∃ p' : Progress, span.valueAt env.bindings x = .ok y ∧ Gathered env (xs ++ [x]) (ys ++ [y]) p' ∧
        ∀ logger log, (p.under logger log).sample span logger x =
          (p'.under logger (log.tell logger [.sample span.name x y]), none)) ∨
      ∃ f, ∃ p' : Progress, span.valueAt env.bindings x = .error f ∧
        ∀ logger log, (p.under logger log).sample span logger x = (p'.under logger log, some f) := by
  obtain ⟨env', halike, hsample⟩ := withBinding_valueAt hn h x
  cases hv : span.valueAt env.bindings x with
  | error f =>
    refine .inr ⟨f, { p with env := env' }, rfl, fun logger log => ?_⟩
    simp only [Progress.sample, under, hsample, hv]
  | ok y =>
    refine .inl ⟨y, _, rfl, h.push halike x y p.log, fun logger log => ?_⟩
    simp only [Progress.sample, under, hsample, hv, Log.levelOf_tell]
    rw [← Log.gate_eq]
    rfl

theorem visitAll_told (hn : env.isBound span.name = false) (points : List Float) :
    ∀ {xs ys p}, Gathered env xs ys p → ∃ (p' : Progress) (failed : Option Failure), ∀ logger log,
      visitAll (Progress.sample span logger) points (p.under logger log) =
        (p'.under logger (log.tell logger (span.lines (span.completed env.bindings points))), failed) := by
  induction points with
  | nil =>
    intro xs ys p h
    exact ⟨p, none, fun logger log => rfl⟩
  | cons x points ih =>
    intro xs ys p h
    obtain ⟨y, p', hv, h', hp⟩ | ⟨f, p', hv, hp⟩ := Progress.sample_told hn h x
    · obtain ⟨q, failed, hq⟩ := ih h'
      refine ⟨q, failed, fun logger log => ?_⟩
      rw [visitAll_ok (hp logger log), hq, ← Log.tell_append]
      simp only [Span.completed, hv]
      rfl
    · refine ⟨p', some f, fun logger log => ?_⟩
      rw [visitAll_failed (hp logger log)]
      simp only [Span.completed, hv]
      rfl

/-- A sweep comes to the same with any log, and tells it of its samples and of its end. -/
theorem sample_told (hwf : env.bindings.WellFormed) (hn : env.isBound span.name = false) (mode : Mode)
    (limit : Nat) :
    ∃ (p : Progress) (failed : Option Failure), ∀ logger log, sample mode limit logger span env log =
      (p.under logger (log.tell logger
        (span.lines (span.completed env.bindings (points mode span.low span.high span.step limit).1.toList) ++
          span.summary p.xs.size failed)), failed) := by
  let start : Progress := ⟨env, .start, false, Samples.empty, Samples.empty⟩
  have hstart : Gathered env [] [] start := gathered_nil hwf .start false
  rcases hpoints : points mode span.low span.high span.step limit with ⟨visited, stop⟩
  obtain ⟨p, failed, hp⟩ := visitAll_told hn visited.toList hstart
  have hsample (logger : LoggerId) (log : Log) :
      visitAll (Progress.sample span logger) visited.toList
          ⟨env, log, (log.levelOf logger).reports .verbose, Samples.empty, Samples.empty⟩ =
        (p.under logger (log.tell logger (span.lines (span.completed env.bindings visited.toList))), failed) :=
    hp logger log
  cases failed with
  | some f =>
    refine ⟨p, some f, fun logger log => ?_⟩
    simp only [sample, visitNamed_name, visitPoints_eq, hpoints, hsample, endWith, Span.summary, List.append_nil]
  | none =>
    cases stop with
    | some stop =>
      refine ⟨p, some (Failure.ofStop stop), fun logger log => ?_⟩
      simp only [sample, visitNamed_name, visitPoints_eq, hpoints, hsample, endWith, Option.map, Span.summary,
        List.append_nil]
    | none =>
      refine ⟨p, none, fun logger log => ?_⟩
      simp only [sample, visitNamed_name, visitPoints_eq, hpoints, hsample, endWith, Option.map, Span.summary,
        Log.tell_append, Progress.under, Log.report_eq, Log.levelOf_tell]

end Sweep
end ArithTree
