import ArithTree.Proofs.Environment.Temporary
import ArithTree.Proofs.Store.Prefix
import ArithTree.Proofs.Sweep.Visit
import ArithTree.Sweep.Sampling

/-!
# ArithTree.Proofs.Sweep.Gathering

What a sweep has gathered after some of its points. Every sample is taken under the bindings from
before the sweep and the binding of its own point: the samples before it have left nothing behind,
and neither has a sample that failed.

* `Gathered`: the invariant. The environment is as before the sweep, and the two buffers hold the
  points and the values so far.
* `gathered_sample`: one sample.
* `gathered_visitAll`: samples in a row, up to the first that fails.
* `sample_cases`: a whole sweep.
-/

namespace ArithTree
namespace Sweep

/-- The value of the swept expression where the swept name stands for `x`. -/
def Span.valueAt [Numerics] (span : Span) (b : Bindings) (x : Float) : Except Failure Float :=
  evaluate (b.insert span.name (.num x)) span.expression

structure Gathered (env : Environment) (xs ys : List Float) (p : Progress) : Prop where
  env : p.env.Alike env
  xsWellFormed : p.xs.WellFormed
  ysWellFormed : p.ys.WellFormed
  xs : p.xs.toList = xs
  ys : p.ys.toList = ys

variable [Numerics] {env : Environment} {span : Span} {xs ys : List Float} {p : Progress}

theorem gathered_nil (h : env.bindings.WellFormed) (log : Log) (watched : Bool) :
    Gathered env [] [] ⟨env, log, watched, Samples.empty, Samples.empty⟩ where
  env := ⟨.refl h, rfl⟩
  xsWellFormed := Samples.wellFormed_ofCapacity 16
  ysWellFormed := Samples.wellFormed_ofCapacity 16
  xs := Samples.toList_ofCapacity 16
  ys := Samples.toList_ofCapacity 16

theorem Gathered.push {env' : Environment} (h : Gathered env xs ys p) (halike : env'.Alike env) (x y : Float)
    (log : Log) :
    Gathered env (xs ++ [x]) (ys ++ [y])
      { p with env := env', log := log, xs := p.xs.push x, ys := p.ys.push y } where
  env := halike
  xsWellFormed := h.xsWellFormed.push x
  ysWellFormed := h.ysWellFormed.push y
  xs := (Samples.toList_push h.xsWellFormed x).trans (by rw [h.xs])
  ys := (Samples.toList_push h.ysWellFormed y).trans (by rw [h.ys])

/-- The swept name is bound and removed again, and the value does not see earlier samples. -/
theorem withBinding_valueAt (hn : env.isBound span.name = false) (h : Gathered env xs ys p)
    (x : Float) :
    ∃ env', env'.Alike env ∧
      (p.env.withBinding span.name (.num x) fun env => (env.evaluate span.expression, env)) =
        (span.valueAt env.bindings x, env') := by
  have hwf : p.env.bindings.WellFormed := h.env.bindings.left
  have hfree : p.env.isBound span.name = false := by
    rw [Environment.isBound, h.env.bindings.contains_eq]
    exact hn
  let work (env : Environment) := (env.evaluate span.expression, env)
  have hwork : (work (p.env.bind span.name (.num x))).2.Alike (p.env.bind span.name (.num x)) :=
    ⟨.refl (hwf.insert _ _).1, rfl⟩
  obtain ⟨hresult, halike⟩ := Environment.withBinding_alike hwf hfree (.num x) hwork
  refine ⟨_, halike.trans h.env, Prod.ext ?_ rfl⟩
  rw [hresult]
  exact evaluate_alike (h.env.bindings.insert _ _) _

theorem gathered_sample (hn : env.isBound span.name = false) (logger : LoggerId)
    (h : Gathered env xs ys p) (x : Float) :
    (∃ y p', span.valueAt env.bindings x = .ok y ∧ p.sample span logger x = (p', none) ∧
        Gathered env (xs ++ [x]) (ys ++ [y]) p') ∨
      ∃ f p', span.valueAt env.bindings x = .error f ∧ p.sample span logger x = (p', some f) ∧
        Gathered env xs ys p' := by
  obtain ⟨env', halike, hsample⟩ := withBinding_valueAt hn h x
  cases hv : span.valueAt env.bindings x with
  | error f =>
    refine .inr ⟨f, { p with env := env' }, rfl, ?_, ?_⟩
    · simp only [Progress.sample, hsample, hv]
    · exact ⟨halike, h.xsWellFormed, h.ysWellFormed, h.xs, h.ys⟩
  | ok y =>
    let log := if p.watched then p.log.report logger (.sample span.name x y) else p.log
    refine .inl ⟨y, _, rfl, ?_, h.push halike x y log⟩
    simp only [Progress.sample, hsample, hv, log]

theorem gathered_visitAll (hn : env.isBound span.name = false) (logger : LoggerId)
    (points : List Float) :
    ∀ (xs ys : List Float) (p : Progress), Gathered env xs ys p →
      (∃ values p', points.map (span.valueAt env.bindings) = values.map .ok ∧
          visitAll (Progress.sample span logger) points p = (p', none) ∧
          Gathered env (xs ++ points) (ys ++ values) p') ∨
        ∃ done x rest values f p', points = done ++ x :: rest ∧
          done.map (span.valueAt env.bindings) = values.map .ok ∧
          span.valueAt env.bindings x = .error f ∧
          visitAll (Progress.sample span logger) points p = (p', some f) ∧
          Gathered env (xs ++ done) (ys ++ values) p' := by
  induction points with
  | nil =>
    intro xs ys p h
    exact .inl ⟨[], p, rfl, rfl, by simpa using h⟩
  | cons x points ih =>
    intro xs ys p h
    obtain ⟨y, p', hv, hp, h'⟩ | ⟨f, p', hv, hp, h'⟩ := gathered_sample hn logger h x
    · obtain ⟨values, q, hvs, hq, hg⟩ | ⟨done, x', rest, values, f, q, hsplit, hvs, hf, hq, hg⟩ :=
        ih _ _ p' h'
      · refine .inl ⟨y :: values, q, by simp [hv, hvs], by rw [visitAll_ok hp, hq], ?_⟩
        simpa using hg
      · refine .inr ⟨x :: done, x', rest, y :: values, f, q, by simp [hsplit], by simp [hv, hvs], hf,
          by rw [visitAll_ok hp, hq], ?_⟩
        simpa using hg
    · refine .inr ⟨[], x, points, [], f, p', rfl, rfl, hv, visitAll_failed hp points, ?_⟩
      simpa using h'

/-- A sweep either takes a sample at each of its points, and then fails exactly if it was cut short,
or it fails at the first point where the expression has no value. -/
theorem sample_cases (hwf : env.bindings.WellFormed) (hn : env.isBound span.name = false)
    {mode : Mode} {limit : Nat} {visited : Array Float} {stop : Option (Stop Float)}
    (hpoints : points mode span.low span.high span.step limit = (visited, stop))
    (logger : LoggerId) (log : Log) :
    (∃ values p, visited.toList.map (span.valueAt env.bindings) = values.map .ok ∧
        sample mode limit logger span env log = (p, stop.map Failure.ofStop) ∧
        Gathered env visited.toList values p) ∨
      ∃ done x rest values f p, visited.toList = done ++ x :: rest ∧
        done.map (span.valueAt env.bindings) = values.map .ok ∧
        span.valueAt env.bindings x = .error f ∧
        sample mode limit logger span env log = (p, some f) ∧ Gathered env done values p := by
  obtain ⟨values, p, hvs, hp, hg⟩ | ⟨done, x, rest, values, f, p, hsplit, hvs, hf, hp, hg⟩ :=
    gathered_visitAll hn logger visited.toList [] [] _
      (gathered_nil hwf log ((log.levelOf logger).reports .verbose))
  · refine .inl ?_
    cases stop with
    | none =>
      let summary := p.log.report logger (.sweep span.name span.low span.high span.step p.xs.size)
      refine ⟨values, { p with log := summary }, hvs, ?_, hg.env, hg.xsWellFormed, hg.ysWellFormed,
        hg.xs, hg.ys⟩
      simp only [sample, visitNamed_name, visitPoints_eq, hpoints, hp, endWith, Option.map, summary]
    | some stop =>
      refine ⟨values, p, hvs, ?_, hg⟩
      simp only [sample, visitNamed_name, visitPoints_eq, hpoints, hp, endWith, Option.map]
  · refine .inr ⟨done, x, rest, values, f, p, hsplit, hvs, hf, ?_, hg⟩
    simp only [sample, visitNamed_name, visitPoints_eq, hpoints, hp, endWith]

end Sweep
end ArithTree
