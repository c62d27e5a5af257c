import ArithTree.Elementary.Rounded
import ArithTree.Proofs.Command.Plot
import ArithTree.Proofs.Store.Capacity

/-!
# ArithTree.Proofs.Command.Capacity

The slots of the bindings after a plot. A sweep binds its name and removes it again at every point, so the bindings
never hold more than one entry beyond those from before. One sample may double the row of slots; the samples after
it find the slot that this one has left.

* `Swept`: the bindings after some samples. One sample keeps this (`Swept.insert_remove`), and so do a sweep
  (`swept_sample`) and a plot (`swept_plot`).
* `capacity_follows_peak`: the capacity after any operations, and after a plot.
-/

namespace ArithTree
namespace Sweep

/-- `b` has the entries of `d`, and has never held more than one entry beyond them. -/
structure Swept (d b : Bindings) : Prop where
  alike : b.Alike d
  tracks : ∃ p ≤ d.size + 1, b.Tracks d.capacity p

namespace Swept

variable {d b : Bindings} {name : String}

theorem refl (h : d.WellFormed) : Swept d d := ⟨.refl h, d.size, Nat.le_succ d.size, .refl h⟩

theorem insert_remove (h : Swept d b) (hn : d.get? name = none) (e : Expr) :
    ∃ a, (b.insert name e).remove name = .ok (e, a) ∧ Swept d a := by
  obtain ⟨p, hp, htracks⟩ := h.tracks
  have hfree : b.get? name = none := (h.alike.get?_eq name).trans hn
  have hinserted := (h.alike.left.insert name e).1
  obtain ⟨a, hremove, ha⟩ := Dictionary.Alike.remove_inserted h.alike.left hfree (.refl hinserted)
  refine ⟨a, hremove, ha.trans h.alike, _, ?_, (htracks.change (.insert b name e)).change (.remove hremove)⟩
  have hsize := h.alike.size_eq
  have hsize' := (ha.trans h.alike).size_eq
  obtain ⟨hinsert, -⟩ | ⟨hinsert, -⟩ := h.alike.left.insert_capacity name e
  · omega
  · omega

theorem capacity_eq (h : Swept d b) (hroom : d.size < d.capacity) : b.capacity = d.capacity := by
  obtain ⟨p, hp, htracks⟩ := h.tracks
  exact htracks.row.eq_start (by omega)

theorem capacity_cases (h : Swept d b) : b.capacity = d.capacity ∨ b.capacity = 2 * d.capacity := by
  obtain ⟨p, hp, htracks⟩ := h.tracks
  have hle := h.alike.right.size_le_capacity
  by_cases hfit : p ≤ d.capacity
  · exact .inl (htracks.row.eq_start hfit)
  · obtain rfl : p = d.capacity + 1 := by omega
    exact .inr (htracks.row.eq_double h.alike.right.capacity_pos)

end Swept

variable {env : Environment} {span : Span}

theorem swept_progress [Numerics] (hn : env.isBound span.name = false) (logger : LoggerId) (p : Progress) (x : Float)
    (h : Swept env.bindings p.env.bindings) :
    Swept env.bindings (p.sample span logger x).1.env.bindings := by
  obtain ⟨a, hremove, ha⟩ := h.insert_remove (Environment.isBound_eq_false.mp hn) (.num x)
  have hbindings : (p.env.withBinding span.name (.num x) fun env =>
      (env.evaluate span.expression, env)).2.bindings = a := by
    simp only [Environment.withBinding, Environment.bind, Environment.unbind, hremove]
  rw [← hbindings] at ha
  unfold Progress.sample
  split
  · rename_i hsample
    rwa [hsample] at ha
  · rename_i hsample
    rwa [hsample] at ha

theorem swept_sample [Numerics] (hwf : env.bindings.WellFormed) (hn : env.isBound span.name = false) (mode : Mode)
    (limit : Nat) (logger : LoggerId) (log : Log) :
    Swept env.bindings (sample mode limit logger span env log).1.env.bindings := by
  let start : Progress := ⟨env, log, (log.levelOf logger).reports .verbose, Samples.empty, Samples.empty⟩
  let visited := (points mode span.low span.high span.step limit).1.toList
  have hvisited := visitAll_keeps (swept_progress hn logger) visited start (.refl hwf)
  simp only [sample, visitNamed_name, visitPoints_eq]
  rcases hv : visitAll (Progress.sample span logger) visited start with ⟨p, _ | f⟩
  · rw [hv] at hvisited
    cases (points mode span.low span.high span.step limit).2 with
    | none => exact hvisited
    | some stop => exact hvisited
  · rw [hv] at hvisited
    exact hvisited

end Sweep

namespace Command

open Sweep

/-- A plot that is refused, and one that fails at whatever point of its sweep, are no exceptions. -/
theorem swept_plot [Numerics] {env : Environment} (hwf : env.bindings.WellFormed) (config : Config) (logger : LoggerId)
    (log : Log) (entry : Expr) : Swept env.bindings (plot config logger env log entry).env.bindings := by
  unfold plot
  split
  · split
    · exact .refl hwf
    · rename_i span hspan
      have hswept := swept_sample hwf (spanOf_ok hspan).unbound config.mode config.maxSamples logger log
      split
      · rename_i hsample
        rwa [hsample] at hswept
      · rename_i hsample
        rwa [hsample] at hswept
  · split
    · exact .refl hwf
    · exact .refl hwf

end Command

/-- The capacity of a dictionary is the least of `c`, `2 * c`, `4 * c`, … that has had room for all entries at every
moment, whatever was done and whatever failed. A plot, over any number of points, leaves the capacity of the
bindings as it is if a slot is free, and otherwise doubles it at most once. -/
theorem capacity_follows_peak [Numerics] {κ ν : Type} [BEq κ] [BEq ν] {c : Nat} (hc : 0 < c) (pairs : List (κ × ν))
    (ops : List (Dictionary.Operation κ ν)) :
    Dictionary.RowFor c (Dictionary.peak ((Dictionary.ofCapacity c).history (.insertMany pairs :: ops)))
        (Dictionary.runAll Dictionary.perform (Dictionary.ofList c pairs) ops).2.capacity ∧
      ∀ (config : Config) (logger : LoggerId) (env : Environment) (log : Log) (entry : Expr),
        env.bindings.WellFormed →
        let after := (Command.plot config logger env log entry).env.bindings
        (env.bindings.size < env.bindings.capacity → after.capacity = env.bindings.capacity) ∧
          (after.capacity = env.bindings.capacity ∨ after.capacity = 2 * env.bindings.capacity) := by
  refine ⟨Dictionary.rowFor_peak hc pairs ops, ?_⟩
  intro config logger env log entry hwf
  have hswept := Command.swept_plot hwf config logger log entry
  exact ⟨hswept.capacity_eq, hswept.capacity_cases⟩

/-- A third key comes and goes in two slots, and one removal is refused. The entries that come after a clearing
are fewer. -/
def comings : List (Dictionary.Operation Nat Nat) :=
  [.insert 3 30, .remove 3, .remove 3, .insert 4 40, .insert 4 44, .pop 1 none, .clear, .insertMany [(1, 10), (5, 50)]]

open scoped Elementary in
theorem capacity_follows_peak_comings :
    let pairs := [(1, 10), (2, 20)]
    let env : Environment := { bindings := Command.sloped }
    let node := Expr.plot (.var "g") (.var "x") (.num 0) (.num 1) (.binary .div (.num 1) (.num 2))
    let after := (Command.plot {} 0 env {} node).env.bindings
    0 < 2 ∧ env.bindings.WellFormed ∧
      Dictionary.peak ((Dictionary.ofCapacity 2).history (.insertMany pairs :: comings)) = 3 ∧
      Dictionary.RowFor 2 (Dictionary.peak ((Dictionary.ofCapacity 2).history (.insertMany pairs :: comings)))
        (Dictionary.runAll Dictionary.perform (Dictionary.ofList 2 pairs) comings).2.capacity ∧
      (after.capacity = env.bindings.capacity ∨ after.capacity = 2 * env.bindings.capacity) ∧
      env.bindings.capacity = 2 ∧ after.capacity = 4 := by
  intro pairs env node after
  have hwf : env.bindings.WellFormed := Dictionary.wellFormed_ofList Nat.one_pos _
  obtain ⟨hrow, hplot⟩ := capacity_follows_peak (by decide : 0 < 2) pairs comings
  exact ⟨by decide, hwf, by decide, hrow, (hplot {} 0 env {} node hwf).2, by decide, by decide +kernel⟩

end ArithTree
