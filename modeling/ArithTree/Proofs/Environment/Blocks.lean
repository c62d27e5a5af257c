import ArithTree.Elementary.Rounded
import ArithTree.Environment.Block
import ArithTree.Proofs.Environment.Temporary
import ArithTree.Proofs.Store.Hidden

/-!
# ArithTree.Proofs.Environment.Blocks

Blocks under bindings of their own leave no trace of these bindings. A block runs beside the bare steps that bind
and unbind names for good: at every moment the bindings of the block, without those of the blocks that are open, are
the bindings that the bare steps have led to. A permanent entry may come to stand behind a temporary one and be
removed from before it; the order of the permanent entries is the same on both sides.

* `events`: what happens while a block runs, in order.
* `wellScoped`: every block opens on a free name, and its steps leave the names of the open blocks alone.
* `run_step`, `run_without`: the two runs side by side, for a step and for a block.
* `run_transparent`: a block against its bare steps.
-/

namespace ArithTree

namespace Environment

/-- `env'` is `env` without the hidden bindings. -/
structure Without (hidden : List String) (env env' : Environment) : Prop where
  bindings : env.bindings.Without hidden env'.bindings
  sink : env.sink = env'.sink

namespace Without

variable {hidden : List String} {env env' : Environment} {name : String}

theorem refl (h : env.bindings.WellFormed) : env.Without [] env := ⟨.refl h, rfl⟩

theorem alike (h : env.Without [] env') : env.Alike env' := by
  refine ⟨⟨h.bindings.left, h.bindings.right, ?_⟩, h.sink⟩
  rw [h.bindings.entries]
  exact (List.filter_eq_self.mpr fun _ _ => rfl).symm

theorem bind (h : env.Without hidden env') (hn : name ∉ hidden) (e : Expr) :
    (env.bind name e).Without hidden (env'.bind name e) :=
  ⟨h.bindings.insert hn e, h.sink⟩

theorem unbind (h : env.Without hidden env') (hn : name ∉ hidden) :
    (env.unbind name = (.error (.noSuchName name), env) ∧
        env'.unbind name = (.error (.noSuchName name), env')) ∨
      ∃ e a a', env.unbind name = (.ok e, a) ∧ env'.unbind name = (.ok e, a') ∧ a.Without hidden a' := by
  obtain ⟨hr, hr'⟩ | ⟨e, b, b', hr, hr', hb⟩ := h.bindings.remove hn
  · exact .inl ⟨by simp only [Environment.unbind, hr], by simp only [Environment.unbind, hr']⟩
  · exact .inr ⟨e, { env with bindings := b }, { env' with bindings := b' },
      by simp only [Environment.unbind, hr], by simp only [Environment.unbind, hr'], hb, h.sink⟩

/-- An open block has its name bound, so no other block opens on this name. -/
theorem not_mem_of_free (h : env.Without hidden env') (hn : env.isBound name = false) : name ∉ hidden := by
  intro hin
  obtain ⟨e, he⟩ := h.bindings.stored name hin
  rw [isBound_eq_false.mp hn] at he
  cases he

theorem hide (h : env.Without hidden env') (hn : env.isBound name = false) (e : Expr) :
    (env.bind name e).Without (name :: hidden) env' :=
  ⟨h.bindings.hide (isBound_eq_false.mp hn) e, h.sink⟩

theorem reveal (h : env.Without (name :: hidden) env') (hn : name ∉ hidden) :
    ∃ e a, env.unbind name = (.ok e, a) ∧ a.Without hidden env' := by
  obtain ⟨e, b, hr, hb⟩ := h.bindings.reveal hn
  exact ⟨e, { env with bindings := b }, by simp only [Environment.unbind, hr], hb, h.sink⟩

end Without
end Environment

namespace EnvironmentStep

/-- The name that a step binds or unbinds for good. -/
def edited? : EnvironmentStep → Option String
  | .bind name _ | .unbind name => some name
  | .isBound _ | .evaluate _ | .bindings | .fail _ => none

theorem run_failed [Numerics] {s : EnvironmentStep} {env env₁ : Environment} {f : Failure}
    (h : s.run env = (.error f, env₁)) : env₁ = env := by
  cases s with
  | unbind name =>
    simp only [run, Environment.unbind] at h
    cases hr : env.bindings.remove name with
    | ok p =>
      simp only [hr] at h
      cases h
    | error m =>
      simp only [hr] at h
      cases h
      rfl
  | bind name e => cases h
  | isBound name => cases h
  | bindings => cases h
  | evaluate e => exact (congrArg Prod.snd h).symm
  | fail f => exact (congrArg Prod.snd h).symm

end EnvironmentStep

namespace Block

/-- A step is completed with its answer, or a failure is raised: by a step, or when a block cannot remove its
binding. -/
inductive Event where
  | completed (s : EnvironmentStep) (answer : BlockReply)
  | raised (f : Failure)

def Event.failure? : Event → Option Failure
  | .completed .. => none
  | .raised f => some f

/-- A completed step that binds or unbinds a name, with its answer. -/
def Event.edits : Event → List (EnvironmentStep × BlockReply)
  | .completed s answer => if s.edited?.isSome then [(s, answer)] else []
  | .raised _ => []

/-- What happens while a block runs. -/
def events [Numerics] (env : Environment) : Block → List Event
  | .done => []
  | .step s rest =>
    match s.run env with
    | (.error f, _) => [.raised f]
    | (.ok answer, env) => .completed s answer :: rest.events env
  | .within name e body rest =>
    body.events (env.bind name e) ++
      match body.run (env.bind name e) with
      | (result, env) =>
        match env.unbind name with
        | (.error f, _) => [.raised f]
        | (.ok _, env) =>
          match result with
          | .error _ => []
          | .ok _ => rest.events env

/-- The first failure that is raised. -/
def firstRaised [Numerics] (env : Environment) (b : Block) : Option Failure := (b.events env).findSome? Event.failure?

/-- The steps that bind or unbind a name and are completed, at whatever depth, with their answers. -/
def edits [Numerics] (env : Environment) (b : Block) : List (EnvironmentStep × BlockReply) :=
  (b.events env).flatMap Event.edits

/-- Steps one after another, without any block. -/
def ofSteps : List EnvironmentStep → Block
  | [] => .done
  | s :: rest => .step s (ofSteps rest)

/-- Every block opens on a name that is free at that moment, and while it is open no step binds or unbinds this
name. `opened` holds the names of the blocks that are open; only what the run comes to is looked at. -/
def wellScoped [Numerics] (opened : List String) (env : Environment) : Block → Bool
  | .done => true
  | .step s rest =>
    s.edited?.all (fun n => !opened.elem n) &&
      match s.run env with
      | (.error _, _) => true
      | (.ok _, env) => rest.wellScoped opened env
  | .within name e body rest =>
    !env.isBound name && body.wellScoped (name :: opened) (env.bind name e) &&
      match env.withBinding name e fun env => body.run env with
      | (.error _, _) => true
      | (.ok _, env) => rest.wellScoped opened env

/-! ## Runs -/

section Runs

variable {s : EnvironmentStep} {name : String} {e : Expr} {body rest : Block} {env env₁ : Environment}

theorem run_step_ok [Numerics] {answer : BlockReply} (h : s.run env = (.ok answer, env₁)) :
    (step s rest).run env = ((rest.run env₁).1.map (answer :: ·), (rest.run env₁).2) := by
  simp only [run, h]
  rcases rest.run env₁ with ⟨_ | _, _⟩ <;> rfl

theorem run_within_ok [Numerics] {answers : List BlockReply}
    (h : (env.withBinding name e fun env => body.run env) = (.ok answers, env₁)) :
    (within name e body rest).run env = ((rest.run env₁).1.map (.block answers :: ·), (rest.run env₁).2) := by
  simp only [run, h]
  rcases rest.run env₁ with ⟨_ | _, _⟩ <;> rfl

theorem map_eq_error {α β : Type} {g : α → β} {r : Except Failure α} {f : Failure} :
    r.map g = .error f ↔ r = .error f := by
  cases r with
  | error f' => simp [Except.map]
  | ok a => simp [Except.map]

end Runs

/-! ## Bare steps -/

/-- The steps lead from `env` to `env'`, each with the answer beside it. -/
def Replays [Numerics] (env : Environment) (es : List (EnvironmentStep × BlockReply)) (env' : Environment) : Prop :=
  (ofSteps (es.map Prod.fst)).run env = (.ok (es.map Prod.snd), env')

namespace Replays

variable [Numerics] {env env₁ env' : Environment} {es fs : List (EnvironmentStep × BlockReply)}

theorem nil (env : Environment) : Replays env [] env := rfl

theorem cons {s : EnvironmentStep} {answer : BlockReply} (hs : s.run env = (.ok answer, env₁))
    (h : Replays env₁ es env') : Replays env ((s, answer) :: es) env' := by
  simp only [Replays, List.map_cons, ofSteps, run_step_ok hs] at h ⊢
  rw [h]
  rfl

theorem append (h : Replays env es env₁) (h' : Replays env₁ fs env') : Replays env (es ++ fs) env' := by
  induction es generalizing env with
  | nil =>
    cases h
    exact h'
  | cons p es ih =>
    obtain ⟨s, answer⟩ := p
    simp only [Replays, List.map_cons, ofSteps, Block.run] at h
    split at h
    · cases h
    · rename_i a env₂ hs
      split at h
      · cases h
      · rename_i as env₃ hrest
        cases h
        exact cons hs (ih hrest)

end Replays

/-! ## Side by side -/

variable {opened : List String} {env env' env₁ : Environment}

theorem run_step [Numerics] {s : EnvironmentStep} {answer : BlockReply} (h : env.Without opened env')
    (hs : s.edited?.all (fun n => !opened.elem n) = true) (hrun : s.run env = (.ok answer, env₁)) :
    ∃ env₁', Replays env' (Event.completed s answer).edits env₁' ∧ env₁.Without opened env₁' := by
  cases s with
  | bind name e =>
    cases hrun
    have hn : name ∉ opened := by simpa [EnvironmentStep.edited?] using hs
    exact ⟨env'.bind name e, .cons rfl (.nil _), h.bind hn e⟩
  | unbind name =>
    have hn : name ∉ opened := by simpa [EnvironmentStep.edited?] using hs
    obtain ⟨hu, -⟩ | ⟨e, a, a', hu, hu', ha⟩ := h.unbind hn
    · simp only [EnvironmentStep.run, hu] at hrun
      cases hrun
    · simp only [EnvironmentStep.run, hu] at hrun
      cases hrun
      have hs' : (EnvironmentStep.unbind name).run env' = (.ok (.tree e), a') := by
        simp only [EnvironmentStep.run, hu', Except.map]
      exact ⟨a', .cons hs' (.nil _), ha⟩
  | isBound name =>
    cases hrun
    exact ⟨env', .nil _, h⟩
  | evaluate e =>
    obtain rfl : env = env₁ := congrArg Prod.snd hrun
    exact ⟨env', .nil _, h⟩
  | bindings =>
    cases hrun
    exact ⟨env', .nil _, h⟩
  | fail f => cases hrun

/-- By induction on the block, with the invariant that the bindings on the left, without those of the open blocks,
are the bindings on the right. -/
theorem run_without [Numerics] (b : Block) :
    ∀ {opened : List String} {env env' : Environment}, env.Without opened env' →
      b.wellScoped opened env = true →
      ∃ after', Replays env' (b.edits env) after' ∧ (b.run env).2.Without opened after' ∧
        ∀ f, (b.run env).1 = .error f ↔ b.firstRaised env = some f := by
  induction b with
  | done =>
    intro opened env env' h _
    refine ⟨env', .nil _, h, fun f => ?_⟩
    simp [run, firstRaised, events]
  | step s rest ih =>
    intro opened env env' h hb
    simp only [wellScoped, Bool.and_eq_true] at hb
    obtain ⟨hs, hrest⟩ := hb
    rcases hrun : s.run env with ⟨f | answer, env₁⟩
    · obtain rfl := EnvironmentStep.run_failed hrun
      simp only [edits, firstRaised, events, run, hrun]
      refine ⟨env', .nil _, h, fun f' => ?_⟩
      simp [Event.failure?]
    · simp only [hrun] at hrest
      obtain ⟨env₁', hreplay, h₁⟩ := run_step h hs hrun
      obtain ⟨after', hreplays, hafter, hfirst⟩ := ih h₁ hrest
      refine ⟨after', ?_, ?_, fun f => ?_⟩
      · simp only [edits, events, hrun, List.flatMap_cons]
        exact hreplay.append hreplays
      · rw [run_step_ok hrun]
        exact hafter
      · rw [run_step_ok hrun, map_eq_error, hfirst]
        simp only [firstRaised, events, hrun, List.findSome?_cons, Event.failure?]
  | within name e body rest ihbody ihrest =>
    intro opened env env' h hb
    simp only [wellScoped, Bool.and_eq_true, Bool.not_eq_true'] at hb
    obtain ⟨⟨hfree, hbody⟩, hrest⟩ := hb
    obtain ⟨mid', hreplay, hmid, hfirst⟩ := ihbody (h.hide hfree e) hbody
    rcases hrun : body.run (env.bind name e) with ⟨result, mid⟩
    simp only [hrun] at hmid hfirst
    obtain ⟨shown, env₁, hunbind, h₁⟩ := hmid.reveal (h.not_mem_of_free hfree)
    have hblock : (env.withBinding name e fun env => body.run env) = (result, env₁) := by
      simp only [Environment.withBinding, hrun, hunbind]
    rcases result with f | answers
    · have hevents : (within name e body rest).events env = body.events (env.bind name e) := by
        simp only [events, hrun, hunbind, List.append_nil]
      simp only [edits, firstRaised, hevents, run, hblock]
      exact ⟨mid', hreplay, h₁, hfirst⟩
    · simp only [hblock] at hrest
      obtain ⟨after', hreplays, hafter, hlast⟩ := ihrest h₁ hrest
      have hevents : (within name e body rest).events env =
          body.events (env.bind name e) ++ rest.events env₁ := by
        simp only [events, hrun, hunbind]
      -- the body has come to its end, so nothing was raised in it
      have hquiet : (body.events (env.bind name e)).findSome? Event.failure? = none := by
        refine Option.eq_none_iff_forall_ne_some.mpr fun f hf => ?_
        cases (hfirst f).mpr hf
      refine ⟨after', ?_, ?_, fun f => ?_⟩
      · simp only [edits, hevents, List.flatMap_append]
        exact hreplay.append hreplays
      · rw [run_within_ok hblock]
        exact hafter
      · rw [run_within_ok hblock, map_eq_error, hlast]
        simp only [firstRaised, hevents, List.findSome?_append, hquiet, Option.none_or]

/-- A run whose blocks open on free names, and leave the names of open blocks alone, ends with the bindings that
its permanent edits alone give, entry by entry, wherever it stops. The failure that comes out of it is the one that
was raised first. -/
theorem run_transparent [Numerics] (b : Block) (h : env.bindings.WellFormed) (hb : b.wellScoped [] env = true) :
    ∃ env', (ofSteps ((b.edits env).map Prod.fst)).run env = (.ok ((b.edits env).map Prod.snd), env') ∧
      (b.run env).2.Alike env' ∧ ∀ f, (b.run env).1 = .error f ↔ b.firstRaised env = some f := by
  obtain ⟨env', hreplays, hafter, hfirst⟩ := run_without b (.refl h) hb
  exact ⟨env', hreplays, hafter.alike, hfirst⟩

/-- Under two temporary names one entry is removed from before them, one comes to stand behind them and one is
updated. The failure in the inner block leaves the rest of both blocks out. -/
def abandoned : Block :=
  .step (.bind "r" (.num 3)) <|
  .within "t" (.num 0)
    (.step (.unbind "p") <|
      .step (.bind "v" (.num 5)) <|
      .within "u" (.var "t")
        (.step (.bind "q" (.num 7)) <| .step (.unbind "r") <| .step (.evaluate (.var "w")) <|
          .step (.unbind "v") .done)
        (.step (.bind "z" (.num 8)) .done)) <|
  .step (.unbind "q") .done

open scoped Elementary in
theorem run_transparent_abandoned :
    ∃ env, env.bindings.keys = ["p", "q"] ∧ env.bindings.WellFormed ∧ abandoned.wellScoped [] env = true ∧
      (abandoned.run env).1 = .error (.undefinedVariable "w") ∧
      ∃ env', (ofSteps ((abandoned.edits env).map Prod.fst)).run env =
          (.ok ((abandoned.edits env).map Prod.snd), env') ∧
        (abandoned.run env).2.Alike env' ∧ env'.bindings.keys = ["q", "v"] := by
  let env : Environment := { bindings := Dictionary.ofList 1 [("p", .num 1), ("q", .num 2)] }
  have hwf : env.bindings.WellFormed := Dictionary.wellFormed_ofList Nat.one_pos _
  have hscoped : abandoned.wellScoped [] env = true := by decide +kernel
  obtain ⟨env', hreplays, halike, hfirst⟩ := run_transparent abandoned hwf hscoped
  have hraised : abandoned.firstRaised env = some (.undefinedVariable "w") := by decide +kernel
  have hkeys : (abandoned.run env).2.bindings.keys = ["q", "v"] := by decide +kernel
  refine ⟨env, rfl, hwf, hscoped, (hfirst _).mpr hraised, env', hreplays, halike, ?_⟩
  rw [← hkeys, Dictionary.keys, Dictionary.keys, halike.bindings.entries]

end Block
end ArithTree
