import ArithTree.Environment
import ArithTree.Proofs.Store.Alike

/-!
# ArithTree.Proofs.Environment.Temporary

Bindings that last for a while. Work under such a binding leaves the bindings as they were
(`withBinding_alike`), provided that the name was free and that the work itself does so. Alike
bindings give every tree the same value (`evaluate_alike`), failures included.
-/

namespace ArithTree

theorem resolve_alike [Numerics] {b b' : Bindings} (h : b.Alike b') (left : Nat) :
    ∀ (path : List String) (name : String), resolve b left path name = resolve b' left path name := by
  induction left with
  | zero =>
    intro path name
    simp only [resolve, h.get?_eq]
  | succ left ih =>
    intro path name
    have hread : resolve b left (path ++ [name]) = resolve b' left (path ++ [name]) :=
      funext (ih _)
    simp only [resolve, h.get?_eq, hread]

theorem evaluate_alike [Numerics] {b b' : Bindings} (h : b.Alike b') (e : Expr) :
    evaluate b e = evaluate b' e := by
  have hread : resolve b b.size [] = resolve b' b'.size [] := by
    rw [h.size_eq]
    exact funext (resolve_alike h _ _)
  simp only [evaluate, hread]

namespace Environment

/-- Alike bindings, and the same plots. -/
structure Alike (env env' : Environment) : Prop where
  bindings : env.bindings.Alike env'.bindings
  sink : env.sink = env'.sink

variable {env env' : Environment} {name : String}

theorem Alike.trans {env₁ env₂ env₃ : Environment} (h : env₁.Alike env₂) (h' : env₂.Alike env₃) :
    env₁.Alike env₃ :=
  ⟨h.bindings.trans h'.bindings, h.sink.trans h'.sink⟩

theorem isBound_eq_false : env.isBound name = false ↔ env.bindings.get? name = none := by
  rw [isBound, Dictionary.contains_eq, Option.isSome_eq_false_iff, Option.isNone_iff_eq_none]

theorem isBound_eq_true : env.isBound name = true ↔ ∃ e, env.bindings.get? name = some e := by
  rw [isBound, Dictionary.contains_eq, Option.isSome_iff_exists]

theorem unbind_bound (h : env.bindings.WellFormed) {e : Expr} (hn : env.isBound name = false)
    (hw : env'.Alike (env.bind name e)) :
    ∃ env'', env'.unbind name = (.ok e, env'') ∧ env''.Alike env := by
  obtain ⟨a, ha, halike⟩ :=
    Dictionary.Alike.remove_inserted h (isBound_eq_false.mp hn) hw.bindings
  refine ⟨{ env' with bindings := a }, ?_, halike, hw.sink⟩
  simp only [unbind, ha]

theorem withBinding_alike {β : Type} (h : env.bindings.WellFormed)
    (hn : env.isBound name = false) (e : Expr)
    {work : Environment → Except Failure β × Environment}
    (hw : (work (env.bind name e)).2.Alike (env.bind name e)) :
    (env.withBinding name e work).1 = (work (env.bind name e)).1 ∧
      (env.withBinding name e work).2.Alike env := by
  obtain ⟨env', hunbind, halike⟩ := unbind_bound h hn hw
  unfold withBinding
  simp only [hunbind]
  exact ⟨trivial, halike⟩

end Environment
end ArithTree
