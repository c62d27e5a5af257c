import ArithTree.Elementary.Rounded
import ArithTree.Proofs.Command.Decision
import ArithTree.Proofs.Simplify.NormalForm

/-!
# ArithTree.Proofs.Command.Simplified

Plots of simplified nodes. A plot reads its operands through their values only: the bounds and the step under
the bindings there are, the plotted expression under these and the swept name. Simplification keeps all these
values, also where it puts in trees that mention the swept name, because the sweep binds a name that had no
tree to put in.

* `Interchangeable`: operands that a plot cannot tell apart.
* `Interchangeable.refuses`: each check refuses both plots or neither.
* `Interchangeable.depicts_unique`: both plots show the same samples.
* `plot_simplified`: a plot node and what simplification makes of it.
-/

namespace ArithTree

/-- Failures of one kind with the same attributes, but for the chain of a cycle and the text of a slot. -/
inductive Failure.Kindred : Failure → Failure → Prop where
  | same (f : Failure) : Kindred f f
  | cyclicBinding (chain chain' : List String) : Kindred (.cyclicBinding chain) (.cyclicBinding chain')
  | slotInvalid (text text' : String) : Kindred (.slotInvalid text) (.slotInvalid text')

section Blurred

variable {r r' : Except Failure Float}

theorem ok_of_blur_eq {x : Float} (h : blur r = blur r') (hr : r = .ok x) : r' = .ok x := by
  subst hr
  refine (eq_of_blur_eq h.symm fun chain hchain => ?_)
  cases hchain

theorem error_of_blur_eq {f : Failure} (h : blur r = blur r') (hr : r = .error f) :
    ∃ g, r' = .error g ∧ f.Kindred g := by
  subst hr
  rcases blur_eq_self_or_cyclic r' with hself | ⟨chain, rfl⟩
  · rw [hself] at h
    rcases blur_eq_self_or_cyclic (.error f) with hself' | ⟨chain, hchain⟩
    · exact ⟨f, h.symm.trans hself', .same f⟩
    · cases hchain
      exact ⟨_, h.symm, .cyclicBinding chain []⟩
  · rcases blur_eq_self_or_cyclic (.error f) with hself' | ⟨chain', hchain⟩
    · rw [hself'] at h
      cases h
      exact ⟨_, rfl, .cyclicBinding [] chain⟩
    · cases hchain
      exact ⟨_, rfl, .cyclicBinding chain' chain⟩

end Blurred

namespace Decided

variable {ι β : Type} {refuses refuses' : ι → Failure → Prop} {checks : List ι}

/-- Where the same checks refuse, with kindred failures, the results are decided alike. -/
theorem kindred (h : ∀ c f, refuses c f → ∃ g, refuses' c g ∧ f.Kindred g)
    (h' : ∀ c g, refuses' c g → ∃ f, refuses c f) {r : Except Failure β} (hr : Decided refuses checks r) :
    (∃ x, r = .ok x ∧ ∀ y : β, Decided refuses' checks (.ok y)) ∨
      ∃ f g, r = .error f ∧ f.Kindred g ∧ Decided refuses' checks (.error g : Except Failure β) := by
  induction hr with
  | refused hc =>
    obtain ⟨g, hg, hfg⟩ := h _ _ hc
    exact .inr ⟨_, g, rfl, hfg, .refused hg⟩
  | @passed c rest r hc hr ih =>
    have hpass : ∀ g, ¬ refuses' c g := by
      intro g hg
      obtain ⟨f, hf⟩ := h' _ _ hg
      exact hc f hf
    rcases ih with ⟨x, rfl, hx⟩ | ⟨f, g, rfl, hfg, hg⟩
    · exact .inl ⟨x, rfl, fun y => .passed hpass (hx y)⟩
    · exact .inr ⟨f, g, rfl, hfg, .passed hpass hg⟩
  | accepted => exact .inl ⟨_, rfl, fun y => .accepted⟩

end Decided

namespace Sweep

/-- Two plots with these operands have the same swept name and, up to the chains of cycles, the same values. -/
structure Interchangeable [Numerics] (b : Bindings) (e s l h t e' s' l' h' t' : Expr) : Prop where
  slot : s.asVariable? = s'.asVariable?
  low : blur (evaluate b l) = blur (evaluate b l')
  high : blur (evaluate b h) = blur (evaluate b h')
  step : blur (evaluate b t) = blur (evaluate b t')
  expression : ∀ n x, s = .var n →
    blur (evaluate (b.insert n (.num x)) e) = blur (evaluate (b.insert n (.num x)) e')

namespace Interchangeable

variable [Numerics] {b : Bindings} {e s l h t e' s' l' h' t' : Expr} {mode : Mode} {limit : Nat}

theorem slot_eq (same : Interchangeable b e s l h t e' s' l' h' t') {n : String} (hs : s = .var n) :
    s' = .var n := by
  subst hs
  exact Expr.asVariable?_eq_some.mp same.slot.symm

theorem symm (same : Interchangeable b e s l h t e' s' l' h' t') :
    Interchangeable b e' s' l' h' t' e s l h t where
  slot := same.slot.symm
  low := same.low.symm
  high := same.high.symm
  step := same.step.symm
  expression n x hs := by
    have hs' : s = .var n := by
      subst hs
      exact Expr.asVariable?_eq_some.mp same.slot
    exact (same.expression n x hs').symm

theorem operands (same : Interchangeable b e s l h t e' s' l' h' t') {low high step : Float}
    (v : Operands b l h t low high step) : Operands b l' h' t' low high step where
  low := ok_of_blur_eq same.low v.low
  high := ok_of_blur_eq same.high v.high
  step := ok_of_blur_eq same.step v.step

/-- By cases on the check. What the checks compare is the same on both sides. -/
theorem refuses (same : Interchangeable b e s l h t e' s' l' h' t') {c : Check} {f : Failure}
    (hf : Refuses mode limit b e s l h t c f) :
    ∃ g, Refuses mode limit b e' s' l' h' t' c g ∧ f.Kindred g := by
  cases hf with
  | slot hs =>
    refine ⟨_, .slot fun n hs' => ?_, .slotInvalid _ _⟩
    exact hs n (same.symm.slot_eq hs')
  | low hl =>
    obtain ⟨g, hg, hfg⟩ := error_of_blur_eq same.low hl
    exact ⟨g, .low hg, hfg⟩
  | high hh =>
    obtain ⟨g, hg, hfg⟩ := error_of_blur_eq same.high hh
    exact ⟨g, .high hg, hfg⟩
  | step ht =>
    obtain ⟨g, hg, hfg⟩ := error_of_blur_eq same.step ht
    exact ⟨g, .step hg, hfg⟩
  | range hl hh hlt => exact ⟨_, .range (ok_of_blur_eq same.low hl) (ok_of_blur_eq same.high hh) hlt, .same _⟩
  | name hs hd => exact ⟨_, .name (same.slot_eq hs) hd, .same _⟩
  | positive ht hle => exact ⟨_, .positive (ok_of_blur_eq same.step ht) hle, .same _⟩
  | finite v hx => exact ⟨_, .finite (same.operands v) hx, .same _⟩
  | ratio v hx => exact ⟨_, .ratio (same.operands v) hx, .same _⟩
  | samples v hcount hmany => exact ⟨_, .samples (same.operands v) hcount hmany, .same _⟩
  | first hs v hcount hx =>
    obtain ⟨g, hg, hfg⟩ := error_of_blur_eq (same.expression _ _ hs) hx
    exact ⟨g, .first (same.slot_eq hs) (same.operands v) hcount hg, hfg⟩
  | stalled hmode v hruns => exact ⟨_, .stalled hmode (same.operands v) hruns, .same _⟩
  | exceeded hmode v hruns => exact ⟨_, .exceeded hmode (same.operands v) hruns, .same _⟩

/-- The points follow from the bounds and the step, and the values from the expression at these points. -/
theorem depicts_unique (same : Interchangeable b e s l h t e' s' l' h' t') {config : Config} {p p' : Plot}
    (hp : Depicts config b e s l h t p) (hp' : Depicts config b e' s' l' h' t' p') : p = p' := by
  obtain ⟨n, low, high, step, hs, -, hlow, hhigh, hstep, hpoints, hvalues⟩ := hp.samples
  obtain ⟨n', low', high', step', hs', -, hlow', hhigh', hstep', hpoints', hvalues'⟩ := hp'.samples
  have hn : n' = n := Expr.var.inj (hs'.symm.trans (same.slot_eq hs))
  have v : Operands b l' h' t' low high step := same.operands ⟨hlow, hhigh, hstep⟩
  obtain ⟨rfl, rfl, rfl⟩ := v.unique ⟨hlow', hhigh', hstep'⟩
  subst hn
  have hxs : p'.xs = p.xs := by
    rw [hpoints] at hpoints'
    exact (List.toArray_inj (congrArg Prod.fst hpoints')).symm
  have hlength : p'.ys.length = p.ys.length := by
    rw [hp'.sameLength, hp.sameLength, hxs]
  have hys : p'.ys = p.ys := by
    refine List.ext_getElem hlength fun k hk' hk => ?_
    have hkx : k < p.xs.length := by
      rw [← hp.sameLength]
      exact hk
    have hx : p.xs[k]? = some p.xs[k] := List.getElem?_eq_getElem hkx
    have hy := hvalues k _ _ hx (List.getElem?_eq_getElem hk)
    have hx' : p'.xs[k]? = some p.xs[k] := by
      rw [hxs]
      exact hx
    have hy' := hvalues' k _ _ hx' (List.getElem?_eq_getElem hk')
    have hsame := ok_of_blur_eq (same.expression _ _ hs) hy
    exact Except.ok.inj (hy'.symm.trans hsame)
  cases p
  cases p'
  simp only [Plot.mk.injEq]
  exact ⟨hp.title.trans hp'.title.symm, hp.xLabel.trans hp'.xLabel.symm, hp.yLabel.trans hp'.yLabel.symm,
    hxs.symm, hys.symm⟩

end Interchangeable

end Sweep

/-! ## The command -/

namespace Command

open Sweep

/-- Two plots in one environment have gone alike: both have rendered the same plot, or both have failed and
rendered nothing, with failures of one kind. -/
inductive WentAlike (env : Environment) (o o' : Outcome) : Prop where
  | rendered {r r' : Expr} (p : Plot) : o.result = .ok r → o'.result = .ok r' →
      o.env.sink = env.sink ++ [p] → o'.env.sink = env.sink ++ [p] → WentAlike env o o'
  | failed {f g : Failure} : o.result = .error f → o'.result = .error g → f.Kindred g →
      o.env.sink = env.sink → o'.env.sink = env.sink → WentAlike env o o'

variable {env : Environment} {e s l h t e' s' l' h' t' : Expr}

theorem wentAlike_of_interchangeable [Numerics] (hwf : env.bindings.WellFormed)
    (same : Interchangeable env.bindings e s l h t e' s' l' h' t') (config : Config) (logger : LoggerId)
    (log log' : Log) :
    WentAlike env (plot config logger env log (.plot e s l h t))
      (plot config logger env log' (.plot e' s' l' h' t')) := by
  have hdecided := plot_decided hwf config logger log e s l h t
  have hdecided' := plot_decided hwf config logger log' e' s' l' h' t'
  have hunique (c : Check) (f g : Failure)
      (hf : Refuses config.mode config.maxSamples env.bindings e' s' l' h' t' c f)
      (hg : Refuses config.mode config.maxSamples env.bindings e' s' l' h' t' c g) : g = f := hf.unique hg
  have hkindred := hdecided.kindred (fun c f hf => same.refuses hf) fun c g hg =>
    (same.symm.refuses hg).imp fun f hf => hf.1
  obtain ⟨p, hok, hsink, -, hp⟩ | ⟨f, hf, halike⟩ := plot_cases hwf config logger log e s l h t
  · obtain ⟨p', hok', hsink', -, hp'⟩ | ⟨g, hg, -⟩ := plot_cases hwf config logger log' e' s' l' h' t'
    · rw [← same.depicts_unique hp hp'] at hsink'
      exact .rendered p hok hok' hsink hsink'
    · rcases hkindred with ⟨x, -, hx⟩ | ⟨f, g', hf, -⟩
      · rw [hg] at hdecided'
        cases hdecided'.error_unique hunique (hx e') rfl
      · rw [hok] at hf
        cases hf
  · rcases hkindred with ⟨x, hx, -⟩ | ⟨f', g, hf', hfg, hg⟩
    · rw [hf] at hx
      cases hx
    · rw [hf] at hf'
      cases hf'
      have hresult := hg.error_unique hunique hdecided' rfl
      obtain ⟨p', hok', -⟩ | ⟨g', hg', halike'⟩ := plot_cases hwf config logger log' e' s' l' h' t'
      · rw [hok'] at hresult
        cases hresult
      · rw [hresult] at hg'
        cases hg'
        exact .failed hf hresult hfg halike.sink halike'.sink

/-- A slot without a variable keeps being one, and a swept name that is not bound is not replaced. -/
theorem asVariable?_simplify [Numerics] (copying : Bool) {b : Bindings} (hs : ∀ n, s = .var n → b.get? n = none) :
    (ArithTree.simplify copying b s).asVariable? = s.asVariable? := by
  rw [simplify_eq]
  cases s with
  | var n => simp [simplifyWith, hs n rfl]
  | binary op a c =>
    rw [simplifyWith]
    have hfold : ∀ a' c', (fold op a' c').asVariable? = none := by
      intro a' c'
      refine fold_elim (P := fun e => e.asVariable? = none) (fun x => ?_) fun hopen => ?_
      · rfl
      · rfl
    exact hfold _ _
  | num x => rfl
  | unary op a => rfl
  | request r a => rfl
  | plot e s l h t => rfl
  | foreign v => rfl

theorem interchangeable_simplify [Numerics] (copying : Bool) {b : Bindings} (hwf : b.WellFormed) (e l h t : Expr)
    (hs : ∀ n, s = .var n → b.get? n = none) :
    Interchangeable b e s l h t (ArithTree.simplify copying b e) (ArithTree.simplify copying b s)
      (ArithTree.simplify copying b l) (ArithTree.simplify copying b h) (ArithTree.simplify copying b t) where
  slot := (asVariable?_simplify copying hs).symm
  low := (blur_evaluate_simplify copying (extends_refl b) l).symm
  high := (blur_evaluate_simplify copying (extends_refl b) h).symm
  step := (blur_evaluate_simplify copying (extends_refl b) t).symm
  expression n x hn := by
    have hextends : Extends (b.insert n (.num x)) b := extends_insert hwf (.num x) (hs n hn)
    exact (blur_evaluate_simplify copying hextends e).symm

theorem plot_simplified [Numerics] (hwf : env.bindings.WellFormed) (copying : Bool) (config : Config)
    (logger : LoggerId) (log log' : Log) (hnode : (Expr.plot e s l h t).WellFormed)
    (hs : ∀ n, s = .var n → env.bindings.get? n = none) :
    ∃ node, simplifyChecked copying env.bindings (.plot e s l h t) = .ok node ∧
      WentAlike env (plot config logger env log (.plot e s l h t)) (plot config logger env log' node) := by
  refine ⟨_, simplifyChecked_ok copying env.bindings hnode, ?_⟩
  have same := interchangeable_simplify copying hwf e l h t hs
  exact wentAlike_of_interchangeable hwf same config logger log log'

open scoped Elementary in
/-- The bound tree of the plotted expression mentions the swept name, and takes its place. -/
theorem plot_simplified_sloped :
    sloped.WellFormed ∧
      (Expr.plot (.var "g") (.var "x") (.num 0) (.var "a") (.binary .div (.var "a") (.num 2))).WellFormed ∧
      (∀ n, Expr.var "x" = .var n → sloped.get? n = none) ∧
      ∃ node, simplifyChecked true sloped
          (.plot (.var "g") (.var "x") (.num 0) (.var "a") (.binary .div (.var "a") (.num 2))) = .ok node ∧
        WentAlike ⟨sloped, []⟩
          (plot {} 0 ⟨sloped, []⟩ {}
            (.plot (.var "g") (.var "x") (.num 0) (.var "a") (.binary .div (.var "a") (.num 2))))
          (plot {} 0 ⟨sloped, []⟩ {} node) := by
  have hwf : (⟨sloped, []⟩ : Environment).bindings.WellFormed := Dictionary.wellFormed_ofList Nat.one_pos _
  have hs : ∀ n, Expr.var "x" = .var n → sloped.get? n = none := by
    intro n hn
    cases hn
    decide
  have hnode : (Expr.plot (.var "g") (.var "x") (.num 0) (.var "a")
      (.binary .div (.var "a") (.num 2))).WellFormed := by decide
  exact ⟨hwf, hnode, hs, plot_simplified hwf true {} 0 {} {} hnode hs⟩

end Command
end ArithTree
