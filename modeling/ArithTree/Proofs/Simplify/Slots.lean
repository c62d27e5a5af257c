import ArithTree.Elementary.Rounded
import ArithTree.Proofs.Expr.Positions
import ArithTree.Proofs.Simplify.Pass

/-!
# ArithTree.Proofs.Simplify.Slots

What simplification does to the plots in a tree. It goes through the slot of a plot as through any other
operand, so a slot keeps its variable only if nothing else is put in for it: the name must not be bound, unless
to itself. Under bindings of its swept name a valid plot turns into one without a variable in its slot, or into
one that sweeps another variable.

* `subtree?_simplifyWith`: the nodes that come from the tree are its own nodes, simplified.
* `plot_stays`: no plot is lost by folding.
* `simplify_slots`: which plots of a tree are still valid and sweep the same variable.
* `simplify_slot_replaced`: a valid plot that is not.
-/

namespace ArithTree

namespace Expr

def isPlot : Expr → Bool
  | .plot .. => true
  | _ => false

/-- The variable that a plot sweeps. -/
def swept? : Expr → Option String
  | .plot _ s _ _ _ => s.asVariable?
  | _ => none

/-- Every plot in the tree has a variable in its slot. -/
def PlotsValid (e : Expr) : Prop := ∀ p q, e.subtree? p = some q → q.isPlot = true → q.checkPlot = .ok ()

variable {e q : Expr} {p : List Nat}

theorem subtree?_num {x : Float} (h : (num x).subtree? p = some q) : q = .num x := by
  cases p with
  | nil => exact (Option.some.inj h).symm
  | cons i p =>
    obtain ⟨a, ha, -⟩ := subtree?_cons.mp h
    cases ha

theorem exists_of_isPlot (h : q.isPlot = true) : ∃ e s l h t, q = .plot e s l h t := by
  cases q with
  | plot e s l b t => exact ⟨e, s, l, b, t, rfl⟩
  | _ => cases h

theorem swept?_of_checkPlot (hq : q.isPlot = true) (h : q.checkPlot = .ok ()) : ∃ n, q.swept? = some n := by
  obtain ⟨e, s, l, h', t, rfl⟩ := exists_of_isPlot hq
  cases hs : s.asVariable? with
  | none =>
    simp only [checkPlot, hs] at h
    cases h
  | some n => exact ⟨n, hs⟩

theorem isPlot_of_swept? {n : String} (h : q.swept? = some n) : q.isPlot = true := by
  cases q with
  | plot e s l b t => rfl
  | _ => cases h

theorem checkPlot_of_swept? {n : String} (h : q.swept? = some n) : q.checkPlot = .ok () := by
  cases q with
  | plot e s l h' t =>
    have hs : s.asVariable? = some n := h
    simp only [checkPlot, hs]
  | _ => cases h

theorem plotsValid_iff :
    e.PlotsValid ↔ (e.isPlot = true → e.checkPlot = .ok ()) ∧ ∀ a ∈ e.operands, a.PlotsValid := by
  constructor
  · intro h
    refine ⟨h [] e rfl, fun a ha p q hq => ?_⟩
    obtain ⟨i, hi⟩ := List.mem_iff_getElem?.mp ha
    exact h (i :: p) q (subtree?_cons.mpr ⟨a, hi, hq⟩)
  · rintro ⟨hhere, hoperands⟩ p q hq
    cases p with
    | nil =>
      cases hq
      exact hhere
    | cons i p =>
      obtain ⟨a, ha, hq⟩ := subtree?_cons.mp hq
      exact hoperands a (List.mem_of_getElem? ha) p q hq

@[simp] theorem plotsValid_num {x : Float} : (num x).PlotsValid := by
  rw [plotsValid_iff]
  simp [operands, isPlot]

@[simp] theorem plotsValid_var {n : String} : (var n).PlotsValid := by
  rw [plotsValid_iff]
  simp [operands, isPlot]

@[simp] theorem plotsValid_unary {op : UnaryOp} : (unary op e).PlotsValid ↔ e.PlotsValid := by
  rw [plotsValid_iff]
  simp [operands, isPlot]

@[simp] theorem plotsValid_binary {op : BinaryOp} : (binary op e q).PlotsValid ↔ e.PlotsValid ∧ q.PlotsValid := by
  rw [plotsValid_iff]
  simp [operands, isPlot]

@[simp] theorem plotsValid_plot {s l h t : Expr} :
    (plot e s l h t).PlotsValid ↔
      s.asVariable?.isSome ∧ e.PlotsValid ∧ l.PlotsValid ∧ h.PlotsValid ∧ t.PlotsValid := by
  have hslot : (plot e s l h t).checkPlot = .ok () ↔ s.asVariable?.isSome = true := by
    rw [checkPlot]
    cases s.asVariable? with
    | none => simp
    | some n => simp
  rw [plotsValid_iff, hslot]
  constructor
  · intro hvalid
    obtain ⟨hs, hall⟩ := hvalid
    simp only [operands, List.forall_mem_cons] at hall
    exact ⟨hs rfl, hall.1, hall.2.2.1, hall.2.2.2.1, hall.2.2.2.2.1⟩
  · intro hvalid
    obtain ⟨hs, he, hl, hh, ht⟩ := hvalid
    obtain ⟨n, hn⟩ := Option.isSome_iff_exists.mp hs
    obtain rfl := asVariable?_eq_some.mp hn
    simp [operands, he, hl, hh, ht, hs]

end Expr

/-! ## Positions -/

section Positions

variable {sub : String → Option Expr} {e q r : Expr} {p : List Nat}

/-- An operation keeps its operands, each simplified, unless it is folded, and then these are all numbers. -/
theorem operands_simplifyWith [Numerics] (sub : String → Option Expr) (he : e.isVariable = false) :
    (simplifyWith sub e).operands = e.operands.map (simplifyWith sub) ∨
      (∃ x, simplifyWith sub e = .num x) ∧ ∀ a ∈ e.operands, ∃ x, simplifyWith sub a = .num x := by
  cases e with
  | var n => cases he
  | binary op a b =>
    rw [simplifyWith]
    rcases fold_cases op (simplifyWith sub a) (simplifyWith sub b) with ⟨x, y, -, ha, hb, h⟩ | ⟨-, h⟩
    · refine .inr ⟨⟨_, h⟩, fun c hc => ?_⟩
      simp only [Expr.operands, List.mem_cons, List.not_mem_nil, or_false] at hc
      rcases hc with rfl | rfl
      · exact ⟨x, ha⟩
      · exact ⟨y, hb⟩
    · rw [h]
      exact .inl rfl
  | num x => exact .inl rfl
  | unary op a => exact .inl rfl
  | request r a => exact .inl rfl
  | plot e s l h t => exact .inl rfl
  | foreign v => exact .inl rfl

theorem isVariable_of_operands {i : Nat} {a : Expr} (h : e.operands[i]? = some a) : e.isVariable = false := by
  cases e with
  | var n => cases h
  | _ => rfl

/-- Where both trees have a position, the later node is the earlier one, simplified. -/
theorem subtree?_simplifyWith [Numerics] (h : e.subtree? p = some q) (hr : (simplifyWith sub e).subtree? p = some r) :
    r = simplifyWith sub q := by
  induction p generalizing e with
  | nil =>
    cases h
    exact (Option.some.inj hr).symm
  | cons i p ih =>
    obtain ⟨a, ha, hq⟩ := Expr.subtree?_cons.mp h
    obtain ⟨c, hc, hr⟩ := Expr.subtree?_cons.mp hr
    rcases operands_simplifyWith sub (isVariable_of_operands ha) with hkept | ⟨⟨x, hx⟩, -⟩
    · rw [hkept, List.getElem?_map, ha] at hc
      cases hc
      exact ih hq hr
    · rw [hx] at hc
      cases hc

/-- What is folded is a number at the end, and so were its operands; no plot becomes a number. -/
theorem plot_stays [Numerics] (sub : String → Option Expr) (h : e.subtree? p = some q) (hq : q.isPlot = true) :
    (simplifyWith sub e).subtree? p = some (simplifyWith sub q) := by
  induction p generalizing e with
  | nil =>
    cases h
    rfl
  | cons i p ih =>
    obtain ⟨a, ha, hpq⟩ := Expr.subtree?_cons.mp h
    have hstays := ih hpq
    refine Expr.subtree?_cons.mpr ⟨simplifyWith sub a, ?_, hstays⟩
    rcases operands_simplifyWith sub (isVariable_of_operands ha) with hkept | ⟨-, hnumbers⟩
    · rw [hkept, List.getElem?_map, ha]
      rfl
    · obtain ⟨x, hx⟩ := hnumbers a (List.mem_of_getElem? ha)
      rw [hx] at hstays
      obtain ⟨e', s, l, b, t, rfl⟩ := Expr.exists_of_isPlot hq
      cases Expr.subtree?_num hstays

end Positions

/-! ## Slots -/

/-- At this position of the simplified tree stands a node of the tree itself, and nothing that was put in for a
bound variable. -/
def CameFrom (b : Bindings) (e : Expr) (p : List Nat) : Prop :=
  ∃ q, e.subtree? p = some q ∧ ∀ n, q = .var n → b.get? n = none

variable {b : Bindings} {e q r : Expr} {p : List Nat}

theorem isPlot_of_cameFrom [Numerics] (hfrom : CameFrom b e p) (hr : (simplifyWith b.get? e).subtree? p = some r)
    (hplot : r.isPlot = true) : ∃ q, e.subtree? p = some q ∧ q.isPlot = true := by
  obtain ⟨q, hq, hvar⟩ := hfrom
  obtain rfl := subtree?_simplifyWith hq hr
  refine ⟨q, hq, ?_⟩
  cases q with
  | plot e s l h t => rfl
  | var n =>
    simp only [simplifyWith, hvar n rfl] at hplot
    cases hplot
  | binary op a c =>
    rw [simplifyWith] at hplot
    rcases fold_cases op (simplifyWith b.get? a) (simplifyWith b.get? c) with ⟨x, y, -, -, -, h⟩ | ⟨-, h⟩
    · rw [h] at hplot
      cases hplot
    · rw [h] at hplot
      cases hplot
  | num x => cases hplot
  | unary op a => cases hplot
  | request op a => cases hplot
  | foreign v => cases hplot

/-- A slot keeps its variable if nothing is bound to it, or nothing but itself. -/
theorem swept?_simplifyWith [Numerics] {n : String} (hq : q.swept? = some n) :
    (simplifyWith b.get? q).swept? = some n ↔ ∀ t, b.get? n = some t → t = .var n := by
  obtain ⟨e, s, l, h, t, rfl⟩ := Expr.exists_of_isPlot (Expr.isPlot_of_swept? hq)
  obtain rfl : s = .var n := Expr.asVariable?_eq_some.mp hq
  have hslot : (simplifyWith b.get? (.plot e (.var n) l h t)).swept? =
      ((b.get? n).getD (.var n)).asVariable? := rfl
  rw [hslot, Expr.asVariable?_eq_some]
  cases b.get? n with
  | none => simp
  | some d => simp

/-- What simplification makes of the plots in a tree whose plots are valid. They all stay where they were, and
no others come from the tree. One of them is valid as before and sweeps the variable that it swept exactly if
nothing is bound to this variable, or nothing but the variable itself. -/
theorem simplify_slots [Numerics] (copying : Bool) (b : Bindings) (he : e.WellFormed) (hplots : e.PlotsValid) :
    ∃ r, simplifyChecked copying b e = .ok r ∧
      (∀ p q, e.subtree? p = some q → q.isPlot = true →
        ∃ n q', q.swept? = some n ∧ r.subtree? p = some q' ∧ q'.isPlot = true ∧
          ((q'.checkPlot = .ok () ∧ q'.swept? = some n) ↔ ∀ t, b.get? n = some t → t = .var n)) ∧
      ∀ p q', CameFrom b e p → r.subtree? p = some q' → q'.isPlot = true →
        ∃ q, e.subtree? p = some q ∧ q.isPlot = true := by
  refine ⟨simplify copying b e, simplifyChecked_ok copying b he, ?_⟩
  rw [simplify_eq]
  refine ⟨fun p q hq hplot => ?_, fun p q' hfrom hq' hplot => isPlot_of_cameFrom hfrom hq' hplot⟩
  obtain ⟨n, hn⟩ := Expr.swept?_of_checkPlot hplot (hplots p q hq hplot)
  have hkept := swept?_simplifyWith (b := b) hn
  refine ⟨n, simplifyWith b.get? q, hn, plot_stays b.get? hq hplot, ?_, ?_⟩
  · obtain ⟨e', s, l, h, t, rfl⟩ := Expr.exists_of_isPlot hplot
    rfl
  · rw [← hkept]
    exact ⟨fun h => h.2, fun h => ⟨Expr.checkPlot_of_swept? h, h⟩⟩

def nestedSweeps : Expr :=
  .unary .negate
    (.plot (.plot (.binary .mul (.var "x") (.var "z")) (.var "z") (.num 0) (.var "w") (.num 1)) (.var "x") (.num 0)
      (.binary .add (.num 1) (.num 2)) (.num 1))

/-- The value of `z` goes into the inner slot; the outer plot keeps its variable, since `x` is free in the
bindings, though not in their values. -/
def fixedInside : Bindings := Dictionary.ofList 1 [("z", .num 5), ("w", .var "x")]

open scoped Elementary in
theorem simplify_slots_nested :
    nestedSweeps.WellFormed ∧ nestedSweeps.PlotsValid ∧
      ∃ r, simplifyChecked false fixedInside nestedSweeps = .ok r ∧
        (∀ p q, nestedSweeps.subtree? p = some q → q.isPlot = true →
          ∃ n q', q.swept? = some n ∧ r.subtree? p = some q' ∧ q'.isPlot = true ∧
            ((q'.checkPlot = .ok () ∧ q'.swept? = some n) ↔ ∀ t, fixedInside.get? n = some t → t = .var n)) ∧
        ∀ p q', CameFrom fixedInside nestedSweeps p → r.subtree? p = some q' → q'.isPlot = true →
          ∃ q, nestedSweeps.subtree? p = some q ∧ q.isPlot = true := by
  have hplots : nestedSweeps.PlotsValid := by
    simp [nestedSweeps, Expr.asVariable?]
  exact ⟨by decide, hplots, simplify_slots false fixedInside (by decide) hplots⟩

open scoped Elementary in
/-- A valid plot of `y` over `x`, simplified while `x` is bound to `5`, has the number in its slot. -/
theorem simplify_slot_replaced :
    let e : Expr := .plot (.var "y") (.var "x") (.num 0) (.num 1) (.num 1)
    let b : Bindings := Dictionary.ofList 1 [("x", .num 5)]
    e.WellFormed ∧ e.PlotsValid ∧ CameFrom b e [] ∧ e.swept? = some "x" ∧
      ∃ r, simplifyChecked false b e = .ok r ∧ r.subtree? [] = some r ∧ r.isPlot = true ∧
        r.checkPlot = .error (.slotInvalid "5") ∧ r.swept? = none := by
  intro e b
  have hplots : e.PlotsValid := by
    simp [e, Expr.asVariable?]
  have hroot : CameFrom b e [] := by
    refine ⟨e, rfl, ?_⟩
    intro n hn
    simp [e] at hn
  exact ⟨by decide, hplots, hroot, rfl, _, rfl, rfl, rfl, rfl, rfl⟩

end ArithTree
