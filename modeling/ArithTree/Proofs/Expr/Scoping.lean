import ArithTree.Proofs.Expr.FreeVariables

/-!
# ArithTree.Proofs.Expr.Scoping

Which names a tree reads from its surroundings. A plot hides what lies in its slot, and in its plotted
expression it hides the name in the slot; its bounds and its step are read from outside. An occurrence is free
if no plot around it hides it. The free variables of a tree are those that the *outermost* plot around them
does not hide: the plotted expression of a plot is searched for all its names, also for those that a plot
inside it hides.

* `located`: the occurrences of a tree, each with the regions of plots that it lies in.
* `freeVariables_eq`: the free variables are the occurrences that the outermost plot leaves exposed.
* `freeVariables_outermost`: without a plot in a plotted expression these are the free occurrences.
* `freeVariables_nested`: with one, a name can be listed that has no free occurrence.
-/

namespace ArithTree
namespace Expr

/-- A part of a plot where names can be hidden. -/
inductive Region where
  /-- The plotted expression of a plot with this slot. -/
  | plotted (slot : Expr)
  | slot

/-- Is an occurrence of the name hidden in such a part? -/
def Region.Hides (n : String) : Region → Prop
  | .plotted s => s = .var n
  | .slot => True

instance (n : String) : (r : Region) → Decidable (r.Hides n)
  | .plotted s => inferInstanceAs (Decidable (s = .var n))
  | .slot => .isTrue trivial

/-- An occurrence of a variable, with the regions around it, outermost first. -/
structure Occurrence where
  name : String
  within : List Region

namespace Occurrence

/-- The same occurrence in a larger tree, where it lies in one more region. -/
def inside (r : Region) (o : Occurrence) : Occurrence := { o with within := r :: o.within }

/-- No region around the occurrence hides it. -/
def Free (o : Occurrence) : Prop := ∀ r ∈ o.within, ¬ r.Hides o.name

/-- The outermost region around the occurrence does not hide it. -/
def Exposed (o : Occurrence) : Prop := ∀ r ∈ o.within.head?, ¬ r.Hides o.name

instance (o : Occurrence) : Decidable o.Free :=
  inferInstanceAs (Decidable (∀ r ∈ o.within, ¬ r.Hides o.name))

instance (o : Occurrence) : Decidable o.Exposed :=
  inferInstanceAs (Decidable (∀ r ∈ o.within.head?, ¬ r.Hides o.name))

theorem free_inside {r : Region} {o : Occurrence} :
    (o.inside r).Free ↔ ¬ r.Hides o.name ∧ o.Free := by
  simp [Free, inside]

theorem exposed_inside {r : Region} {o : Occurrence} :
    (o.inside r).Exposed ↔ ¬ r.Hides o.name := by
  simp [Exposed, inside]

theorem free_of_within {o : Occurrence} (h : o.within = []) : o.Free := by
  simp [Free, h]

end Occurrence

/-- The occurrences of variables, operands left to right. -/
def located : Expr → List Occurrence
  | .num _ | .foreign _ => []
  | .var n => [⟨n, []⟩]
  | .unary _ a => a.located
  | .binary _ a b => a.located ++ b.located
  | .request _ a => a.located
  | .plot e s l h t =>
    e.located.map (Occurrence.inside (.plotted s)) ++
      (s.located.map (Occurrence.inside .slot) ++ (l.located ++ (h.located ++ t.located)))

/-- The names of the occurrences that are free. -/
def freeNames (e : Expr) : List String := (e.located.filter fun o => o.Free).map Occurrence.name

/-- The names of the occurrences that the outermost region around them leaves exposed. -/
def exposedNames (e : Expr) : List String := (e.located.filter fun o => o.Exposed).map Occurrence.name

/-- No plot stands in the plotted expression of a plot. -/
def Unnested : Expr → Prop
  | .num _ | .var _ | .foreign _ => True
  | .unary _ a => a.Unnested
  | .binary _ a b => a.Unnested ∧ b.Unnested
  | .request _ a => a.Unnested
  | .plot e _ l h t => Operator.plot.symbol ∉ e.commands ∧ l.Unnested ∧ h.Unnested ∧ t.Unnested

variable {e s : Expr} {n : String}

theorem map_name_inside (r : Region) (os : List Occurrence) :
    (os.map (Occurrence.inside r)).map Occurrence.name = os.map Occurrence.name := by
  rw [List.map_map]
  rfl

theorem map_name_located (e : Expr) : e.located.map Occurrence.name = e.occurrences := by
  induction e with
  | num x => rfl
  | var n => rfl
  | foreign v => rfl
  | unary op a ih => exact ih
  | binary op a b iha ihb => simp only [located, occurrences, List.map_append, iha, ihb]
  | request r a ih => exact ih
  | plot e s l h t ihe ihs ihl ihh iht =>
    simp only [located, occurrences, List.map_append, map_name_inside, ihe, ihs, ihl, ihh, iht]

/-! ## What the outermost plot hides -/

/-- Of the plotted expression all names are exposed but the one in the slot. -/
theorem exposed_plotted (e s : Expr) :
    ((e.located.map (Occurrence.inside (.plotted s))).filter fun o => o.Exposed).map Occurrence.name =
      e.occurrences.filter fun n => s.asVariable? != some n := by
  have hslot : ∀ n, (s.asVariable? != some n) = decide (¬ (Region.plotted s).Hides n) := by
    intro n
    rw [Bool.eq_iff_iff, bne_iff_ne, decide_eq_true_iff]
    cases s <;> simp [asVariable?, Region.Hides]
  simp only [← map_name_located, List.filter_map, List.map_map, hslot]
  congr 1
  refine List.filter_congr fun o _ => ?_
  exact decide_eq_decide.mpr Occurrence.exposed_inside

theorem exposed_slot (s : Expr) :
    ((s.located.map (Occurrence.inside .slot)).filter fun o => o.Exposed) = [] := by
  rw [List.filter_eq_nil_iff]
  intro o ho
  obtain ⟨o', -, rfl⟩ := List.mem_map.mp ho
  simp [Occurrence.exposed_inside, Region.Hides]

theorem exposedNames_plot (e s l h t : Expr) :
    (plot e s l h t).exposedNames =
      (e.occurrences.filter fun n => s.asVariable? != some n) ++
        (l.exposedNames ++ (h.exposedNames ++ t.exposedNames)) := by
  simp only [exposedNames, located, List.filter_append, List.map_append, exposed_plotted, exposed_slot,
    List.nil_append]

theorem exposedNames_binary (op : BinaryOp) (a b : Expr) :
    (binary op a b).exposedNames = a.exposedNames ++ b.exposedNames := by
  simp only [exposedNames, located, List.filter_append, List.map_append]

theorem freeVariables_eq (e : Expr) : e.freeVariables = e.exposedNames.eraseDups := by
  induction e with
  | num x => exact variableNames_eq _
  | foreign v => exact variableNames_eq _
  | var n => exact variableNames_eq _
  | unary op a ih =>
    rw [freeVariables, ih, eraseDups_eraseDups]
    rfl
  | binary op a b iha ihb =>
    rw [freeVariables, iha, ihb, eraseDups_append_eraseDups, exposedNames_binary]
  | request r a ih =>
    rw [freeVariables, ih, eraseDups_eraseDups]
    rfl
  | plot e s l h t ihe ihs ihl ihh iht =>
    have hinner : (e.variableNames.filter fun n => s.asVariable? != some n).eraseDups =
        (e.occurrences.filter fun n => s.asVariable? != some n).eraseDups := by
      rw [variableNames_eq, filter_eraseDups, eraseDups_eraseDups]
    rw [freeVariables, exposedNames_plot, ihl, ihh, iht]
    exact eraseDups_append_congr hinner
      (eraseDups_append_congr (eraseDups_eraseDups _) (eraseDups_append_eraseDups _ _))

theorem mem_exposedNames : n ∈ e.exposedNames ↔ ∃ o ∈ e.located, o.name = n ∧ o.Exposed := by
  simp only [exposedNames, List.mem_map, List.mem_filter, decide_eq_true_iff]
  exact exists_congr fun o => ⟨fun ⟨⟨ho, hx⟩, hn⟩ => ⟨ho, hn, hx⟩, fun ⟨ho, hn, hx⟩ => ⟨⟨ho, hx⟩, hn⟩⟩

/-! ## Plots that are not nested -/

theorem within_eq_nil (h : Operator.plot.symbol ∉ e.commands) : ∀ o ∈ e.located, o.within = [] := by
  induction e with
  | num x => simp [located]
  | foreign v => simp [located]
  | var n => simp [located]
  | unary op a ih => exact ih h
  | binary op a b iha ihb =>
    intro o ho
    rw [commands, List.mem_append, not_or] at h
    rcases List.mem_append.mp ho with ho | ho
    · exact iha h.1 o ho
    · exact ihb h.2 o ho
  | request r a ih => exact ih fun hmem => h (List.mem_cons_of_mem _ hmem)
  | plot e s l h t => exact absurd List.mem_cons_self h

/-- Where no two plotted expressions are around an occurrence, the outermost region decides. -/
theorem exposed_iff_free (he : e.Unnested) : ∀ o ∈ e.located, o.Exposed ↔ o.Free := by
  induction e with
  | num x => simp [located]
  | foreign v => simp [located]
  | var n => simp [located, Occurrence.Exposed, Occurrence.Free]
  | unary op a ih => exact ih he
  | binary op a b iha ihb =>
    intro o ho
    rcases List.mem_append.mp ho with ho | ho
    · exact iha he.1 o ho
    · exact ihb he.2 o ho
  | request r a ih => exact ih he
  | plot e s l h t ihe ihs ihl ihh iht =>
    obtain ⟨hplot, hl, hh, ht⟩ := he
    intro o ho
    simp only [located, List.mem_append, List.mem_map] at ho
    rcases ho with ⟨o, ho, rfl⟩ | ⟨o, ho, rfl⟩ | ho | ho | ho
    · have hfree : o.Free := Occurrence.free_of_within (within_eq_nil hplot o ho)
      rw [Occurrence.exposed_inside, Occurrence.free_inside, and_iff_left hfree]
    · -- The slot hides all names, whatever lies between it and the occurrence.
      rw [Occurrence.exposed_inside, Occurrence.free_inside]
      simp [Region.Hides]
    · exact ihl hl o ho
    · exact ihh hh o ho
    · exact iht ht o ho

theorem exposedNames_eq_freeNames (he : e.Unnested) : e.exposedNames = e.freeNames := by
  rw [exposedNames, freeNames]
  congr 1
  exact List.filter_congr fun o ho => decide_eq_decide.mpr (exposed_iff_free he o ho)

/-- The free variables of a tree, without repetitions and in order of first occurrence, are the names that the
outermost plot around an occurrence leaves exposed; where plots are not nested, these are the names with a free
occurrence. -/
theorem freeVariables_outermost (e : Expr) :
    e.freeVariables.Nodup ∧
      (∀ n, n ∈ e.freeVariables ↔ ∃ o ∈ e.located, o.name = n ∧ o.Exposed) ∧
      e.freeVariables = e.exposedNames.eraseDups ∧
      (e.Unnested →
        (∀ n, n ∈ e.freeVariables ↔ ∃ o ∈ e.located, o.name = n ∧ o.Free) ∧
          e.freeVariables = e.freeNames.eraseDups) := by
  have hmem : ∀ n, n ∈ e.freeVariables ↔ ∃ o ∈ e.located, o.name = n ∧ o.Exposed := by
    intro n
    rw [freeVariables_eq, List.mem_eraseDups, mem_exposedNames]
  refine ⟨?_, hmem, freeVariables_eq e, fun he => ⟨fun n => ?_, ?_⟩⟩
  · rw [freeVariables_eq]
    exact nodup_eraseDups _
  · rw [hmem]
    exact exists_congr fun o => and_congr_right fun ho => and_congr_right fun _ => exposed_iff_free he o ho
  · rw [freeVariables_eq, exposedNames_eq_freeNames he]

/-- A plot over `t` of a wave in `t` whose phase is read from outside, beside a plot whose slot is no variable.
The bounds of the first plot use a name `t` of their own. -/
def shadowing : Expr :=
  .binary .add
    (.plot (.unary .sin (.binary .add (.var "t") (.var "p"))) (.var "t") (.var "u") (.var "t") (.var "p"))
    (.plot (.var "t") (.unary .cos (.var "q")) (.num 0) (.num 1) (.var "t"))

theorem freeVariables_outermost_shadowing :
    shadowing.Unnested ∧ shadowing.freeVariables = ["p", "u", "t"] := by
  have hunnested : shadowing.Unnested := by simp [shadowing, Unnested, commands]
  have hlist := ((freeVariables_outermost shadowing).2.2.2 hunnested).2
  exact ⟨hunnested, hlist⟩

/-- A plot over `y` of a plot over `x`. -/
def nested : Expr :=
  .plot (.plot (.var "x") (.var "x") (.num 0) (.num 1) (.num 1)) (.var "y") (.num 0) (.num 1) (.num 1)

/-- The name that only the inner plot hides is listed as free. -/
theorem freeVariables_nested :
    nested.freeVariables = ["x"] ∧ ¬ ∃ o ∈ nested.located, o.name = "x" ∧ o.Free := by
  refine ⟨?_, by decide⟩
  rw [freeVariables_eq]
  rfl

end Expr
end ArithTree
