import ArithTree.Proofs.Evaluate.Rank
import ArithTree.Proofs.Symbolic.Canonical

/-!
# ArithTree.Proofs.Symbolic.Resolution

The symbolic form of a tree under bindings, where no bound name depends on itself, by any library that keeps the
laws of `Laws`. A round of replacements takes every name one step closer to the names that nothing is bound to, and
leaves the value as it is.

* `substituteRounds_unbound`: after enough rounds no bound name is left.
* `substituteRounds_denotes`: the value after any rounds, where names stand for what their trees come to.
* `ofExprUnder_resolves`: both, for the rounds that are made.
-/

namespace ArithTree

/-- Whole numbers, variables, sums, differences, products and changes of sign. -/
inductive Expr.Integral : Expr → Prop where
  | num {x : Float} {i : Int} (hx : Double.toInt? x = some i) : Integral (.num x)
  | var (n : String) : Integral (.var n)
  | negate {a : Expr} (ha : Integral a) : Integral (.unary .negate a)
  | add {a b : Expr} (ha : Integral a) (hb : Integral b) : Integral (.binary .add a b)
  | sub {a b : Expr} (ha : Integral a) (hb : Integral b) : Integral (.binary .sub a b)
  | mul {a b : Expr} (ha : Integral a) (hb : Integral b) : Integral (.binary .mul a b)

/-- The exact value of a tree, where bound names stand for their trees and all others for the integers `σ`. -/
inductive ExactValue (b : Bindings) (σ : String → Int) : Expr → Int → Prop where
  | num {x : Float} {i : Int} (hx : Double.toInt? x = some i) : ExactValue b σ (.num x) i
  | free {n : String} (hn : b.get? n = none) : ExactValue b σ (.var n) (σ n)
  | bound {n : String} {t : Expr} {z : Int} (hn : b.get? n = some t) (ht : ExactValue b σ t z) :
      ExactValue b σ (.var n) z
  | negate {e : Expr} {x : Int} (he : ExactValue b σ e x) : ExactValue b σ (.unary .negate e) (-x)
  | add {e e' : Expr} {x y : Int} (he : ExactValue b σ e x) (he' : ExactValue b σ e' y) :
      ExactValue b σ (.binary .add e e') (x + y)
  | sub {e e' : Expr} {x y : Int} (he : ExactValue b σ e x) (he' : ExactValue b σ e' y) :
      ExactValue b σ (.binary .sub e e') (x - y)
  | mul {e e' : Expr} {x y : Int} (he : ExactValue b σ e x) (he' : ExactValue b σ e' y) :
      ExactValue b σ (.binary .mul e e') (x * y)

variable {b : Bindings} {σ : String → Int} {e : Expr} {n : String} {x y z : Int}

theorem ExactValue.unique (h : ExactValue b σ e x) : ∀ {y}, ExactValue b σ e y → x = y := by
  induction h with
  | num hx =>
    rintro _ (⟨hx'⟩)
    exact Option.some.inj (hx.symm.trans hx')
  | free hn =>
    rintro _ (_ | _ | ⟨hn', _⟩)
    · rfl
    · cases hn.symm.trans hn'
  | bound hn _ ih =>
    rintro _ (_ | hn' | ⟨hn', ht'⟩)
    · cases hn.symm.trans hn'
    · cases hn.symm.trans hn'
      exact ih ht'
  | negate _ ih =>
    rintro _ (_ | _ | _ | he')
    rw [ih he']
  | add _ _ ih ih' =>
    rintro _ (_ | _ | _ | _ | ⟨he, he'⟩)
    rw [ih he, ih' he']
  | sub _ _ ih ih' =>
    rintro _ (_ | _ | _ | _ | _ | ⟨he, he'⟩)
    rw [ih he, ih' he']
  | mul _ _ ih ih' =>
    rintro _ (_ | _ | _ | _ | _ | _ | ⟨he, he'⟩)
    rw [ih he, ih' he']

theorem ExactValue.exists_of_names (he : e.Integral)
    (hnames : ∀ n ∈ e.occurrences, ∃ z, ExactValue b σ (.var n) z) : ∃ z, ExactValue b σ e z := by
  induction he with
  | num hx => exact ⟨_, .num hx⟩
  | var n => exact hnames n (List.mem_singleton_self n)
  | negate _ ih =>
    obtain ⟨x, hx⟩ := ih hnames
    exact ⟨-x, .negate hx⟩
  | add _ _ ih ih' =>
    obtain ⟨x, hx⟩ := ih fun n hn => hnames n (List.mem_append_left _ hn)
    obtain ⟨y, hy⟩ := ih' fun n hn => hnames n (List.mem_append_right _ hn)
    exact ⟨x + y, .add hx hy⟩
  | sub _ _ ih ih' =>
    obtain ⟨x, hx⟩ := ih fun n hn => hnames n (List.mem_append_left _ hn)
    obtain ⟨y, hy⟩ := ih' fun n hn => hnames n (List.mem_append_right _ hn)
    exact ⟨x - y, .sub hx hy⟩
  | mul _ _ ih ih' =>
    obtain ⟨x, hx⟩ := ih fun n hn => hnames n (List.mem_append_left _ hn)
    obtain ⟨y, hy⟩ := ih' fun n hn => hnames n (List.mem_append_right _ hn)
    exact ⟨x * y, .mul hx hy⟩

/-- All bound trees are integral. -/
def IntegralTrees (b : Bindings) : Prop := ∀ en ∈ b.entries, en.value.Integral

theorem IntegralTrees.of_get? (hb : IntegralTrees b) {t : Expr} (ht : b.get? n = some t) : t.Integral := by
  obtain ⟨en, hen, -, rfl⟩ := mem_entries_of_get? ht
  exact hb en hen

/-- By induction on the rank of the name. -/
theorem ExactValue.exists_of_rankAtMost (hb : IntegralTrees b) (k : Nat) :
    ∀ n, RankAtMost b k n → ∃ z, ExactValue b σ (.var n) z := by
  induction k with
  | zero =>
    intro n hn
    exact ⟨σ n, .free hn⟩
  | succ k ih =>
    intro n hn
    cases ht : b.get? n with
    | none => exact ⟨σ n, .free ht⟩
    | some t =>
      obtain ⟨z, hz⟩ := ExactValue.exists_of_names (hb.of_get? ht) fun m hm => ih m (hn m ⟨t, ht, hm⟩)
      exact ⟨z, .bound ht hz⟩

namespace Symbolic

open Library

/-! ## Forms of bound trees -/

section

variable [Library] {s : Form} {ns : List String} {forms : List (String × Form)}

theorem boundForms_cons {m : String} (h : boundForms b (m :: ns) = .ok forms) :
    (b.get? m = none ∧ boundForms b ns = .ok forms) ∨
      ∃ t s rest, b.get? m = some t ∧ ofExpr t = .ok s ∧ boundForms b ns = .ok rest ∧
        forms = (m, s) :: rest := by
  unfold boundForms at h
  split at h
  · rename_i hm
    exact .inl ⟨hm, h⟩
  · rename_i t ht
    split at h
    · cases h
    · rename_i s hs
      split at h
      · cases h
      · rename_i rest hrest
        cases h
        exact .inr ⟨t, s, rest, ht, hs, hrest, rfl⟩

theorem boundForms_lookup_some (h : boundForms b ns = .ok forms) (hs : forms.lookup n = some s) :
    ∃ t, b.get? n = some t ∧ ofExpr t = .ok s := by
  induction ns generalizing forms with
  | nil =>
    cases h
    cases hs
  | cons m ns ih =>
    obtain ⟨-, hrest⟩ | ⟨t, s', rest, ht, hs', hrest, rfl⟩ := boundForms_cons h
    · exact ih hrest hs
    · rw [List.lookup_cons] at hs
      split at hs
      · rename_i hnm
        cases hs
        rw [eq_of_beq hnm]
        exact ⟨t, ht, hs'⟩
      · exact ih hrest hs

theorem boundForms_lookup_none (h : boundForms b ns = .ok forms) (hn : n ∈ ns) (hnone : forms.lookup n = none) :
    b.get? n = none := by
  induction ns generalizing forms with
  | nil => cases hn
  | cons m ns ih =>
    obtain ⟨hm, hrest⟩ | ⟨t, s', rest, ht, hs', hrest, rfl⟩ := boundForms_cons h
    · rcases List.mem_cons.mp hn with rfl | hn
      · exact hm
      · exact ih hrest hn hnone
    · rw [List.lookup_cons] at hnone
      split at hnone
      · cases hnone
      · rename_i hnm
        rcases List.mem_cons.mp hn with rfl | hn
        · simp at hnm
        · exact ih hrest hn hnone

theorem boundForms_isOk (hb : ∀ n t, b.get? n = some t → ∃ s, ofExpr t = .ok s) (ns : List String) :
    ∃ forms, boundForms b ns = .ok forms := by
  induction ns with
  | nil => exact ⟨[], rfl⟩
  | cons m ns ih =>
    obtain ⟨rest, hrest⟩ := ih
    cases hm : b.get? m with
    | none => exact ⟨rest, by simp only [boundForms, hm, hrest]⟩
    | some t =>
      obtain ⟨s, hs⟩ := hb m t hm
      exact ⟨(m, s) :: rest, by simp only [boundForms, hm, hs, hrest]⟩

/-! ## Rounds -/

variable {Denotes : (String → Int) → Form → Int → Prop} (laws : Laws Denotes)

include laws

/-- What one round leaves has a smaller rank. -/
theorem over_round {k : Nat} (hs : Over (RankAtMost b (k + 1)) s) (hforms : boundForms b (freeSymbols s) = .ok forms) :
    Over (RankAtMost b k) (replace forms s) := by
  refine laws.over_replace fun n hn => ?_
  cases hlookup : forms.lookup n with
  | none =>
    rw [replacement, hlookup]
    exact laws.over_symbol.mpr (rankAtMost_of_unbound (boundForms_lookup_none hforms hn hlookup) k)
  | some s' =>
    obtain ⟨t, ht, hs'⟩ := boundForms_lookup_some hforms hlookup
    rw [replacement, hlookup]
    exact (laws.over_ofExpr hs').mono fun m hm => hs n hn m ⟨t, ht, hm⟩

theorem substituteRounds_unbound (rounds : Nat) :
    ∀ {s s'}, Over (RankAtMost b rounds) s → substituteRounds b rounds s = .ok s' →
      Over (fun n => b.get? n = none) s' := by
  induction rounds with
  | zero =>
    rintro s _ hs ⟨⟩
    exact hs
  | succ rounds ih =>
    intro s s' hs h
    cases hforms : boundForms b (freeSymbols s) with
    | error f =>
      simp only [substituteRounds, hforms] at h
      cases h
    | ok forms =>
      have hround := over_round laws hs hforms
      cases forms with
      | nil =>
        simp only [substituteRounds, hforms] at h
        cases h
        exact fun n hn => boundForms_lookup_none hforms hn rfl
      | cons f forms =>
        simp only [substituteRounds, hforms] at h
        exact ih hround h

/-- The form of a tree has the value of the tree, where its symbols stand for the values of its names. -/
theorem ofExpr_denotes {ρ : String → Int} (he : e.Integral) (hρ : ∀ n, ExactValue b σ (.var n) (ρ n)) :
    ∃ s z, ofExpr e = .ok s ∧ ExactValue b σ e z ∧ Denotes ρ s z := by
  induction he with
  | @num x i hx =>
    refine ⟨integer i, i, ?_, .num hx, laws.integer ρ i⟩
    simp only [ofExpr, ofNumber, hx]
  | var n => exact ⟨_, _, rfl, hρ n, laws.symbol ρ n⟩
  | negate _ ih =>
    obtain ⟨s, z, hs, hz, hd⟩ := ih
    exact ⟨neg s, -z, by simp only [ofExpr, hs, ofUnary], .negate hz, laws.neg hd⟩
  | add _ _ ih ih' =>
    obtain ⟨s, z, hs, hz, hd⟩ := ih
    obtain ⟨s', z', hs', hz', hd'⟩ := ih'
    exact ⟨add s s', z + z', by simp only [ofExpr, hs, hs', ofBinary], .add hz hz', laws.add hd hd'⟩
  | sub _ _ ih ih' =>
    obtain ⟨s, z, hs, hz, hd⟩ := ih
    obtain ⟨s', z', hs', hz', hd'⟩ := ih'
    have hdifference := laws.add hd (laws.mul (laws.integer ρ (-1)) hd')
    rw [Int.neg_one_mul, ← Int.sub_eq_add_neg] at hdifference
    exact ⟨_, z - z', by simp only [ofExpr, hs, hs', ofBinary], .sub hz hz', hdifference⟩
  | mul _ _ ih ih' =>
    obtain ⟨s, z, hs, hz, hd⟩ := ih
    obtain ⟨s', z', hs', hz', hd'⟩ := ih'
    exact ⟨mul s s', z * z', by simp only [ofExpr, hs, hs', ofBinary], .mul hz hz', laws.mul hd hd'⟩

theorem substituteRounds_denotes {ρ : String → Int} (hb : IntegralTrees b)
    (hρ : ∀ n, ExactValue b σ (.var n) (ρ n)) (rounds : Nat) :
    ∀ {s}, Denotes ρ s z → ∃ s', substituteRounds b rounds s = .ok s' ∧ Denotes ρ s' z := by
  have htree {n : String} {t : Expr} (ht : b.get? n = some t) : ∃ s, ofExpr t = .ok s ∧ Denotes ρ s (ρ n) := by
    obtain ⟨s, z, hs, hz, hd⟩ := ofExpr_denotes laws (hb.of_get? ht) hρ
    rw [(hρ n).unique (.bound ht hz)]
    exact ⟨s, hs, hd⟩
  induction rounds with
  | zero =>
    intro s h
    exact ⟨s, rfl, h⟩
  | succ rounds ih =>
    intro s h
    obtain ⟨forms, hforms⟩ := boundForms_isOk (fun n t ht => (htree ht).imp fun _ => And.left) (freeSymbols s)
    cases forms with
    | nil => exact ⟨s, by simp only [substituteRounds, hforms], h⟩
    | cons f forms =>
      simp only [substituteRounds, hforms]
      refine ih (laws.replace h fun n _ => ?_)
      unfold replacement
      cases hlookup : (f :: forms).lookup n with
      | none => exact laws.symbol ρ n
      | some s' =>
        obtain ⟨t, ht, hs'⟩ := boundForms_lookup_some hforms hlookup
        obtain ⟨s'', hs'', hd⟩ := htree ht
        rw [hs'] at hs''
        cases hs''
        exact hd

/-- By any library that keeps the laws: one round more than there are bindings is enough, and the form means what the
tree means. -/
theorem ofExprUnder_resolves (hacyclic : Acyclic b) (hb : IntegralTrees b) (e : Expr) :
    (∀ s, ofExprUnder b e = .ok s → ∀ n ∈ freeSymbols s, b.get? n = none) ∧
      (e.Integral → ∃ s, ofExprUnder b e = .ok s ∧
        ∀ σ, ∃ z, ExactValue b σ e z ∧ ∀ x, Denotes σ s x ↔ x = z) := by
  have hunbound {s : Form} (hs : ofExprUnder b e = .ok s) : ∀ n ∈ freeSymbols s, b.get? n = none := by
    unfold ofExprUnder at hs
    split at hs
    · cases hs
    · refine substituteRounds_unbound laws (b.size + 1) (fun n _ => ?_) hs
      exact rankAtMost_of_trail hacyclic (b.size + 1) [] n (Trail.nil b) (by simp) (by simp)
  refine ⟨fun s hs => hunbound hs, fun he => ?_⟩
  have hvalue (σ : String → Int) : ∃ s z, ofExprUnder b e = .ok s ∧ ExactValue b σ e z ∧ Denotes σ s z := by
    have hnames (n : String) : ∃ z, ExactValue b σ (.var n) z :=
      ExactValue.exists_of_rankAtMost hb b.size n (rankAtMost_size hacyclic n)
    choose ρ hρ using hnames
    obtain ⟨s, z, hs, hz, hd⟩ := ofExpr_denotes laws he hρ
    obtain ⟨s', hs', hd'⟩ := substituteRounds_denotes laws hb hρ (b.size + 1) hd
    have hunder : ofExprUnder b e = .ok s' := by simp only [ofExprUnder, hs, hs']
    refine ⟨s', z, hunder, hz, laws.congr hd' fun n hn => ?_⟩
    exact (hρ n).unique (.free (hunbound hunder n hn))
  obtain ⟨s, -, hs, -⟩ := hvalue fun _ => 0
  refine ⟨s, hs, fun σ => ?_⟩
  obtain ⟨s', z, hs', hz, hd⟩ := hvalue σ
  rw [hs] at hs'
  cases hs'
  refine ⟨z, hz, fun x => ⟨fun hx => laws.unique hx hd, ?_⟩⟩
  rintro rfl
  exact hd

end

/-- `a` comes to nothing, because its first factor does; `c` is what is left. -/
def cancelling : Bindings :=
  Dictionary.ofList 1
    [("a", .binary .mul (.var "b") (.var "c")), ("b", .binary .sub (.var "d") (.var "d")),
      ("c", .unary .negate (.binary .add (.var "d") (.num 2)))]

open scoped Canonical in
theorem ofExprUnder_resolves_cancelling :
    Laws Sym.Denotes ∧ Acyclic cancelling ∧ IntegralTrees cancelling ∧
      (Expr.binary .add (.var "a") (.var "c")).Integral ∧
      (∀ s, ofExprUnder cancelling (.binary .add (.var "a") (.var "c")) = .ok s →
          ∀ n ∈ freeSymbols s, cancelling.get? n = none) ∧
        ∃ s, ofExprUnder cancelling (.binary .add (.var "a") (.var "c")) = .ok s ∧
          ∀ σ, ∃ z, ExactValue cancelling σ (.binary .add (.var "a") (.var "c")) z ∧
            ∀ x, Sym.Denotes σ s x ↔ x = z :=
  have hacyclic := acyclic_of_entries (fun n => if n = "a" then 2 else if n = "d" then 0 else 1) (by decide)
  have htwo : Double.toInt? 2 = some 2 := by decide +kernel
  have htrees : IntegralTrees cancelling :=
    List.forall_mem_cons.mpr ⟨.mul (.var "b") (.var "c"), List.forall_mem_cons.mpr ⟨.sub (.var "d") (.var "d"),
      List.forall_mem_singleton.mpr (.negate (.add (.var "d") (.num htwo)))⟩⟩
  have he : (Expr.binary .add (.var "a") (.var "c")).Integral := .add (.var "a") (.var "c")
  have hresolves := ofExprUnder_resolves canonical_laws hacyclic htrees (.binary .add (.var "a") (.var "c"))
  ⟨canonical_laws, hacyclic, htrees, he, hresolves.1, hresolves.2 he⟩

end Symbolic
end ArithTree
