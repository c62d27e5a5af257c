import ArithTree.Symbolic.Basic

/-!
# ArithTree.Proofs.Symbolic.Symbols

No operation on symbolic expressions brings in a symbol. Collecting may drop symbols, where terms or factors
cancel, so all is said of bounds on the symbols and nothing of their number.

* `Over.add`, `Over.mul`, `Over.pow`, `Over.sin`, `Over.cos`: the operations.
* `Over.substitute`: the symbols of an expression with some of them replaced.
-/

namespace ArithTree
namespace Symbolic

namespace Sym

/-- All symbols satisfy `S`. -/
def Over (S : String → Prop) (e : Sym) : Prop := ∀ n ∈ e.symbols, S n

variable {S S' : String → Prop} {e e' : Sym}

theorem Over.mono (h : e.Over S) (hS : ∀ n, S n → S' n) : e.Over S' := fun n hn => hS n (h n hn)

@[simp] theorem over_number (a : Amount) : (number a).Over S := by simp [Over, symbols]

@[simp] theorem over_symbol (n : String) : (symbol n).Over S ↔ S n := by simp [Over, symbols]

@[simp] theorem over_sine : (sine e).Over S ↔ e.Over S := Iff.rfl

@[simp] theorem over_cosine : (cosine e).Over S ↔ e.Over S := Iff.rfl

@[simp] theorem over_power : (power e e').Over S ↔ e.Over S ∧ e'.Over S := List.forall_mem_append

@[simp] theorem over_times : (times e e').Over S ↔ e.Over S ∧ e'.Over S := List.forall_mem_append

@[simp] theorem over_plus : (plus e e').Over S ↔ e.Over S ∧ e'.Over S := List.forall_mem_append

@[simp] theorem over_one : one.Over S := over_number _

@[simp] theorem over_ofInt (i : Int) : (ofInt i).Over S := over_number _

/-! ## Sums -/

/-- All symbols of the terms satisfy `S`. -/
def TermsOver (S : String → Prop) (ts : List (Amount × Sym)) : Prop := ∀ t ∈ ts, t.2.Over S

variable {ts us : List (Amount × Sym)}

theorem Over.asTerm (h : e.Over S) : e.asTerm.2.Over S := by
  unfold Sym.asTerm
  split
  · exact over_one
  · exact (over_times.mp h).2
  · exact h

theorem Over.terms (h : e.Over S) : TermsOver S e.terms := by
  induction e with
  | plus t r _ ihr =>
    have ⟨ht, hr⟩ := over_plus.mp h
    exact List.forall_mem_cons.mpr ⟨ht.asTerm, ihr hr⟩
  | _ => exact List.forall_mem_singleton.mpr h.asTerm

theorem Over.ofTerm (h : e.Over S) (a : Amount) : (ofTerm a e).Over S := by
  unfold Sym.ofTerm
  split
  · exact over_number a
  split
  · exact h
  · exact over_times.mpr ⟨over_number a, h⟩

theorem TermsOver.ofTerms (h : TermsOver S ts) : (ofTerms ts).Over S := by
  induction ts with
  | nil => exact over_ofInt 0
  | cons t ts ih =>
    have ⟨ht, hts⟩ := List.forall_mem_cons.mp h
    cases ts with
    | nil => exact ht.ofTerm _
    | cons u us => exact over_plus.mpr ⟨ht.ofTerm _, ih hts⟩

theorem TermsOver.addTerm (h : TermsOver S ts) (he : e.Over S) (a : Amount) : TermsOver S (addTerm a e ts) := by
  induction ts with
  | nil =>
    unfold Sym.addTerm
    split
    · exact h
    · exact List.forall_mem_singleton.mpr he
  | cons t ts ih =>
    have ⟨ht, hts⟩ := List.forall_mem_cons.mp h
    unfold Sym.addTerm
    split
    · split
      · exact hts
      · exact List.forall_mem_cons.mpr ⟨ht, hts⟩
    split
    · split
      · exact h
      · exact List.forall_mem_cons.mpr ⟨he, h⟩
    · exact List.forall_mem_cons.mpr ⟨ht, ih hts⟩

theorem TermsOver.addTerms (h : TermsOver S ts) (hus : TermsOver S us) : TermsOver S (addTerms ts us) := by
  induction us generalizing ts with
  | nil => exact h
  | cons u us ih =>
    have ⟨hu, hus⟩ := List.forall_mem_cons.mp hus
    exact ih (h.addTerm hu u.1) hus

theorem TermsOver.ofCollected (h : TermsOver S ts) : (ofCollected ts).Over S := by
  unfold Sym.ofCollected
  split
  · exact over_number .nan
  · exact h.ofTerms

theorem termsOver_nil : TermsOver S [] := List.forall_mem_nil _

theorem Over.add (h : e.Over S) (h' : e'.Over S) : (e.add e').Over S :=
  ((termsOver_nil.addTerms h.terms).addTerms h'.terms).ofCollected

theorem Over.scale (h : e.Over S) (a : Amount) : (scale a e).Over S := by
  have hscaled : TermsOver S (e.terms.map fun t => (a.mul t.1, t.2)) := List.forall_mem_map.mpr h.terms
  exact (termsOver_nil.addTerms hscaled).ofCollected

theorem Over.neg (h : e.Over S) : e.neg.Over S := h.scale _

/-! ## Products -/

/-- All symbols of the factors satisfy `S`. -/
def FactorsOver (S : String → Prop) (fs : List (Sym × Sym)) : Prop := ∀ f ∈ fs, f.1.Over S ∧ f.2.Over S

variable {fs gs : List (Sym × Sym)}

theorem factorsOver_nil : FactorsOver S [] := List.forall_mem_nil _

theorem Over.asFactor (h : e.Over S) : e.asFactor.1.Over S ∧ e.asFactor.2.Over S := by
  cases e with
  | power b e => exact over_power.mp h
  | _ => exact ⟨h, over_one⟩

theorem Over.factors (h : e.Over S) : FactorsOver S e.factors := by
  induction e with
  | times f r _ ihr =>
    have ⟨hf, hr⟩ := over_times.mp h
    exact List.forall_mem_cons.mpr ⟨hf.asFactor, ihr hr⟩
  | _ => exact List.forall_mem_singleton.mpr h.asFactor

theorem Over.ofFactor (h : e.Over S) (h' : e'.Over S) : (ofFactor e e').Over S := by
  unfold Sym.ofFactor
  split
  · exact h
  · exact over_power.mpr ⟨h, h'⟩

theorem FactorsOver.ofFactors (h : FactorsOver S fs) : (ofFactors fs).Over S := by
  induction fs with
  | nil => exact over_one
  | cons f fs ih =>
    have ⟨hf, hfs⟩ := List.forall_mem_cons.mp h
    cases fs with
    | nil => exact hf.1.ofFactor hf.2
    | cons g gs => exact over_times.mpr ⟨hf.1.ofFactor hf.2, ih hfs⟩

theorem FactorsOver.addFactor (h : FactorsOver S fs) (he : e.Over S) (he' : e'.Over S) :
    FactorsOver S (addFactor e e' fs) := by
  induction fs with
  | nil =>
    unfold Sym.addFactor
    split
    · exact h
    · exact List.forall_mem_singleton.mpr ⟨he, he'⟩
  | cons f fs ih =>
    have ⟨hf, hfs⟩ := List.forall_mem_cons.mp h
    unfold Sym.addFactor
    split
    · split
      · exact hfs
      · exact List.forall_mem_cons.mpr ⟨⟨hf.1, he'.add hf.2⟩, hfs⟩
    split
    · split
      · exact h
      · exact List.forall_mem_cons.mpr ⟨⟨he, he'⟩, h⟩
    · exact List.forall_mem_cons.mpr ⟨hf, ih hfs⟩

theorem FactorsOver.addFactors (h : FactorsOver S fs) (hgs : FactorsOver S gs) :
    FactorsOver S (addFactors fs gs) := by
  induction gs generalizing fs with
  | nil => exact h
  | cons g gs ih =>
    have ⟨hg, hgs⟩ := List.forall_mem_cons.mp hgs
    exact ih (h.addFactor hg.1 hg.2) hgs

theorem FactorsOver.ofProduct (h : FactorsOver S fs) (a : Amount) : (ofProduct a fs).Over S := by
  have hbody := h.ofFactors
  unfold Sym.ofProduct
  split
  · rename_i t r heq
    rw [heq] at hbody
    exact hbody.scale a
  · exact over_number _
  · split
    · exact over_ofInt 0
    split
    · exact over_number a
    · exact hbody.ofTerm a

theorem Over.bodyFactors (h : e.Over S) : FactorsOver S (bodyFactors e) := by
  unfold Sym.bodyFactors
  split
  · exact factorsOver_nil
  · exact h.factors

theorem Over.mul (h : e.Over S) (h' : e'.Over S) : (e.mul e').Over S :=
  ((factorsOver_nil.addFactors h.asTerm.bodyFactors).addFactors h'.asTerm.bodyFactors).ofProduct _

/-! ## Powers and functions -/

theorem Over.powInt (h : e.Over S) (n : Int) : (e.powInt n).Over S := by
  unfold Sym.powInt
  split
  · exact over_power.mpr ⟨h, over_ofInt n⟩
  · have hbody := h.asTerm.bodyFactors
    have hscaled : FactorsOver S
        ((Sym.bodyFactors e.asTerm.2).map fun f => (f.1, Sym.scale (.ofInt n) f.2)) :=
      List.forall_mem_map.mpr fun f hf => ⟨(hbody f hf).1, (hbody f hf).2.scale _⟩
    exact (factorsOver_nil.addFactors hscaled).ofProduct _

theorem Over.powNumber (h : e.Over S) (a : Amount) : (powNumber a e).Over S := by
  unfold Sym.powNumber
  split
  · exact over_number _
  · exact over_number _
  · exact over_number _
  · split
    · exact over_one
    · exact over_number _
  · split
    · exact over_one
    · exact over_power.mpr ⟨over_number _, h⟩

theorem Over.pow (h : e.Over S) (h' : e'.Over S) : (e.pow e').Over S := by
  unfold Sym.pow
  split
  · exact over_one
  · exact h
  · exact h.powInt _
  · split
    · exact h'.powNumber _
    · exact over_power.mpr ⟨h, h'⟩

theorem Over.sin (h : e.Over S) : e.sin.Over S := by
  unfold Sym.sin
  split
  · exact h
  split
  · exact over_number _
  · exact over_number _
  · exact over_number _
  · split
    · exact (over_sine.mpr h.neg).neg
    · exact over_sine.mpr h

theorem Over.cos (h : e.Over S) : e.cos.Over S := by
  unfold Sym.cos
  split
  · exact over_one
  split
  · exact over_number _
  · exact over_number _
  · exact over_number _
  · split
    · exact over_cosine.mpr h.neg
    · exact over_cosine.mpr h

theorem Over.substitute {read : String → Option Sym} (h : e.Over fun n => ((read n).getD (.symbol n)).Over S) :
    (e.substitute read).Over S := by
  induction e with
  | number a => exact over_number a
  | symbol n => exact over_symbol n |>.mp h
  | sine e ih => exact (ih h).sin
  | cosine e ih => exact (ih h).cos
  | power b e ihb ihe =>
    have ⟨hb, he⟩ := over_power.mp h
    exact (ihb hb).pow (ihe he)
  | times f r ihf ihr =>
    have ⟨hf, hr⟩ := over_times.mp h
    exact (ihf hf).mul (ihr hr)
  | plus t r iht ihr =>
    have ⟨ht, hr⟩ := over_plus.mp h
    exact (iht ht).add (ihr hr)

end Sym

end Symbolic
end ArithTree
