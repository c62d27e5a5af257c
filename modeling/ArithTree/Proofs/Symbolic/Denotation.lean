import ArithTree.Symbolic.Basic
import Mathlib.Algebra.Order.Ring.Int
import Mathlib.Data.Rat.Cast.Defs
import Mathlib.Tactic.Ring

/-!
# ArithTree.Proofs.Symbolic.Denotation

What symbolic expressions of integers denote. An expression of integers, symbols, sums, products and powers has
an integer for its value once its symbols have one (`Denotes`), and the operations compute values, whatever they
collect and cancel on the way.

* `TermsDenote`, `FactorsDenote`: sums and products while they are collected.
* `Denotes.add`, `Denotes.scale`, `Denotes.mul`, `Denotes.pow`: the operations.
* `Denotes.substitute`: symbols may be replaced by expressions of the same value.
-/

namespace ArithTree
namespace Symbolic

/-! ## Integers as amounts -/

namespace Amount

theorem ofInt_injective {i j : Int} (h : ofInt i = ofInt j) : i = j := by
  rw [ofInt, ofInt, ratio.injEq] at h
  exact_mod_cast h

theorem add_ofInt (i j : Int) : (ofInt i).add (ofInt j) = ofInt (i + j) :=
  congrArg ratio (Int.cast_add i j).symm

theorem mul_ofInt (i j : Int) : (ofInt i).mul (ofInt j) = ofInt (i * j) :=
  congrArg ratio (Int.cast_mul i j).symm

theorem isZero_ofInt {i : Int} : (ofInt i).isZero = true ↔ i = 0 := by
  rw [ofInt, isZero, decide_eq_true_iff]
  exact_mod_cast Iff.rfl

theorem isOne_ofInt {i : Int} : (ofInt i).isOne = true ↔ i = 1 := by
  rw [ofInt, isOne, decide_eq_true_iff]
  exact_mod_cast Iff.rfl

theorem powInt_ofInt (i : Int) (n : Nat) : (ofInt i).powInt n = ofInt (i ^ n) := by
  rw [ofInt, powInt, if_pos (Int.natCast_nonneg n), Int.toNat_natCast]
  exact congrArg ratio (Int.cast_pow i n).symm

end Amount

namespace Sym

theorem ofInt_injective {i j : Int} (h : ofInt i = ofInt j) : i = j :=
  Amount.ofInt_injective (number.inj h)

/-- The value of an expression where its symbols stand for the integers `σ`. -/
inductive Denotes (σ : String → Int) : Sym → Int → Prop where
  | number {a : Amount} {i : Int} (ha : a = .ofInt i) : Denotes σ (.number a) i
  | symbol (n : String) : Denotes σ (.symbol n) (σ n)
  | power {b e : Sym} {x : Int} {n : Nat} (hb : Denotes σ b x) (he : e = ofInt n) : Denotes σ (.power b e) (x ^ n)
  | times {f r : Sym} {x y : Int} (hf : Denotes σ f x) (hr : Denotes σ r y) : Denotes σ (.times f r) (x * y)
  | plus {t r : Sym} {x y : Int} (ht : Denotes σ t x) (hr : Denotes σ r y) : Denotes σ (.plus t r) (x + y)

/-- The value of a sum that is being collected. -/
inductive TermsDenote (σ : String → Int) : List (Amount × Sym) → Int → Prop where
  | nil : TermsDenote σ [] 0
  | cons {a : Amount} {i : Int} {body : Sym} {ts : List (Amount × Sym)} {x y : Int} (ha : a = .ofInt i)
      (hbody : Denotes σ body x) (hts : TermsDenote σ ts y) : TermsDenote σ ((a, body) :: ts) (i * x + y)

/-- The value of a product that is being collected. -/
inductive FactorsDenote (σ : String → Int) : List (Sym × Sym) → Int → Prop where
  | nil : FactorsDenote σ [] 1
  | cons {b e : Sym} {n : Nat} {fs : List (Sym × Sym)} {x y : Int} (hb : Denotes σ b x) (he : e = ofInt n)
      (hfs : FactorsDenote σ fs y) : FactorsDenote σ ((b, e) :: fs) (x ^ n * y)

variable {σ : String → Int} {e e' body : Sym} {x y z i : Int} {n : Nat} {a : Amount}
  {ts us : List (Amount × Sym)} {fs gs : List (Sym × Sym)}

theorem denotes_ofInt (i : Int) : Denotes σ (ofInt i) i := .number rfl

theorem denotes_one : Denotes σ one 1 := denotes_ofInt 1

theorem Denotes.unique (h : Denotes σ e x) : ∀ {y}, Denotes σ e y → x = y := by
  induction h with
  | number ha =>
    rintro _ ⟨ha'⟩
    exact Amount.ofInt_injective (ha.symm.trans ha')
  | symbol n =>
    rintro _ ⟨⟩
    rfl
  | power hb he ih =>
    rintro _ (_ | _ | ⟨hb', he'⟩)
    have hn := ofInt_injective (he.symm.trans he')
    rw [ih hb', Int.natCast_inj.mp hn]
  | times hf hr ihf ihr =>
    rintro _ (_ | _ | _ | ⟨hf', hr'⟩)
    rw [ihf hf', ihr hr']
  | plus ht hr iht ihr =>
    rintro _ (_ | _ | _ | _ | ⟨ht', hr'⟩)
    rw [iht ht', ihr hr']

/-- Only the symbols that occur matter. -/
theorem Denotes.congr {σ' : String → Int} (h : Denotes σ e x) (hσ : ∀ n ∈ e.symbols, σ n = σ' n) :
    Denotes σ' e x := by
  induction h with
  | number ha => exact .number ha
  | symbol n =>
    rw [hσ n (List.mem_singleton_self n)]
    exact .symbol n
  | power hb he ih => exact .power (ih fun n hn => hσ n (List.mem_append_left _ hn)) he
  | times hf hr ihf ihr =>
    exact .times (ihf fun n hn => hσ n (List.mem_append_left _ hn))
      (ihr fun n hn => hσ n (List.mem_append_right _ hn))
  | plus ht hr iht ihr =>
    exact .plus (iht fun n hn => hσ n (List.mem_append_left _ hn))
      (ihr fun n hn => hσ n (List.mem_append_right _ hn))

/-! ## Sums -/

/-- An expression as a term: its number and the rest. -/
theorem Denotes.asTerm (h : Denotes σ e x) :
    ∃ i y, e.asTerm.1 = .ofInt i ∧ Denotes σ e.asTerm.2 y ∧ x = i * y := by
  unfold Sym.asTerm
  split
  · cases h with
    | number ha => exact ⟨x, 1, ha, denotes_one, (Int.mul_one x).symm⟩
  · cases h with
    | times hf hr =>
      cases hf with
      | number ha => exact ⟨_, _, ha, hr, rfl⟩
  · exact ⟨1, x, rfl, h, (Int.one_mul x).symm⟩

theorem Denotes.terms (h : Denotes σ e x) : TermsDenote σ e.terms x := by
  have single {e : Sym} {x : Int} (h : Denotes σ e x) : TermsDenote σ [e.asTerm] x := by
    obtain ⟨i, y, hi, hy, rfl⟩ := h.asTerm
    have hterm := TermsDenote.cons hi hy .nil
    rwa [Int.add_zero] at hterm
  induction h with
  | plus ht _ _ ihr =>
    obtain ⟨i, y, hi, hy, rfl⟩ := ht.asTerm
    exact .cons hi hy ihr
  | number ha => exact single (.number ha)
  | symbol n => exact single (.symbol n)
  | power hb he => exact single (.power hb he)
  | times hf hr => exact single (.times hf hr)

theorem Denotes.ofTerm (h : Denotes σ body x) (ha : a = .ofInt i) : Denotes σ (ofTerm a body) (i * x) := by
  subst ha
  unfold Sym.ofTerm
  split
  · rename_i hone
    subst hone
    rw [h.unique denotes_one, Int.mul_one]
    exact .number rfl
  split
  · rename_i hi
    rw [Amount.isOne_ofInt.mp hi, Int.one_mul]
    exact h
  · exact .times (.number rfl) h

theorem TermsDenote.ofTerms (h : TermsDenote σ ts x) : Denotes σ (ofTerms ts) x := by
  induction h with
  | nil => exact denotes_ofInt 0
  | cons ha hbody hts ih =>
    cases hts with
    | nil =>
      rw [Int.add_zero]
      exact hbody.ofTerm ha
    | cons _ _ _ => exact .plus (hbody.ofTerm ha) ih

theorem TermsDenote.addTerm (h : TermsDenote σ ts y) (he : Denotes σ e x) (ha : a = .ofInt i) :
    TermsDenote σ (addTerm a e ts) (i * x + y) := by
  subst ha
  induction h with
  | nil =>
    unfold Sym.addTerm
    split
    · rename_i hi
      rw [Amount.isZero_ofInt.mp hi, Int.zero_mul]
      exact .nil
    · exact .cons rfl he .nil
  | @cons a' j body' ts x' y ha' hbody hts ih =>
    subst ha'
    unfold Sym.addTerm
    split
    · rename_i hsame
      subst hsame
      cases he.unique hbody
      rw [Amount.add_ofInt]
      have hsum : i * x + (j * x + y) = (i + j) * x + y := by ring
      rw [hsum]
      split
      · rename_i hij
        rw [Amount.isZero_ofInt.mp hij, Int.zero_mul, Int.zero_add]
        exact hts
      · exact .cons rfl hbody hts
    split
    · split
      · rename_i hi
        rw [Amount.isZero_ofInt.mp hi, Int.zero_mul, Int.zero_add]
        exact .cons rfl hbody hts
      · exact .cons rfl he (.cons rfl hbody hts)
    · rw [Int.add_left_comm]
      exact .cons rfl hbody ih

theorem TermsDenote.addTerms (hus : TermsDenote σ us x) :
    ∀ {ts y}, TermsDenote σ ts y → TermsDenote σ (addTerms ts us) (x + y) := by
  induction hus with
  | nil =>
    intro ts y h
    rw [Int.zero_add]
    exact h
  | @cons a i body us x x' ha hbody _ ih =>
    intro ts y h
    have hrest := ih (h.addTerm hbody ha)
    have hsum : i * x + x' + y = x' + (i * x + y) := by ring
    rw [hsum]
    exact hrest

theorem TermsDenote.ofCollected (h : TermsDenote σ ts x) : Denotes σ (ofCollected ts) x := by
  have hany : (ts.any fun t => t.1 == .nan) = false := by
    induction h with
    | nil => rfl
    | cons ha _ _ ih =>
      subst ha
      exact ih
  rw [Sym.ofCollected, hany]
  exact h.ofTerms

theorem Denotes.add (h : Denotes σ e x) (h' : Denotes σ e' y) : Denotes σ (e.add e') (x + y) := by
  have hterms := h'.terms.addTerms (h.terms.addTerms .nil)
  rw [Int.add_zero, Int.add_comm] at hterms
  exact hterms.ofCollected

theorem TermsDenote.map_mul (h : TermsDenote σ ts x) (i : Int) :
    TermsDenote σ (ts.map fun t => ((Amount.ofInt i).mul t.1, t.2)) (i * x) := by
  induction h with
  | nil =>
    rw [Int.mul_zero]
    exact .nil
  | @cons a j body ts x y ha hbody _ ih =>
    subst ha
    have hsum : i * (j * x + y) = i * j * x + i * y := by ring
    rw [hsum]
    exact .cons (Amount.mul_ofInt i j) hbody ih

theorem Denotes.scale (h : Denotes σ e x) (i : Int) : Denotes σ (scale (.ofInt i) e) (i * x) := by
  have hterms := (h.terms.map_mul i).addTerms .nil
  rw [Int.add_zero] at hterms
  exact hterms.ofCollected

theorem Denotes.neg (h : Denotes σ e x) : Denotes σ e.neg (-x) := by
  have hscaled := h.scale (-1)
  rwa [Int.neg_one_mul] at hscaled

/-! ## Integers as sums -/

/-- The terms of a sum that comes to an integer. -/
def integerTerms (i : Int) : List (Amount × Sym) := if i = 0 then [] else [(.ofInt i, one)]

theorem addTerm_integerTerms (i j : Int) : addTerm (.ofInt i) one (integerTerms j) = integerTerms (i + j) := by
  unfold integerTerms
  by_cases hj : j = 0
  · simp only [hj, if_true, addTerm, Amount.isZero_ofInt, Int.add_zero]
  · simp only [hj, if_false, addTerm, if_true, Amount.add_ofInt, Amount.isZero_ofInt]

theorem ofCollected_integerTerms (i : Int) : ofCollected (integerTerms i) = ofInt i := by
  unfold integerTerms
  split
  · rename_i hi
    rw [hi]
    rfl
  · rfl

theorem add_ofInt (i j : Int) : (ofInt i).add (ofInt j) = ofInt (i + j) := by
  have hi : addTerm (.ofInt i) one [] = integerTerms i := by
    simpa [integerTerms] using addTerm_integerTerms i 0
  calc (ofInt i).add (ofInt j)
      = ofCollected (addTerm (.ofInt j) one (addTerm (.ofInt i) one [])) := rfl
    _ = ofCollected (integerTerms (j + i)) := by rw [hi, addTerm_integerTerms]
    _ = ofInt (i + j) := by rw [ofCollected_integerTerms, Int.add_comm]

theorem scale_ofInt (i j : Int) : scale (.ofInt i) (ofInt j) = ofInt (i * j) := by
  have hij : addTerm (.ofInt (i * j)) one [] = integerTerms (i * j) := by
    simpa [integerTerms] using addTerm_integerTerms (i * j) 0
  calc scale (.ofInt i) (ofInt j)
      = ofCollected (addTerm ((Amount.ofInt i).mul (.ofInt j)) one []) := rfl
    _ = ofInt (i * j) := by rw [Amount.mul_ofInt, hij, ofCollected_integerTerms]

/-! ## Products -/

/-- An expression as a power. -/
theorem Denotes.asFactor (h : Denotes σ e x) :
    ∃ y n, Denotes σ e.asFactor.1 y ∧ e.asFactor.2 = ofInt (n : Nat) ∧ x = y ^ n := by
  have single {e : Sym} {x : Int} (h : Denotes σ e x) :
      ∃ y n, Denotes σ e y ∧ one = ofInt (n : Nat) ∧ x = y ^ n := ⟨x, 1, h, rfl, (Int.pow_one x).symm⟩
  cases h with
  | power hb he => exact ⟨_, _, hb, he, rfl⟩
  | number ha => exact single (.number ha)
  | symbol n => exact single (.symbol n)
  | times hf hr => exact single (.times hf hr)
  | plus ht hr => exact single (.plus ht hr)

theorem Denotes.factors (h : Denotes σ e x) : FactorsDenote σ e.factors x := by
  have single {e : Sym} {x : Int} (h : Denotes σ e x) : FactorsDenote σ [e.asFactor] x := by
    obtain ⟨y, n, hy, hn, rfl⟩ := h.asFactor
    have hfactor := FactorsDenote.cons hy hn .nil
    rwa [Int.mul_one] at hfactor
  induction h with
  | times hf _ _ ihr =>
    obtain ⟨y, n, hy, hn, rfl⟩ := hf.asFactor
    exact .cons hy hn ihr
  | number ha => exact single (.number ha)
  | symbol n => exact single (.symbol n)
  | power hb he => exact single (.power hb he)
  | plus ht hr => exact single (.plus ht hr)

theorem Denotes.ofFactor (h : Denotes σ e x) (he : e' = ofInt n) : Denotes σ (ofFactor e e') (x ^ n) := by
  unfold Sym.ofFactor
  split
  · rename_i hone
    have hn := ofInt_injective (he.symm.trans hone)
    rw [Int.natCast_inj.mp hn, Int.pow_one]
    exact h
  · exact .power h he

theorem FactorsDenote.ofFactors (h : FactorsDenote σ fs x) : Denotes σ (ofFactors fs) x := by
  induction h with
  | nil => exact denotes_one
  | cons hb he hfs ih =>
    cases hfs with
    | nil =>
      rw [Int.mul_one]
      exact hb.ofFactor he
    | cons _ _ _ => exact .times (hb.ofFactor he) ih

theorem FactorsDenote.addFactor (h : FactorsDenote σ fs y) (hx : Denotes σ e x) (he : e' = ofInt n) :
    FactorsDenote σ (addFactor e e' fs) (x ^ n * y) := by
  subst he
  induction h with
  | nil =>
    unfold Sym.addFactor
    split
    · rename_i hn
      rw [Int.natCast_inj.mp (ofInt_injective hn), Int.pow_zero, Int.one_mul]
      exact .nil
    · exact .cons hx rfl .nil
  | @cons b _ m fs x' y hb he hfs ih =>
    subst he
    unfold Sym.addFactor
    rw [add_ofInt]
    split
    · rename_i hsame
      subst hsame
      cases hx.unique hb
      have hproduct : x ^ n * (x ^ m * y) = x ^ (n + m) * y := by ring
      rw [hproduct]
      split
      · rename_i hnm
        have hnm : n + m = 0 := by
          have := ofInt_injective hnm
          omega
        rw [hnm, Int.pow_zero, Int.one_mul]
        exact hfs
      · exact .cons hb rfl hfs
    split
    · split
      · rename_i hn
        rw [Int.natCast_inj.mp (ofInt_injective hn), Int.pow_zero, Int.one_mul]
        exact .cons hb rfl hfs
      · exact .cons hx rfl (.cons hb rfl hfs)
    · rw [Int.mul_left_comm]
      exact .cons hb rfl ih

theorem FactorsDenote.addFactors (hgs : FactorsDenote σ gs x) :
    ∀ {fs y}, FactorsDenote σ fs y → FactorsDenote σ (addFactors fs gs) (x * y) := by
  induction hgs with
  | nil =>
    intro fs y h
    rw [Int.one_mul]
    exact h
  | @cons b e n gs x x' hb he _ ih =>
    intro fs y h
    have hrest := ih (h.addFactor hb he)
    have hproduct : x ^ n * x' * y = x' * (x ^ n * y) := by ring
    rw [hproduct]
    exact hrest

theorem FactorsDenote.ofProduct (h : FactorsDenote σ fs x) (i : Int) :
    Denotes σ (ofProduct (.ofInt i) fs) (i * x) := by
  have hbody := h.ofFactors
  unfold Sym.ofProduct
  split
  · rename_i t r heq
    rw [heq] at hbody
    exact hbody.scale i
  · rename_i b heq
    rw [heq] at hbody
    cases hbody with
    | number hb =>
      subst hb
      rw [Amount.mul_ofInt]
      exact .number rfl
  · split
    · rename_i hi
      rw [Amount.isZero_ofInt.mp hi, Int.zero_mul]
      exact denotes_ofInt 0
    split
    · rename_i hi
      cases hi
    · exact hbody.ofTerm rfl

theorem Denotes.bodyFactors (h : Denotes σ body x) : FactorsDenote σ (bodyFactors body) x := by
  unfold Sym.bodyFactors
  split
  · rename_i hone
    subst hone
    rw [h.unique denotes_one]
    exact .nil
  · exact h.factors

theorem Denotes.mul (h : Denotes σ e x) (h' : Denotes σ e' y) : Denotes σ (e.mul e') (x * y) := by
  obtain ⟨i, x, hi, hx, rfl⟩ := h.asTerm
  obtain ⟨j, y, hj, hy, rfl⟩ := h'.asTerm
  have hproduct := (hy.bodyFactors.addFactors (hx.bodyFactors.addFactors .nil)).ofProduct (i * j)
  have hvalue : i * x * (j * y) = i * j * (y * (x * 1)) := by ring
  rw [hvalue]
  rwa [← Amount.mul_ofInt, ← hi, ← hj] at hproduct

/-! ## Powers -/

theorem FactorsDenote.map_pow (h : FactorsDenote σ fs x) (n : Nat) :
    FactorsDenote σ (fs.map fun f => (f.1, scale (.ofInt n) f.2)) (x ^ n) := by
  induction h with
  | nil =>
    rw [one_pow]
    exact .nil
  | @cons b e m fs x y hb he _ ih =>
    subst he
    have hexponent : scale (.ofInt n) (ofInt m) = ofInt (n * m : Nat) := by
      rw [scale_ofInt, Int.natCast_mul]
    have hproduct : (x ^ m * y) ^ n = x ^ (n * m) * y ^ n := by
      rw [mul_pow, ← pow_mul, Nat.mul_comm]
    rw [hproduct]
    exact .cons hb hexponent ih

theorem Denotes.powInt (h : Denotes σ e x) (n : Nat) : Denotes σ (e.powInt n) (x ^ n) := by
  unfold Sym.powInt
  split
  · exact .power h rfl
  · obtain ⟨i, y, hi, hy, rfl⟩ := h.asTerm
    have hproduct := ((hy.bodyFactors.map_pow n).addFactors .nil).ofProduct (i ^ n)
    rw [Int.mul_one, ← Amount.powInt_ofInt, ← hi, ← mul_pow] at hproduct
    exact hproduct

theorem integer?_ofInt (i : Int) : (ofInt i).integer? = some i := by
  simp [ofInt, Amount.ofInt, integer?]

theorem Denotes.pow (h : Denotes σ e x) (n : Nat) : Denotes σ (e.pow (ofInt n)) (x ^ n) := by
  unfold Sym.pow
  rw [integer?_ofInt]
  rcases n with _ | _ | n
  · rw [Int.pow_zero]
    exact denotes_one
  · rw [Int.pow_one]
    exact h
  · exact h.powInt (n + 2)

/-! ## Substitution -/

theorem Denotes.substitute {τ : String → Int} {read : String → Option Sym} (h : Denotes τ e x)
    (hread : ∀ n ∈ e.symbols, Denotes σ ((read n).getD (.symbol n)) (τ n)) : Denotes σ (e.substitute read) x := by
  induction h with
  | number ha => exact .number ha
  | symbol n => exact hread n (List.mem_singleton_self n)
  | power hb he ih =>
    subst he
    exact (ih fun n hn => hread n (List.mem_append_left _ hn)).pow _
  | times hf hr ihf ihr =>
    exact (ihf fun n hn => hread n (List.mem_append_left _ hn)).mul
      (ihr fun n hn => hread n (List.mem_append_right _ hn))
  | plus ht hr iht ihr =>
    exact (iht fun n hn => hread n (List.mem_append_left _ hn)).add
      (ihr fun n hn => hread n (List.mem_append_right _ hn))

end Sym
end Symbolic
end ArithTree
