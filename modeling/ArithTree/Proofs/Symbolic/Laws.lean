import ArithTree.Proofs.Expr.Occurrences
import ArithTree.Symbolic.OfExpr

/-!
# ArithTree.Proofs.Symbolic.Laws

What is assumed of a library of symbolic expressions. Sums, products and changes of sign denote those of integers, and
replacing symbols denotes simultaneous substitution; whatever a library collects and cancels on the way, no symbol
comes in that was not there. A form with quotients, powers or functions in it need not denote an integer.

* `Laws`: the assumptions.
* `Laws.over_ofExpr`: the free symbols of the form of a tree are variables of the tree.
-/

namespace ArithTree
namespace Symbolic

open Library

/-- What a symbol is replaced by: what stands under its name, or itself. -/
def replacement [Library] (r : List (String × Form)) (n : String) : Form := (r.lookup n).getD (symbol n)

/-- `Denotes σ s x` says that the form `s` has the value `x` where its symbols stand for the integers `σ`. -/
structure Laws [Library] (Denotes : (String → Int) → Form → Int → Prop) : Prop where
  /-- A form has one value. -/
  unique : ∀ {σ s x y}, Denotes σ s x → Denotes σ s y → x = y
  /-- Its value depends on its free symbols only. -/
  congr : ∀ {σ τ s x}, Denotes σ s x → (∀ n ∈ freeSymbols s, σ n = τ n) → Denotes τ s x
  integer : ∀ σ i, Denotes σ (integer i) i
  symbol : ∀ σ n, Denotes σ (symbol n) (σ n)
  add : ∀ {σ s t x y}, Denotes σ s x → Denotes σ t y → Denotes σ (add s t) (x + y)
  mul : ∀ {σ s t x y}, Denotes σ s x → Denotes σ t y → Denotes σ (mul s t) (x * y)
  neg : ∀ {σ s x}, Denotes σ s x → Denotes σ (neg s) (-x)
  /-- Symbols are replaced all at once: none of those that come in is replaced again. -/
  replace : ∀ {σ τ r s x}, Denotes τ s x → (∀ n ∈ freeSymbols s, Denotes σ (replacement r n) (τ n)) →
    Denotes σ (replace r s) x
  freeSymbols_integer : ∀ i, freeSymbols (Library.integer i) = []
  freeSymbols_float : ∀ x, freeSymbols (float x) = []
  freeSymbols_symbol : ∀ n, freeSymbols (Library.symbol n) = [n]
  freeSymbols_add : ∀ s t, freeSymbols (Library.add s t) ⊆ freeSymbols s ++ freeSymbols t
  freeSymbols_mul : ∀ s t, freeSymbols (Library.mul s t) ⊆ freeSymbols s ++ freeSymbols t
  freeSymbols_pow : ∀ s t, freeSymbols (pow s t) ⊆ freeSymbols s ++ freeSymbols t
  freeSymbols_neg : ∀ s, freeSymbols (Library.neg s) ⊆ freeSymbols s
  freeSymbols_sin : ∀ s, freeSymbols (sin s) ⊆ freeSymbols s
  freeSymbols_cos : ∀ s, freeSymbols (cos s) ⊆ freeSymbols s
  freeSymbols_replace : ∀ r s,
    freeSymbols (Library.replace r s) ⊆ (freeSymbols s).flatMap fun n => freeSymbols (replacement r n)

variable [Library]

/-- All free symbols satisfy `S`. -/
def Over (S : String → Prop) (s : Form) : Prop := ∀ n ∈ freeSymbols s, S n

variable {S S' : String → Prop} {s t r : Form}

theorem Over.mono (h : Over S s) (hS : ∀ n, S n → S' n) : Over S' s := fun n hn => hS n (h n hn)

theorem Over.of_subset (hr : freeSymbols r ⊆ freeSymbols s) (hs : Over S s) : Over S r := fun n hn => hs n (hr hn)

theorem Over.of_subset_append (hr : freeSymbols r ⊆ freeSymbols s ++ freeSymbols t) (hs : Over S s) (ht : Over S t) :
    Over S r :=
  fun n hn => (List.mem_append.mp (hr hn)).elim (hs n) (ht n)

namespace Laws

variable {Denotes : (String → Int) → Form → Int → Prop} (laws : Laws Denotes)

include laws

theorem over_integer (i : Int) : Over S (Library.integer i) := by
  simp [Over, laws.freeSymbols_integer]

theorem over_symbol {n : String} : Over S (Library.symbol n) ↔ S n := by
  simp [Over, laws.freeSymbols_symbol]

theorem over_ofNumber (x : Float) : Over S (ofNumber x) := by
  unfold ofNumber
  split
  · exact laws.over_integer _
  · simp [Over, laws.freeSymbols_float]

theorem over_ofUnary (op : UnaryOp) (hs : Over S s) : Over S (ofUnary op s) := by
  cases op with
  | negate => exact hs.of_subset (laws.freeSymbols_neg s)
  | sin => exact hs.of_subset (laws.freeSymbols_sin s)
  | cos => exact hs.of_subset (laws.freeSymbols_cos s)

theorem over_ofBinary (op : BinaryOp) (hs : Over S s) (ht : Over S t) : Over S (ofBinary op s t) := by
  have hminus : Over S (Library.integer (-1)) := laws.over_integer _
  cases op with
  | add => exact .of_subset_append (laws.freeSymbols_add s t) hs ht
  | sub =>
    have hopposite : Over S (Library.mul (Library.integer (-1)) t) :=
      .of_subset_append (laws.freeSymbols_mul _ _) hminus ht
    exact .of_subset_append (laws.freeSymbols_add _ _) hs hopposite
  | mul => exact .of_subset_append (laws.freeSymbols_mul s t) hs ht
  | div =>
    have hinverse : Over S (pow t (Library.integer (-1))) := .of_subset_append (laws.freeSymbols_pow _ _) ht hminus
    exact .of_subset_append (laws.freeSymbols_mul _ _) hs hinverse
  | pow => exact .of_subset_append (laws.freeSymbols_pow s t) hs ht

theorem over_replace {forms : List (String × Form)} (h : Over (fun n => Over S (replacement forms n)) s) :
    Over S (Library.replace forms s) := by
  intro n hn
  obtain ⟨m, hm, hn⟩ := List.mem_flatMap.mp (laws.freeSymbols_replace forms s hn)
  exact h m hm n hn

theorem over_ofExpr {e : Expr} : ∀ {s}, ofExpr e = .ok s → Over (· ∈ e.occurrences) s := by
  induction e with
  | num x =>
    rintro _ ⟨⟩
    exact laws.over_ofNumber x
  | var n =>
    rintro _ ⟨⟩
    exact laws.over_symbol.mpr (List.mem_singleton_self n)
  | unary op a ih =>
    intro s hs
    cases ha : ofExpr a with
    | error f =>
      simp only [ofExpr, ha] at hs
      cases hs
    | ok x =>
      simp only [ofExpr, ha] at hs
      cases hs
      exact laws.over_ofUnary op (ih ha)
  | binary op a b iha ihb =>
    intro s hs
    cases ha : ofExpr a with
    | error f =>
      simp only [ofExpr, ha] at hs
      cases hs
    | ok x =>
      cases hb : ofExpr b with
      | error f =>
        simp only [ofExpr, ha, hb] at hs
        cases hs
      | ok y =>
        simp only [ofExpr, ha, hb] at hs
        cases hs
        exact laws.over_ofBinary op ((iha ha).mono fun n => List.mem_append_left _)
          ((ihb hb).mono fun n => List.mem_append_right _)
  | request r a ih =>
    intro s hs
    unfold ofExpr at hs
    split at hs <;> cases hs
  | plot e s l h t =>
    intro r hr
    unfold ofExpr at hr
    repeat' split at hr
    all_goals cases hr
  | foreign v =>
    rintro _ ⟨⟩

end Laws

end Symbolic
end ArithTree
