import ArithTree.Symbolic.Basic
import Mathlib.Algebra.Order.Ring.Rat
import Mathlib.Data.String.Basic

/-!
# ArithTree.Proofs.Symbolic.Order

The order of factors. Of two different expressions exactly one comes before the other, by their structure, so that
a product of sums does not depend on the order in which its factors are met.

* `Sym.before_eq_not`: the order decides between any two expressions.
* `Sym.mul_plus_comm`: the product of two sums.
-/

namespace ArithTree
namespace Symbolic

theorem decide_lt_eq_not {α : Type} [LinearOrder α] {x y : α} (h : x ≠ y) : decide (x < y) = !decide (y < x) := by
  rcases lt_or_gt_of_ne h with hlt | hlt
  · rw [decide_eq_true hlt, decide_eq_false hlt.asymm, Bool.not_false]
  · rw [decide_eq_true hlt, decide_eq_false hlt.asymm, Bool.not_true]

theorem Amount.before_eq_not {a a' : Amount} (h : a ≠ a') : a.before a' = !a'.before a := by
  cases a with
  | ratio p =>
    cases a' with
    | ratio q => exact decide_lt_eq_not fun hpq => h (congrArg ratio hpq)
    | _ => rfl
  | float x =>
    cases a' with
    | float y =>
      obtain ⟨⟨u, hu⟩⟩ := x
      obtain ⟨⟨v, hv⟩⟩ := y
      have huv : u.toNat ≠ v.toNat := by
        intro huv
        cases UInt64.toNat_inj.mp huv
        exact h rfl
      exact decide_lt_eq_not huv
    | _ => rfl
  | infinity s =>
    cases a' with
    | infinity t =>
      have hst : s ≠ t := fun hst => h (congrArg infinity hst)
      revert hst
      revert s t
      decide
    | _ => rfl
  | complexInfinity =>
    cases a' with
    | complexInfinity => exact absurd rfl h
    | _ => rfl
  | nan =>
    cases a' with
    | nan => exact absurd rfl h
    | _ => rfl

namespace Sym

/-- Expressions of two parts: the first parts decide, or else the second parts. -/
theorem parts_eq_not {a b a' b' : Sym} (ha : a ≠ a' → a.before a' = !a'.before a)
    (hb : a = a' → b.before b' = !b'.before b) :
    (if a = a' then b.before b' else a.before a') = !(if a' = a then b'.before b else a'.before a) := by
  by_cases haa : a = a'
  · rw [if_pos haa, if_pos haa.symm, hb haa]
  · rw [if_neg haa, if_neg (Ne.symm haa), ha haa]

/-- By induction on the first expression; expressions of different kinds are ordered by their ranks. -/
theorem before_eq_not {e : Sym} : ∀ {e'}, e ≠ e' → e.before e' = !e'.before e := by
  induction e with
  | number a =>
    intro e' h
    cases e' with
    | number a' => exact Amount.before_eq_not fun ha => h (congrArg number ha)
    | _ => rfl
  | symbol n =>
    intro e' h
    cases e' with
    | symbol m => exact decide_lt_eq_not fun hnm => h (congrArg symbol hnm)
    | _ => rfl
  | sine e ih =>
    intro e' h
    cases e' with
    | sine e' => exact ih fun he => h (congrArg sine he)
    | _ => rfl
  | cosine e ih =>
    intro e' h
    cases e' with
    | cosine e' => exact ih fun he => h (congrArg cosine he)
    | _ => rfl
  | power b e ihb ihe =>
    intro e' h
    cases e' with
    | power b' e' => exact parts_eq_not ihb fun hb => ihe fun he => h (congrArg₂ power hb he)
    | _ => rfl
  | times f r ihf ihr =>
    intro e' h
    cases e' with
    | times f' r' => exact parts_eq_not ihf fun hf => ihr fun hr => h (congrArg₂ times hf hr)
    | _ => rfl
  | plus t r iht ihr =>
    intro e' h
    cases e' with
    | plus t' r' => exact parts_eq_not iht fun ht => ihr fun hr => h (congrArg₂ plus ht hr)
    | _ => rfl

theorem addFactor_comm (b c : Sym) : addFactor c one [(b, one)] = addFactor b one [(c, one)] := by
  by_cases hbc : b = c
  · rw [hbc]
  have hone : one ≠ ofInt 0 := by decide
  simp only [addFactor, if_neg hbc, if_neg (Ne.symm hbc), if_neg hone, before_eq_not hbc]
  cases c.before b <;> rfl

theorem mul_plus_comm (t r t' r' : Sym) : (plus t r).mul (plus t' r') = (plus t' r').mul (plus t r) :=
  calc (plus t r).mul (plus t' r')
      = ofProduct ((Amount.ofInt 1).mul (.ofInt 1)) (addFactor (plus t' r') one [(plus t r, one)]) := rfl
    _ = ofProduct ((Amount.ofInt 1).mul (.ofInt 1)) (addFactor (plus t r) one [(plus t' r', one)]) := by
      rw [addFactor_comm]
    _ = (plus t' r').mul (plus t r) := rfl

/-- `(x * (y + z) + w) * (x * y + z + w)` less the same product turned round. -/
example :
    let p := ((symbol "x").mul ((symbol "y").add (symbol "z"))).add (symbol "w")
    let q := (((symbol "x").mul (symbol "y")).add (symbol "z")).add (symbol "w")
    (p.mul q).add (q.mul p).neg = ofInt 0 := by decide +kernel

end Sym
end Symbolic
end ArithTree
