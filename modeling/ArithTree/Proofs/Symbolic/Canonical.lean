import ArithTree.Proofs.Symbolic.Denotation
import ArithTree.Proofs.Symbolic.Laws
import ArithTree.Proofs.Symbolic.Symbols
import ArithTree.Symbolic.Canonical

/-!
# ArithTree.Proofs.Symbolic.Canonical

Canonical forms are a library of symbolic expressions as it is assumed: what they collect and cancel changes no
value and brings in no symbol.
-/

namespace ArithTree
namespace Symbolic

open Canonical

variable {e e' r : Sym}

theorem over_symbols (e : Sym) : e.Over (· ∈ Library.freeSymbols e) := fun _ => List.mem_eraseDups.mpr

/-- What is over the free symbols of an expression has no others. -/
theorem freeSymbols_subset (h : r.Over (· ∈ Library.freeSymbols e)) :
    Library.freeSymbols r ⊆ Library.freeSymbols e :=
  fun n hn => h n (List.mem_eraseDups.mp hn)

theorem freeSymbols_subset_append
    (h : ∀ {S : String → Prop}, e.Over S → e'.Over S → r.Over S) :
    Library.freeSymbols r ⊆ Library.freeSymbols e ++ Library.freeSymbols e' :=
  fun n hn => h ((over_symbols e).mono fun _ => List.mem_append_left _)
    ((over_symbols e').mono fun _ => List.mem_append_right _) n (List.mem_eraseDups.mp hn)

theorem freeSymbols_substitute (forms : List (String × Sym)) (e : Sym) :
    Library.freeSymbols (Library.replace forms e) ⊆
      (Library.freeSymbols e).flatMap fun n => Library.freeSymbols (replacement forms n) := by
  intro n hn
  have hover : (e.substitute fun m => forms.lookup m).Over
      (· ∈ (Library.freeSymbols e).flatMap fun m => Library.freeSymbols (replacement forms m)) := by
    refine Sym.Over.substitute fun m hm => (over_symbols _).mono fun k hk => ?_
    exact List.mem_flatMap.mpr ⟨m, List.mem_eraseDups.mpr hm, hk⟩
  exact hover n (List.mem_eraseDups.mp hn)

theorem canonical_laws : Laws Sym.Denotes where
  unique h h' := h.unique h'
  congr h hσ := h.congr fun n hn => hσ n (List.mem_eraseDups.mpr hn)
  integer _ i := Sym.denotes_ofInt i
  symbol _ n := .symbol n
  add := .add
  mul := .mul
  neg := .neg
  replace h hr := h.substitute fun n hn => hr n (List.mem_eraseDups.mpr hn)
  freeSymbols_integer _ := rfl
  freeSymbols_float _ := rfl
  freeSymbols_symbol _ := rfl
  freeSymbols_add _ _ := freeSymbols_subset_append .add
  freeSymbols_mul _ _ := freeSymbols_subset_append .mul
  freeSymbols_pow _ _ := freeSymbols_subset_append .pow
  freeSymbols_neg e := freeSymbols_subset (over_symbols e).neg
  freeSymbols_sin e := freeSymbols_subset (over_symbols e).sin
  freeSymbols_cos e := freeSymbols_subset (over_symbols e).cos
  freeSymbols_replace := freeSymbols_substitute

end Symbolic
end ArithTree
