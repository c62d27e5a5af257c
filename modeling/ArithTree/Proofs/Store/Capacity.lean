import ArithTree.Proofs.Store.Refinement
import Mathlib.Algebra.Order.Ring.Nat
import Mathlib.Order.Bounds.Basic

/-!
# ArithTree.Proofs.Store.Capacity

How many slots a dictionary has. The row of slots never shrinks, and it doubles when a new key finds it full, so its
length tells of the largest number of entries that there ever were and of nothing else: it is the least of
`c`, `2 * c`, `4 * c`, … that has room for them, where `c` is the length in the beginning.

* `RowFor`: the least such length for a number of entries.
* `passed`, `history`: the dictionaries that operations lead through, one entry stored or taken out at a time
  (`leads_passed`, `leads_history`).
* `Tracks.change`, `Tracks.leads`: what one change keeps, and any number of them.
* `rowFor_peak`: the capacity after any operations.
-/

namespace ArithTree
namespace Dictionary

/-- `capacity` is the least of `c`, `2 * c`, `4 * c`, … that `n` entries fit into. -/
def RowFor (c n capacity : Nat) : Prop := IsLeast {m | (∃ k, m = c * 2 ^ k) ∧ n ≤ m} capacity

namespace RowFor

variable {c n n' capacity : Nat}

theorem start (c : Nat) : RowFor c 0 c := by
  refine ⟨⟨⟨0, by simp⟩, Nat.zero_le c⟩, ?_⟩
  rintro m ⟨⟨k, rfl⟩, -⟩
  exact Nat.le_mul_of_pos_right c (Nat.two_pow_pos k)

/-- As long as they fit, more entries need no longer row. -/
theorem fill (h : RowFor c n capacity) (hle : n ≤ n') (hfit : n' ≤ capacity) : RowFor c n' capacity := by
  refine ⟨⟨h.1.1, hfit⟩, ?_⟩
  rintro m ⟨hm, hn⟩
  exact h.2 ⟨hm, hle.trans hn⟩

/-- One entry more than fit needs the row after. -/
theorem double (h : RowFor c n capacity) (hpos : 0 < capacity) :
    RowFor c (capacity + 1) (2 * capacity) := by
  obtain ⟨⟨⟨k, rfl⟩, -⟩, -⟩ := h
  have hnext : 2 * (c * 2 ^ k) = c * 2 ^ (k + 1) := by ring
  refine ⟨⟨⟨k + 1, hnext⟩, by omega⟩, ?_⟩
  rintro m ⟨⟨j, rfl⟩, hj⟩
  have hlt : 2 ^ k < 2 ^ j := lt_of_mul_lt_mul_left (Nat.lt_of_succ_le hj) (Nat.zero_le c)
  have hkj : k < j := (Nat.pow_lt_pow_iff_right (by omega)).mp hlt
  rw [hnext]
  exact Nat.mul_le_mul_left c (Nat.pow_le_pow_right (by omega) hkj)

theorem eq_start (h : RowFor c n capacity) (hn : n ≤ c) : capacity = c :=
  h.unique ((start c).fill (Nat.zero_le n) hn)

theorem eq_double (h : RowFor c (c + 1) capacity) (hc : 0 < c) : capacity = 2 * c :=
  h.unique ((start c).double hc)

end RowFor

variable {κ ν : Type}

/-- The largest number of entries in any of these dictionaries. -/
def peak (ds : List (Dictionary κ ν)) : Nat := ds.foldr (fun d n => max d.size n) 0

@[simp] theorem peak_nil : peak ([] : List (Dictionary κ ν)) = 0 := rfl

@[simp] theorem peak_cons (d : Dictionary κ ν) (ds : List (Dictionary κ ν)) :
    peak (d :: ds) = max d.size (peak ds) := rfl

variable [BEq κ]

/-! ## Changes -/

/-- One entry is stored, or one is taken out, or nothing happens. -/
inductive Change : Dictionary κ ν → Dictionary κ ν → Prop where
  | none (d : Dictionary κ ν) : Change d d
  | insert (d : Dictionary κ ν) (key : κ) (value : ν) : Change d (d.insert key value)
  | remove {d d' : Dictionary κ ν} {key : κ} {value : ν} (h : d.remove key = .ok (value, d')) : Change d d'

/-- Changes lead from one dictionary through those of a list to another, which is the last of the list. -/
inductive Leads : Dictionary κ ν → List (Dictionary κ ν) → Dictionary κ ν → Prop where
  | nil (d : Dictionary κ ν) : Leads d [] d
  | cons {d d₁ d' : Dictionary κ ν} {ds : List (Dictionary κ ν)} (h : Change d d₁) (rest : Leads d₁ ds d') :
    Leads d (d₁ :: ds) d'

/-- The dictionaries that storing values in order leads to, one after another. -/
def stored (d : Dictionary κ ν) : List (κ × ν) → List (Dictionary κ ν)
  | [] => []
  | p :: pairs => d.insert p.1 p.2 :: (d.insert p.1 p.2).stored pairs

/-- The dictionaries that taking out the oldest entry up to `n` times leads to, one after another. -/
def drained : Nat → Dictionary κ ν → List (Dictionary κ ν)
  | 0, _ => []
  | n + 1, d =>
    match d.popFirst with
    | .ok (_, d') => d' :: drained n d'
    | .error _ => []

/-- The dictionaries that an operation leads to, one change after another. -/
def passed [BEq ν] (d : Dictionary κ ν) : Operation κ ν → List (Dictionary κ ν)
  | .insertMany pairs => d.stored pairs
  | .clear => drained d.size d
  | op => [(d.perform op).2]

/-- The dictionaries that operations lead to, one change after another. -/
def history [BEq ν] (d : Dictionary κ ν) : List (Operation κ ν) → List (Dictionary κ ν)
  | [] => []
  | op :: ops => d.passed op ++ (d.perform op).2.history ops

variable {c p : Nat} {d d₁ d' : Dictionary κ ν} {ds ds' : List (Dictionary κ ν)} {key : κ} {value : ν}

theorem Leads.single (h : Change d d') : Leads d [d'] d' := .cons h (.nil d')

theorem Leads.append (h : Leads d ds d₁) (h' : Leads d₁ ds' d') : Leads d (ds ++ ds') d' := by
  induction h with
  | nil => exact h'
  | cons hchange _ ih => exact .cons hchange (ih h')

theorem leads_stored (pairs : List (κ × ν)) :
    ∀ d : Dictionary κ ν, Leads d (d.stored pairs) (d.insertMany pairs) := by
  induction pairs with
  | nil =>
    intro d
    exact .nil d
  | cons p pairs ih =>
    intro d
    exact .cons (.insert d p.1 p.2) (ih _)

theorem change_popFirst {e : κ × ν} (h : d.popFirst = .ok (e, d')) : Change d d' := by
  simp only [popFirst] at h
  split at h
  · cases h
  · split at h
    · rename_i hr
      cases h
      exact .remove hr
    · cases h

theorem leads_drained (n : Nat) : ∀ d : Dictionary κ ν, Leads d (drained n d) (d.drain n) := by
  induction n with
  | zero =>
    intro d
    exact .nil d
  | succ n ih =>
    intro d
    rcases hpop : d.popFirst with _ | ⟨e, d'⟩
    · simp only [drained, drain, hpop]
      exact .nil d
    · simp only [drained, drain, hpop]
      exact .cons (change_popFirst hpop) (ih d')

theorem leads_passed [BEq ν] (d : Dictionary κ ν) (op : Operation κ ν) :
    Leads d (d.passed op) (d.perform op).2 := by
  cases op with
  | insert key value => exact .single (.insert d key value)
  | get key default? =>
    refine .single ?_
    simp only [perform]
    split <;> exact .none d
  | remove key =>
    refine .single ?_
    simp only [perform]
    split
    · rename_i hr
      exact .remove hr
    · exact .none d
  | contains key => exact .single (.none d)
  | pop key default? =>
    refine .single ?_
    simp only [perform, pop]
    rcases hr : d.remove key with _ | ⟨v, d'⟩
    · cases default? <;> exact .none d
    · exact .remove hr
  | popFirst =>
    refine .single ?_
    simp only [perform]
    split
    · rename_i hpop
      exact change_popFirst hpop
    · exact .none d
  | getOrInsert key value =>
    refine .single ?_
    simp only [perform, getOrInsert]
    split
    · exact .none d
    · exact .insert d key value
  | insertMany pairs => exact leads_stored pairs d
  | clear => exact leads_drained d.size d
  | keys => exact .single (.none d)
  | values =>
    refine .single ?_
    simp only [perform]
    split <;> exact .none d
  | items =>
    refine .single ?_
    simp only [perform]
    split <;> exact .none d
  | equals pairs =>
    refine .single ?_
    simp only [perform]
    split <;> exact .none d

theorem leads_history [BEq ν] (ops : List (Operation κ ν)) :
    ∀ d : Dictionary κ ν, Leads d (d.history ops) (runAll perform d ops).2 := by
  induction ops with
  | nil =>
    intro d
    exact .nil d
  | cons op ops ih =>
    intro d
    exact (leads_passed d op).append (ih _)

/-! ## Capacity -/

theorem WellFormed.size_le_capacity (h : d.WellFormed) : d.size ≤ d.capacity := by
  obtain ⟨es, free, rfl, -, -⟩ := h.exists_packed
  simp

theorem WellFormed.insert_capacity (h : d.WellFormed) (key : κ) (value : ν) :
    ((d.insert key value).size = d.size ∧ (d.insert key value).capacity = d.capacity) ∨
      ((d.insert key value).size = d.size + 1 ∧
        (d.insert key value).capacity = if d.size = d.capacity then 2 * d.capacity else d.capacity) := by
  obtain ⟨es, free, rfl, hc, -⟩ := h.exists_packed
  cases hf : Entries.find? es key with
  | none =>
    refine .inr ?_
    rw [insert_packed_absent (Entries.find?_eq_none.mp hf) hc]
    simp only [size_packed, capacity_packed, List.length_append, List.length_singleton, freeAfter]
    refine ⟨trivial, ?_⟩
    by_cases hfree : free = 0
    · simp only [hfree, if_true, Nat.add_zero]
      omega
    · have hroom : es.length ≠ es.length + free := by omega
      simp only [hfree, hroom, if_false]
      omega
  | some e =>
    obtain ⟨he, pre, post, rfl, hpre⟩ := Entries.split_of_find? hf
    refine .inl ?_
    rw [insert_packed_split hpre he]
    simp

theorem WellFormed.remove_capacity (h : d.WellFormed) (hr : d.remove key = .ok (value, d')) :
    d'.WellFormed ∧ d'.size + 1 = d.size ∧ d'.capacity = d.capacity := by
  cases hf : Entries.find? d.entries key with
  | none =>
    rw [remove_absent hf] at hr
    cases hr
  | some e =>
    obtain ⟨a, ha, hwf, -⟩ := h.remove hf
    obtain ⟨es, free, rfl, -, -⟩ := h.exists_packed
    rw [entries_packed] at hf
    obtain ⟨he, pre, post, rfl, hpre⟩ := Entries.split_of_find? hf
    rw [hr] at ha
    cases ha
    rw [remove_packed_split hpre he] at hr
    cases hr
    refine ⟨hwf, ?_, ?_⟩
    · simp only [size_packed, List.length_append, List.length_cons]
      omega
    · simp only [capacity_packed, List.length_append, List.length_cons]
      omega

/-- A dictionary that has held up to `p` entries, in a row that began with `c` slots. -/
structure Tracks (c p : Nat) (d : Dictionary κ ν) : Prop where
  wellFormed : d.WellFormed
  size_le : d.size ≤ p
  row : RowFor c p d.capacity

namespace Tracks

theorem refl (h : d.WellFormed) : Tracks d.capacity d.size d where
  wellFormed := h
  size_le := Nat.le_refl d.size
  row := (RowFor.start d.capacity).fill (Nat.zero_le d.size) h.size_le_capacity

theorem ofCapacity (hc : 0 < c) : Tracks c 0 (ofCapacity c : Dictionary κ ν) where
  wellFormed := wellFormed_ofCapacity hc
  size_le := Nat.le_refl 0
  row := by simpa [Dictionary.ofCapacity, capacity] using RowFor.start c

theorem change (h : Tracks c p d) (hchange : Change d d') : Tracks c (max p d'.size) d' := by
  cases hchange with
  | none =>
    rw [Nat.max_eq_left h.size_le]
    exact h
  | insert key value =>
    have hfits : p ≤ d.capacity := h.row.1.2
    refine ⟨(h.wellFormed.insert key value).1, Nat.le_max_right .., ?_⟩
    obtain ⟨hsize, hcap⟩ | ⟨hsize, hcap⟩ := h.wellFormed.insert_capacity key value
    · rw [hsize, hcap, Nat.max_eq_left h.size_le]
      exact h.row
    · rw [hsize, hcap]
      have hle := h.size_le
      by_cases hfull : d.size = d.capacity
      · rw [if_pos hfull, hfull, Nat.max_eq_right (by omega)]
        exact h.row.double h.wellFormed.capacity_pos
      · rw [if_neg hfull]
        exact h.row.fill (Nat.le_max_left ..) (by omega)
  | remove hr =>
    obtain ⟨hwf, hsize, hcap⟩ := h.wellFormed.remove_capacity hr
    have hle := h.size_le
    rw [Nat.max_eq_left (by omega)]
    exact ⟨hwf, by omega, hcap ▸ h.row⟩

theorem leads (hds : Leads d ds d') : ∀ {p : Nat}, Tracks c p d → Tracks c (max p (peak ds)) d' := by
  induction hds with
  | nil d =>
    intro p h
    simpa using h
  | cons hchange _ ih =>
    intro p h
    rw [peak_cons, ← Nat.max_assoc]
    exact ih (h.change hchange)

end Tracks

/-- After any operations, failed ones included, the row of slots is the least that has had room for all entries at
every moment. -/
theorem rowFor_peak [BEq ν] (hc : 0 < c) (pairs : List (κ × ν)) (ops : List (Operation κ ν)) :
    RowFor c (peak ((ofCapacity c).history (.insertMany pairs :: ops)))
      (runAll perform (ofList c pairs) ops).2.capacity := by
  have hleads := leads_history (.insertMany pairs :: ops) (ofCapacity c)
  have htracks := Tracks.leads hleads (.ofCapacity hc)
  rw [Nat.zero_max] at htracks
  exact htracks.row

end Dictionary
end ArithTree
