import ArithTree.Proofs.Datum.Equality
import ArithTree.Proofs.Store.Capacity
import Mathlib.Data.List.TakeWhile

/-!
# ArithTree.Proofs.Store.Draining

Taking out the oldest entry, once and as often as it can be done. The oldest entry is read by its place and then
removed by its key, so a key that differs from itself is read but not found. Such a key holds up the entry behind it
too: clearing takes entries out until it meets one, and takes the failure for the end of the entries. Among plain
values only a NaN differs from itself.

* `WellFormed.popFirst_missed`: the oldest entry is not taken out if its key differs from itself.
* `WellFormed.drain`: what is left when no more can be taken out.
* `clear_halts`: both in every state that operations lead to, for all plain values as keys.
* `clear_keeps_nan`: a cleared dictionary with entries in it.
-/

namespace ArithTree

namespace Scalar

/-- The value is a NaN. -/
def isNaN : Scalar → Bool
  | .double x => x.isNaN
  | _ => false

instance : PartialEquivBEq Scalar where
  symm h := same_symm h
  trans h h' := same_trans h h'

/-- A plain value is equal to itself unless it is a NaN. -/
theorem beq_self (s : Scalar) : (s == s) = !s.isNaN := by
  cases s with
  | text t => exact beq_self_eq_true t
  | integer i => exact beq_self_eq_true i
  | truth b => cases b <;> rfl
  | nothing => rfl
  | double x =>
    show (x == x) = !x.isNaN
    cases hx : x.isNaN with
    | true => exact Double.beq_eq_false_of_isNaN (.inl hx)
    | false => exact Double.beq_of_ofFloat hx rfl

end Scalar

namespace Dictionary

variable {κ ν : Type} [BEq κ] {d : Dictionary κ ν} {e : Entry κ ν} {es : List (Entry κ ν)}

/-! ## The oldest entry -/

/-- The keys behind the oldest differ from it, so no other entry is found in its place. -/
theorem WellFormed.popFirst_missed [PartialEquivBEq κ] (h : d.WellFormed) (he : d.entries = e :: es)
    (hself : (e.key == e.key) = false) : d.popFirst = .error (.absent e.key) := by
  have hnone : Entries.find? d.entries e.key = none := by
    rw [Entries.find?_eq_none, he, List.forall_mem_cons]
    refine ⟨hself, fun a ha => ?_⟩
    have hdistinct := h.distinct
    rw [he, List.pairwise_cons] at hdistinct
    rw [BEq.comm]
    exact hdistinct.1 a ha
  simp only [popFirst, keys, he, List.map_cons, remove_absent hnone]

/-! ## All entries -/

/-- The entries that are left begin with the first whose key differs from itself. By induction on the number of
times that an entry may be taken out. -/
theorem WellFormed.drain [PartialEquivBEq κ] (n : Nat) :
    ∀ {d : Dictionary κ ν}, d.WellFormed → d.entries.length ≤ n →
      (d.drain n).WellFormed ∧ (d.drain n).entries = d.entries.dropWhile (fun e => e.key == e.key) ∧
        (d.drain n).capacity = d.capacity := by
  induction n with
  | zero =>
    intro d h hn
    have he : d.entries = [] := List.length_eq_zero_iff.mp (Nat.le_zero.mp hn)
    exact ⟨h, by rw [Dictionary.drain, he, List.dropWhile_nil], rfl⟩
  | succ n ih =>
    intro d h hn
    cases he : d.entries with
    | nil =>
      simp only [Dictionary.drain, popFirst_empty he, he, List.dropWhile_nil]
      exact ⟨h, trivial, trivial⟩
    | cons e es =>
      cases hself : e.key == e.key with
      | true =>
        obtain ⟨d', hpop, hremove, hwf, hentries⟩ := h.popFirst_found he hself
        obtain ⟨-, -, hcapacity⟩ := h.remove_capacity hremove
        rw [he, List.length_cons] at hn
        obtain ⟨hwf', hleft, hcapacity'⟩ := ih hwf (by rw [hentries]; exact Nat.le_of_succ_le_succ hn)
        simp only [Dictionary.drain, hpop]
        refine ⟨hwf', ?_, hcapacity'.trans hcapacity⟩
        rw [hleft, hentries, List.dropWhile_cons, if_pos hself]
      | false =>
        simp only [Dictionary.drain, h.popFirst_missed he hself]
        refine ⟨h, ?_, trivial⟩
        rw [he, List.dropWhile_cons, hself, if_neg Bool.false_ne_true]

theorem WellFormed.clear [PartialEquivBEq κ] (h : d.WellFormed) :
    d.clear.WellFormed ∧ d.clear.entries = d.entries.dropWhile (fun e => e.key == e.key) ∧
      d.clear.capacity = d.capacity :=
  h.drain d.size (Nat.le_of_eq h.size_eq.symm)

/-- States that operations lead to are well-formed, whatever keys are stored. -/
theorem wellFormed_runAll [BEq ν] {c : Nat} (hc : 0 < c) (pairs : List (κ × ν)) (ops : List (Operation κ ν)) :
    (runAll perform (ofList c pairs) ops).2.WellFormed :=
  (Tracks.leads (leads_history ops (ofList c pairs)) (.refl (wellFormed_ofList hc pairs))).wellFormed

/-- How a dictionary gives up its entries, the oldest first. A NaN among the keys stops it. -/
structure Empties [BEq ν] (d : Dictionary Scalar ν) : Prop where
  none : d.entries = [] → d.perform .popFirst = (.error .empty, d)
  oldest : ∀ e es, d.entries = e :: es → e.key.isNaN = false →
    ∃ d', d.perform .popFirst = (.ok (.pair e.key e.value), d') ∧ d'.WellFormed ∧ d'.entries = es ∧
      d'.capacity = d.capacity
  stuck : ∀ e es, d.entries = e :: es → e.key.isNaN = true → d.perform .popFirst = (.error (.absent e.key), d)
  clear : ∃ d', d.perform .clear = (.ok .done, d') ∧ d'.WellFormed ∧
    d'.entries = d.entries.dropWhile (fun e => !e.key.isNaN) ∧ d'.capacity = d.capacity
  cleared : (d.perform .clear).2.entries = [] ↔ ∀ e ∈ d.entries, e.key.isNaN = false

/-- In every state that operations lead to, with any plain values as keys, clearing keeps the row of slots and leaves
the entries from the first NaN on; it leaves none exactly if no key is a NaN. The oldest entry is taken out and
given back unless its key is a NaN. -/
theorem clear_halts [BEq ν] {c : Nat} (hc : 0 < c) (pairs : List (Scalar × ν)) (ops : List (Operation Scalar ν)) :
    Empties (runAll perform (ofList c pairs) ops).2 := by
  have h := wellFormed_runAll hc pairs ops
  generalize (runAll perform (ofList c pairs) ops).2 = d at h
  obtain ⟨hwf, hleft, hcapacity⟩ := h.clear
  simp only [Scalar.beq_self] at hleft
  refine ⟨?_, ?_, ?_, ⟨d.clear, rfl, hwf, hleft, hcapacity⟩, ?_⟩
  · intro he
    simp only [perform, popFirst_empty he]
  · intro e es he hnan
    obtain ⟨d', hpop, hremove, hwf', hentries⟩ := h.popFirst_found he (by rw [Scalar.beq_self, hnan]; rfl)
    obtain ⟨-, -, hcapacity'⟩ := h.remove_capacity hremove
    exact ⟨d', by simp only [perform, hpop], hwf', hentries, hcapacity'⟩
  · intro e es he hnan
    simp only [perform, h.popFirst_missed he (by rw [Scalar.beq_self, hnan]; rfl)]
  · show d.clear.entries = [] ↔ _
    rw [hleft, List.dropWhile_eq_nil_iff]
    simp only [Bool.not_eq_eq_eq_not, Bool.not_true]

/-- Keys of every kind, a NaN after three of them, and a wave of updates and removals before. -/
def mixedKeys : List (Operation Scalar Scalar) :=
  [.insert (.integer 1) (.text "one"), .insert (.double (-0)) .nothing, .getOrInsert (.truth true) (.text "uno"),
    .insert .nothing (.truth false), .remove (.text "a"), .insert (.double (0 / 0)) (.text "lost"),
    .insert (.text "b") (.integer 2)]

theorem clear_halts_mixedKeys :
    0 < 1 ∧ Empties (runAll perform (ofList 1 [(.text "a", .nothing)]) mixedKeys).2 ∧
      (runAll perform (ofList 1 [(.text "a", .nothing)]) mixedKeys).2.keys =
        [.integer 1, .double (-0), .nothing, .double (0 / 0), .text "b"] :=
  ⟨Nat.one_pos, clear_halts Nat.one_pos _ mixedKeys, by decide +kernel⟩

/-- A NaN is stored and then neither cleared nor taken out, and an entry behind it stays as well. -/
theorem clear_keeps_nan :
    (runAll perform (ofList 1 [])
        [.insert (.double (0 / 0)) (.integer 1), .insert (.text "b") (.integer 2), .clear, .popFirst, .keys]).1 =
      ([.ok .done, .ok .done, .ok .done, .error (.absent (.double (0 / 0))),
        .ok (.keys [.double (0 / 0), .text "b"])] : List (Except (Missing Scalar) (Reply Scalar Scalar))) := by
  decide +kernel

end Dictionary
end ArithTree
