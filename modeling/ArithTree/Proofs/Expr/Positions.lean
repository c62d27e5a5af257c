import ArithTree.Expr.Basic

/-!
# ArithTree.Proofs.Expr.Positions

Positions in a tree. A position is given by the numbers of the operands on the way to it, so the root has the empty
one. In lexicographic order a node comes before its operands, and an operand with all that is in it before the next.

* `subtree?`: the node at a position.
* `positions`: the positions of a tree, in lexicographic order (`positions_ordered`), no other and none missing
  (`mem_positions`).
* `operands_induction`: induction on trees, with all operands of a node at once.
-/

namespace ArithTree
namespace Expr

/-- The node at a position, which is given by the numbers of the operands on the way to it. -/
def subtree? (e : Expr) : List Nat → Option Expr
  | [] => some e
  | i :: rest =>
    match e.operands[i]? with
    | some a => a.subtree? rest
    | none => none

/-- Positions in several trees, each with the number of its tree in front. The first tree has the number `i`. -/
def numbered (i : Nat) : List (List (List Nat)) → List (List Nat)
  | [] => []
  | ps :: rest => ps.map (i :: ·) ++ numbered (i + 1) rest

/-- The positions of a tree, a node before its operands and these from left to right. -/
def positions : Expr → List (List Nat)
  | .num _ | .var _ | .foreign _ => [[]]
  | .unary _ a => [] :: numbered 0 [a.positions]
  | .binary _ a b => [] :: numbered 0 [a.positions, b.positions]
  | .request _ a => [] :: numbered 0 [a.positions]
  | .plot e s l h t =>
    [] :: numbered 0 [e.positions, s.positions, l.positions, h.positions, t.positions]

theorem operands_induction {motive : Expr → Prop}
    (step : ∀ e, (∀ a ∈ e.operands, motive a) → motive e) : ∀ e, motive e := by
  intro e
  induction e with
  | num x => exact step _ (by simp [operands])
  | var n => exact step _ (by simp [operands])
  | foreign v => exact step _ (by simp [operands])
  | unary op a ih => exact step _ (by simp [operands, ih])
  | binary op a b iha ihb => exact step _ (by simp [operands, iha, ihb])
  | request r a ih => exact step _ (by simp [operands, ih])
  | plot e s l h t ihe ihs ihl ihh iht => exact step _ (by simp [operands, ihe, ihs, ihl, ihh, iht])

variable {e a q : Expr} {p : List Nat} {i : Nat} {pss : List (List (List Nat))}

theorem subtree?_cons : e.subtree? (i :: p) = some q ↔ ∃ a, e.operands[i]? = some a ∧ a.subtree? p = some q := by
  rw [subtree?]
  cases e.operands[i]? with
  | none => simp
  | some a => simp

theorem subtree?_operand (h : e.operands[i]? = some a) (p : List Nat) : e.subtree? (i :: p) = a.subtree? p := by
  rw [subtree?, h]

theorem positions_eq (e : Expr) : e.positions = [] :: numbered 0 (e.operands.map positions) := by
  cases e <;> rfl

/-! ## All positions, each once -/

theorem mem_numbered : p ∈ numbered i pss ↔ ∃ k ps q, pss[k]? = some ps ∧ q ∈ ps ∧ p = (i + k) :: q := by
  induction pss generalizing i with
  | nil => simp [numbered]
  | cons ps rest ih =>
    rw [numbered, List.mem_append, List.mem_map, ih]
    constructor
    · rintro (⟨q, hq, rfl⟩ | ⟨k, qs, q, hqs, hq, rfl⟩)
      · exact ⟨0, ps, q, rfl, hq, rfl⟩
      · exact ⟨k + 1, qs, q, hqs, hq, by rw [Nat.add_assoc, Nat.add_comm 1]⟩
    · rintro ⟨k, qs, q, hqs, hq, rfl⟩
      cases k with
      | zero =>
        cases hqs
        exact .inl ⟨q, hq, rfl⟩
      | succ k => exact .inr ⟨k, qs, q, hqs, hq, by rw [Nat.add_assoc, Nat.add_comm 1]⟩

theorem mem_positions : p ∈ e.positions ↔ (e.subtree? p).isSome = true := by
  induction e using operands_induction generalizing p with
  | step e ih =>
    rw [positions_eq, List.mem_cons, mem_numbered]
    cases p with
    | nil => simp [subtree?]
    | cons i p =>
      have hhere : ¬ i :: p = [] := List.cons_ne_nil i p
      cases ha : e.operands[i]? with
      | none =>
        simp only [hhere, false_or, subtree?, ha]
        refine ⟨?_, fun h => absurd h Bool.false_ne_true⟩
        rintro ⟨k, ps, q, hps, -, hpos⟩
        obtain ⟨rfl, rfl⟩ := List.cons.inj hpos
        rw [List.getElem?_map, ← Nat.zero_add k, ha] at hps
        cases hps
      | some a =>
        rw [subtree?_operand ha, ← ih a (List.mem_of_getElem? ha)]
        simp only [hhere, false_or]
        constructor
        · rintro ⟨k, ps, q, hps, hq, hpos⟩
          obtain ⟨rfl, rfl⟩ := List.cons.inj hpos
          rw [List.getElem?_map, ← Nat.zero_add k, ha] at hps
          cases hps
          exact hq
        · intro hp
          exact ⟨i, a.positions, p, by rw [List.getElem?_map, ha]; rfl, hp, by rw [Nat.zero_add]⟩

theorem numbered_ordered (h : ∀ ps ∈ pss, ps.Pairwise (List.Lex (· < ·))) :
    (numbered i pss).Pairwise (List.Lex (· < ·)) := by
  induction pss generalizing i with
  | nil => exact .nil
  | cons ps rest ih =>
    obtain ⟨hps, hrest⟩ := List.forall_mem_cons.mp h
    rw [numbered, List.pairwise_append]
    refine ⟨?_, ih hrest, ?_⟩
    · rw [List.pairwise_map]
      exact hps.imp .cons
    · intro p hp q hq
      obtain ⟨p, -, rfl⟩ := List.mem_map.mp hp
      obtain ⟨k, qs, q, -, -, rfl⟩ := mem_numbered.mp hq
      exact .rel (by omega)

theorem positions_ordered (e : Expr) : e.positions.Pairwise (List.Lex (· < ·)) := by
  induction e using operands_induction with
  | step e ih =>
    rw [positions_eq, List.pairwise_cons]
    refine ⟨?_, numbered_ordered ?_⟩
    · intro p hp
      obtain ⟨k, ps, q, -, -, rfl⟩ := mem_numbered.mp hp
      exact .nil
    · intro ps hps
      obtain ⟨a, ha, rfl⟩ := List.mem_map.mp hps
      exact ih a ha

end Expr
end ArithTree
