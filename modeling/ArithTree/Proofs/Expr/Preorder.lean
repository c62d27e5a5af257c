import ArithTree.Proofs.Expr.Positions
import ArithTree.Proofs.Expr.Scoping
import Mathlib.Logic.Function.Iterate

/-!
# ArithTree.Proofs.Expr.Preorder

The walk with a stack against recursion on the tree. A walk takes the tree on top of the stack, lists it and puts its
operands on top in its place. What is on the stack is listed later in any case, the top first, so a walk over several
trees is a walk over each of them in turn.

* `walk_append`, `nodes_eq`: the walk as a recursion, a node before its operands and these from left to right.
* `round_invariant`, `rounds_walk`: the walk as a loop, which ends after as many rounds as there are nodes.
* `inPreorder_nodes`: the walk lists every position of a tree once, in lexicographic order.
* `freeVariables_plotless`: without a plot, dropping repetitions in each operand or only once is the same.
* `traversals_agree`.
-/

namespace ArithTree
namespace Expr

variable {e a : Expr} {stack rest : List Expr}

/-! ## The walk as a recursion -/

theorem walk_append (stack rest : List Expr) : walk (stack ++ rest) = walk stack ++ walk rest := by
  induction stack using walk.induct with
  | case1 => simp [walk]
  | case2 e stack ih =>
    rw [List.append_assoc] at ih
    rw [List.cons_append, walk, walk, ih, List.cons_append]

theorem walk_eq (stack : List Expr) : walk stack = stack.flatMap nodes := by
  induction stack with
  | nil => simp [walk]
  | cons e stack ih =>
    rw [← List.singleton_append, walk_append, ih, List.flatMap_append, List.flatMap_singleton, nodes]

theorem nodes_eq (e : Expr) : e.nodes = e :: e.operands.flatMap nodes := by
  rw [nodes, walk, List.append_nil, walk_eq]

theorem forall_mem_nodes {P : Expr → Prop} :
    (∀ u ∈ e.nodes, P u) ↔ P e ∧ ∀ a ∈ e.operands, ∀ u ∈ a.nodes, P u := by
  rw [nodes_eq, List.forall_mem_cons, List.forall_mem_flatMap]

theorem size_eq (e : Expr) : e.size = totalSize e.operands + 1 := by
  cases e <;> simp only [size, operands, totalSize] <;> omega

theorem length_walk (stack : List Expr) : (walk stack).length = totalSize stack := by
  induction stack using walk.induct with
  | case1 => simp [walk, totalSize]
  | case2 e stack ih =>
    rw [walk, List.length_cons, ih, totalSize_append, totalSize, size_eq]
    omega

/-! ## The walk as a loop -/

/-- One round of a walk whose stack has its top at the end: the tree on top is listed, and its operands are put in
its place, the last of them first. -/
def round (state : List Expr × List Expr) : List Expr × List Expr :=
  match state.1.getLast? with
  | some e => (state.1.dropLast ++ e.operands.reverse, state.2 ++ [e])
  | none => state

theorem round_push (stack listed : List Expr) (e : Expr) :
    round ((e :: stack).reverse, listed) = ((e.operands ++ stack).reverse, listed ++ [e]) := by
  simp [round]

/-- After `k` rounds, what is listed and what is still to be listed is what there was to list. -/
theorem round_invariant (e : Expr) (k : Nat) (hk : k ≤ e.size) :
    ∃ stack listed, round^[k] ([e], []) = (stack.reverse, listed) ∧ listed ++ walk stack = e.nodes ∧
      listed.length = k := by
  induction k with
  | zero => exact ⟨[e], [], rfl, rfl, rfl⟩
  | succ k ih =>
    obtain ⟨stack, listed, hstate, hlist, hlength⟩ := ih (Nat.le_of_succ_le hk)
    cases stack with
    | nil =>
      -- All nodes would be listed, and there are more than `k`.
      have hall := congrArg List.length hlist
      rw [List.length_append, length_walk, nodes, length_walk] at hall
      simp only [totalSize] at hall
      omega
    | cons u stack =>
      refine ⟨u.operands ++ stack, listed ++ [u], ?_, ?_, ?_⟩
      · rw [Function.iterate_succ_apply', hstate, round_push]
      · rw [List.append_assoc, ← hlist, List.singleton_append, walk]
      · rw [List.length_append, hlength, List.length_singleton]

theorem totalSize_eq_zero : totalSize stack = 0 ↔ stack = [] := by
  cases stack with
  | nil => simp [totalSize]
  | cons e stack =>
    simp only [totalSize, size_eq, List.cons_ne_nil, iff_false]
    omega

theorem length_nodes (e : Expr) : e.nodes.length = e.size := by
  rw [nodes, length_walk, totalSize, totalSize, Nat.add_zero]

/-- The loop goes on until all nodes are listed, and then the stack is empty. -/
theorem rounds_walk (e : Expr) :
    round^[e.size] ([e], []) = ([], e.nodes) ∧ ∀ k < e.size, (round^[k] ([e], [])).1 ≠ [] := by
  have hleft {k : Nat} {stack listed : List Expr} (hlist : listed ++ walk stack = e.nodes)
      (hlength : listed.length = k) : k + totalSize stack = e.size := by
    rw [← hlength, ← length_walk, ← List.length_append, hlist, length_nodes]
  constructor
  · obtain ⟨stack, listed, hstate, hlist, hlength⟩ := round_invariant e e.size (Nat.le_refl _)
    have hsize := hleft hlist hlength
    obtain rfl : stack = [] := totalSize_eq_zero.mp (by omega)
    rw [walk, List.append_nil] at hlist
    rw [hstate, hlist, List.reverse_nil]
  · intro k hk
    obtain ⟨stack, listed, hstate, hlist, hlength⟩ := round_invariant e k (Nat.le_of_lt hk)
    have hsize := hleft hlist hlength
    have hne : stack ≠ [] := fun hnil => by
      have hzero := totalSize_eq_zero.mpr hnil
      omega
    rw [hstate]
    exact fun h => hne (List.reverse_eq_nil_iff.mp h)

/-! ## Positions -/

/-- The list has the node at every position of the tree, each position once: a node before its operands, and an
operand with all that is in it before the next. -/
def InPreorder (e : Expr) (ts : List Expr) : Prop :=
  ∃ ps : List (List Nat), ps.Pairwise (List.Lex (· < ·)) ∧ (∀ p, p ∈ ps ↔ (e.subtree? p).isSome = true) ∧
    ps.map e.subtree? = ts.map some

/-- By induction on the operands that are left; those before them are counted by the numbers in front. -/
theorem map_subtree?_numbered (post : List Expr) :
    ∀ pre : List Expr, e.operands = pre ++ post →
      (∀ a ∈ post, a.positions.map a.subtree? = a.nodes.map some) →
        (numbered pre.length (post.map positions)).map e.subtree? = (post.flatMap nodes).map some := by
  induction post with
  | nil => exact fun _ _ _ => rfl
  | cons a post ih =>
    intro pre he hmap
    obtain ⟨ha, hpost⟩ := List.forall_mem_cons.mp hmap
    have hplace : e.operands[pre.length]? = some a := by rw [he, List.getElem?_append_right (Nat.le_refl _)]; simp
    have hrest := ih (pre ++ [a]) (by rw [he, List.append_assoc, List.singleton_append]) hpost
    rw [List.length_append, List.length_singleton] at hrest
    have hhere : (a.positions.map (pre.length :: ·)).map e.subtree? = a.positions.map a.subtree? := by
      rw [List.map_map]
      exact List.map_congr_left fun p _ => subtree?_operand hplace p
    rw [List.map_cons, numbered, List.map_append, hhere, hrest, ha, List.flatMap_cons, List.map_append]

theorem map_subtree?_positions (e : Expr) : e.positions.map e.subtree? = e.nodes.map some := by
  induction e using operands_induction with
  | step e ih =>
    have hoperands := map_subtree?_numbered e.operands [] rfl ih
    rw [positions_eq, nodes_eq, List.map_cons, List.map_cons, ← hoperands]
    rfl

theorem inPreorder_nodes (e : Expr) : InPreorder e e.nodes :=
  ⟨e.positions, positions_ordered e, fun _ => mem_positions, map_subtree?_positions e⟩

/-! ## Variables -/

theorem not_mem_commands (h : ∀ u ∈ e.nodes, u.operator? ≠ some .plot) : Operator.plot.symbol ∉ e.commands := by
  induction e with
  | num x => simp [commands]
  | var n => simp [commands]
  | foreign v => simp [commands]
  | unary op a ih =>
    obtain ⟨-, hoperands⟩ := forall_mem_nodes.mp h
    exact ih (hoperands a (by simp [operands]))
  | binary op a b iha ihb =>
    obtain ⟨-, hoperands⟩ := forall_mem_nodes.mp h
    rw [commands, List.mem_append, not_or]
    exact ⟨iha (hoperands a (by simp [operands])), ihb (hoperands b (by simp [operands]))⟩
  | request r a ih =>
    obtain ⟨-, hoperands⟩ := forall_mem_nodes.mp h
    rw [commands, List.mem_cons, not_or]
    exact ⟨by cases r <;> decide, ih (hoperands a (by simp [operands]))⟩
  | plot e s l h' t =>
    obtain ⟨hhere, -⟩ := forall_mem_nodes.mp h
    exact absurd rfl hhere

/-- No occurrence lies in a plot, so all are free. -/
theorem freeVariables_plotless (h : ∀ u ∈ e.nodes, u.operator? ≠ some .plot) :
    e.freeVariables = e.variableNames := by
  have hall : e.exposedNames = e.occurrences := by
    rw [exposedNames, ← map_name_located]
    congr 1
    refine List.filter_eq_self.mpr fun o ho => decide_eq_true ?_
    simp [Occurrence.Exposed, within_eq_nil (not_mem_commands h) o ho]
  rw [freeVariables_eq, variableNames_eq, hall]

/-- The walk with a stack ends when it has listed the nodes of the tree in the order of a recursion, and no sooner;
these are as many as the tree has nodes. The variables are the names that a recursion meets, each of them where it is
met first, and without a plot in the tree so are the free variables. -/
theorem traversals_agree (e : Expr) :
    (round^[e.size] ([e], []) = ([], e.nodes) ∧ ∀ k < e.size, (round^[k] ([e], [])).1 ≠ []) ∧
      InPreorder e e.nodes ∧ e.nodes = e :: e.operands.flatMap nodes ∧ e.nodes.length = e.size ∧
      FirstMet e.variableNames e.occurrences ∧
      ((∀ u ∈ e.nodes, u.operator? ≠ some .plot) → e.freeVariables = e.variableNames) := by
  refine ⟨rounds_walk e, inPreorder_nodes e, nodes_eq e, length_nodes e, ?_, freeVariables_plotless⟩
  rw [variableNames_eq]
  exact firstMet_eraseDups _

/-- Three variables, two of them met again in a deeper operand and in the other order. -/
def recurring : Expr :=
  .binary .sub (.binary .mul (.var "x") (.unary .sin (.var "y")))
    (.binary .div (.request .toDouble (.var "z")) (.binary .add (.var "y") (.unary .negate (.var "x"))))

theorem traversals_agree_recurring :
    (∀ u ∈ recurring.nodes, u.operator? ≠ some .plot) ∧ recurring.nodes.length = 12 ∧
      recurring.freeVariables = recurring.variableNames ∧ recurring.variableNames = ["x", "y", "z"] := by
  have hplotless : ∀ u ∈ recurring.nodes, u.operator? ≠ some .plot := by
    simp [recurring, nodes, walk, operands, operator?]
  obtain ⟨-, -, -, hlength, -, hfree⟩ := traversals_agree recurring
  exact ⟨hplotless, hlength, hfree hplotless, by rw [variableNames_eq]; rfl⟩

end Expr
end ArithTree
