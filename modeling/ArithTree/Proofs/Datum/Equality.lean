import ArithTree.Datum
import ArithTree.Proofs.Double.Equality

/-!
# ArithTree.Proofs.Datum.Equality

Equality of plain values and of trees. It is symmetric and transitive across all kinds of numbers:
between kinds the numbers are compared as integers, and two doubles that are equal to the same integer
are equal to each other. Reflexivity fails only where a NaN is involved, so on the values that
are equal to themselves it is an equivalence.

* `Scalar.same_symm`, `Scalar.same_trans`, `Expr.same_symm`, `Expr.same_trans`.
-/

namespace ArithTree

namespace Scalar

variable {a b c : Scalar}

theorem whole?_eq_of_same (h : a.same b = true) : a.whole? = b.whole? := by
  unfold same at h
  split at h
  · rfl
  · rfl
  · exact Double.toInt?_eq_of_beq h
  · split at h
    · rename_i i j hi hj
      rw [hi, hj, eq_of_beq h]
    · cases h

theorem same_of_whole? {i : Int} (ha : a.whole? = some i) (hb : b.whole? = some i) :
    a.same b = true := by
  unfold same
  split
  · cases ha
  · cases ha
  · exact Double.beq_of_toInt? ha hb
  · simp [ha, hb]

theorem same_symm (h : a.same b = true) : b.same a = true := by
  have hwhole := whole?_eq_of_same h
  unfold same at h
  split at h
  · rw [eq_of_beq h]
    exact beq_self_eq_true _
  · rfl
  · exact Double.beq_symm h
  · split at h
    · rename_i i j hi hj
      exact same_of_whole? (hwhole ▸ hi) hi
    · cases h

theorem same_trans (hab : a.same b = true) (hbc : b.same c = true) : a.same c = true := by
  have hwhole := whole?_eq_of_same hab
  have hwhole' := whole?_eq_of_same hbc
  -- Where an integer value is compared, all three have it.
  have through {i : Int} (hi : a.whole? = some i) : a.same c = true :=
    same_of_whole? hi (hwhole' ▸ hwhole ▸ hi)
  unfold same at hab
  split at hab
  · rw [eq_of_beq hab]
    exact hbc
  · exact hbc
  · rename_i x y
    cases c with
    | double z => exact Double.beq_trans hab hbc
    | text s => simp [same, whole?] at hbc
    | nothing => simp [same, whole?] at hbc
    | integer i => exact through (hwhole.trans hwhole')
    | truth t => exact through (hwhole.trans hwhole')
  · split at hab
    · rename_i i j hi hj
      exact through hi
    · cases hab

end Scalar

namespace Foreign

variable {a b c : Foreign}

theorem same_symm (h : a.same b = true) : b.same a = true := by
  unfold same at h
  split at h
  · exact Scalar.same_symm h
  · rfl
  · rfl
  · cases h

theorem same_trans (hab : a.same b = true) (hbc : b.same c = true) : a.same c = true := by
  unfold same at hab
  split at hab
  · cases c with
    | scalar u => exact Scalar.same_trans hab hbc
    | list => cases hbc
    | record => cases hbc
  · exact hbc
  · exact hbc
  · cases hab

end Foreign

namespace Expr

theorem same_symm (a : Expr) : ∀ {b : Expr}, a.same b = true → b.same a = true := by
  induction a with
  | num x =>
    intro b h
    cases b with
    | num y => exact Double.beq_symm h
    | _ => cases h
  | var n =>
    intro b h
    cases b with
    | var m =>
      simp only [same, beq_iff_eq] at h ⊢
      exact h.symm
    | _ => cases h
  | unary op a ih =>
    intro b h
    cases b with
    | unary op' a' =>
      simp only [same, Bool.and_eq_true, beq_iff_eq] at h ⊢
      exact ⟨h.1.symm, ih h.2⟩
    | _ => cases h
  | binary op a b iha ihb =>
    intro c h
    cases c with
    | binary op' a' b' =>
      simp only [same, Bool.and_eq_true, beq_iff_eq] at h ⊢
      exact ⟨h.1.symm, iha h.2.1, ihb h.2.2⟩
    | _ => cases h
  | request r a ih =>
    intro b h
    cases b with
    | request r' a' =>
      simp only [same, Bool.and_eq_true, beq_iff_eq] at h ⊢
      exact ⟨h.1.symm, ih h.2⟩
    | _ => cases h
  | plot e s l h t ihe ihs ihl ihh iht =>
    intro b hb
    cases b with
    | plot e' s' l' h' t' =>
      simp only [same, Bool.and_eq_true] at hb ⊢
      exact ⟨ihe hb.1, ihs hb.2.1, ihl hb.2.2.1, ihh hb.2.2.2.1, iht hb.2.2.2.2⟩
    | _ => cases hb
  | foreign v =>
    intro b h
    cases b with
    | foreign w => exact Foreign.same_symm h
    | _ => cases h

theorem same_trans (a : Expr) :
    ∀ {b c : Expr}, a.same b = true → b.same c = true → a.same c = true := by
  induction a with
  | num x =>
    intro b c hab hbc
    cases b with
    | num y =>
      cases c with
      | num z => exact Double.beq_trans hab hbc
      | _ => cases hbc
    | _ => cases hab
  | var n =>
    intro b c hab hbc
    cases b with
    | var m =>
      simp only [same, beq_iff_eq] at hab
      exact hab ▸ hbc
    | _ => cases hab
  | unary op a ih =>
    intro b c hab hbc
    cases b with
    | unary op' a' =>
      cases c with
      | unary op'' a'' =>
        simp only [same, Bool.and_eq_true, beq_iff_eq] at hab hbc ⊢
        exact ⟨hab.1.trans hbc.1, ih hab.2 hbc.2⟩
      | _ => cases hbc
    | _ => cases hab
  | binary op a b iha ihb =>
    intro c d hab hbc
    cases c with
    | binary op' a' b' =>
      cases d with
      | binary op'' a'' b'' =>
        simp only [same, Bool.and_eq_true, beq_iff_eq] at hab hbc ⊢
        exact ⟨hab.1.trans hbc.1, iha hab.2.1 hbc.2.1, ihb hab.2.2 hbc.2.2⟩
      | _ => cases hbc
    | _ => cases hab
  | request r a ih =>
    intro b c hab hbc
    cases b with
    | request r' a' =>
      cases c with
      | request r'' a'' =>
        simp only [same, Bool.and_eq_true, beq_iff_eq] at hab hbc ⊢
        exact ⟨hab.1.trans hbc.1, ih hab.2 hbc.2⟩
      | _ => cases hbc
    | _ => cases hab
  | plot e s l h t ihe ihs ihl ihh iht =>
    intro b c hab hbc
    cases b with
    | plot e' s' l' h' t' =>
      cases c with
      | plot e'' s'' l'' h'' t'' =>
        simp only [same, Bool.and_eq_true] at hab hbc ⊢
        exact ⟨ihe hab.1 hbc.1, ihs hab.2.1 hbc.2.1, ihl hab.2.2.1 hbc.2.2.1,
          ihh hab.2.2.2.1 hbc.2.2.2.1, iht hab.2.2.2.2 hbc.2.2.2.2⟩
      | _ => cases hbc
    | _ => cases hab
  | foreign v =>
    intro b c hab hbc
    cases b with
    | foreign w =>
      cases c with
      | foreign u => exact Foreign.same_trans hab hbc
      | _ => cases hbc
    | _ => cases hab

end Expr

namespace Datum

variable {a b c : Datum}

theorem same_symm (h : a.same b = true) : b.same a = true := by
  unfold same at h
  split at h
  · exact Scalar.same_symm h
  · exact Expr.same_symm _ h
  · cases h

theorem same_trans (hab : a.same b = true) (hbc : b.same c = true) : a.same c = true := by
  unfold same at hab
  split at hab
  · cases c with
    | scalar u => exact Scalar.same_trans hab hbc
    | tree e => cases hbc
  · cases c with
    | scalar u => cases hbc
    | tree e => exact Expr.same_trans _ hab hbc
  · cases hab

end Datum
end ArithTree
