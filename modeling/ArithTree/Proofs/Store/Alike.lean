import ArithTree.Proofs.Store.Entries

/-!
# ArithTree.Proofs.Store.Alike

Dictionaries with the same entries in the same order. Their rows of slots may differ in length,
because a row never shrinks: after an insertion and the removal of the same key more slots may be
empty than before. No operation tells alike dictionaries apart.

* `Alike.insert`, `Alike.remove`: the same operation keeps dictionaries alike, and fails on both or
  on none.
* `Alike.remove_inserted`: removing the key that was inserted last restores all entries.
-/

namespace ArithTree
namespace Dictionary

variable {κ ν : Type} [BEq κ] {d d' d'' : Dictionary κ ν}

structure Alike (d d' : Dictionary κ ν) : Prop where
  left : d.WellFormed
  right : d'.WellFormed
  entries : d.entries = d'.entries

namespace Alike

theorem refl (h : d.WellFormed) : Alike d d := ⟨h, h, rfl⟩

theorem trans (h : Alike d d') (h' : Alike d' d'') : Alike d d'' :=
  ⟨h.left, h'.right, h.entries.trans h'.entries⟩

theorem size_eq (h : Alike d d') : d.size = d'.size := by
  rw [h.left.size_eq, h.right.size_eq, h.entries]

theorem get?_eq (h : Alike d d') (key : κ) : d.get? key = d'.get? key := by
  rw [Dictionary.get?_eq, Dictionary.get?_eq, h.entries]

theorem contains_eq (h : Alike d d') (key : κ) : d.contains key = d'.contains key := by
  rw [Dictionary.contains_eq, Dictionary.contains_eq, h.get?_eq]

theorem insert (h : Alike d d') (key : κ) (value : ν) :
    Alike (d.insert key value) (d'.insert key value) := by
  obtain ⟨hl, el⟩ := h.left.insert key value
  obtain ⟨hr, er⟩ := h.right.insert key value
  exact ⟨hl, hr, by rw [el, er, h.entries]⟩

theorem remove (h : Alike d d') (key : κ) :
    (d.remove key = .error (.absent key) ∧ d'.remove key = .error (.absent key)) ∨
      ∃ v a a', d.remove key = .ok (v, a) ∧ d'.remove key = .ok (v, a') ∧ Alike a a' := by
  cases hf : Entries.find? d.entries key with
  | none => exact .inl ⟨remove_absent hf, remove_absent (h.entries ▸ hf)⟩
  | some e =>
    obtain ⟨a, ha, wa, ea⟩ := h.left.remove hf
    obtain ⟨a', ha', wa', ea'⟩ := h.right.remove (h.entries ▸ hf)
    exact .inr ⟨e.value, a, a', ha, ha', wa, wa', by rw [ea, ea', h.entries]⟩

theorem remove_inserted [LawfulBEq κ] {key : κ} {value : ν} (hd : d.WellFormed)
    (hn : d.get? key = none) (h : Alike d' (d.insert key value)) :
    ∃ a, d'.remove key = .ok (value, a) ∧ Alike a d := by
  have habs : ∀ e ∈ d.entries, (e.key == key) = false := Dictionary.get?_eq_none.mp hn
  have hentries : d'.entries = d.entries ++ [⟨key, value⟩] := by
    rw [h.entries, (hd.insert key value).2, Entries.insert_of_absent value habs]
  have hkey : ((⟨key, value⟩ : Entry κ ν).key == key) = true := by simp
  have hf : Entries.find? d'.entries key = some ⟨key, value⟩ := by
    have hnone : d.entries.find? (fun e => e.key == key) = none := Entries.find?_eq_none.mpr habs
    rw [hentries, Entries.find?, List.find?_append, hnone]
    simp
  obtain ⟨a, ha, wa, ea⟩ := h.left.remove hf
  refine ⟨a, ha, wa, hd, ?_⟩
  rw [ea, hentries, Entries.erase_of_split habs hkey, List.append_nil]

end Alike
end Dictionary
end ArithTree
