import ArithTree.Proofs.Store.Entries

/-!
# ArithTree.Proofs.Store.Hidden

A dictionary beside another that lacks some of its keys. What is done to the keys that both have can be done to
either: the two go on with the same results, and the entries of the smaller one are those of the larger one without
the hidden keys, in the same order, wherever the hidden entries stand.

* `Without`: the relation, for a list of hidden keys.
* `Without.insert`, `Without.remove`: insertions and removals of other keys.
* `Without.hide`, `Without.reveal`: a hidden entry comes and goes, and the smaller dictionary does not change.
-/

namespace ArithTree

namespace Entries

variable {κ ν : Type} {q r : κ → Bool} {key : κ}

/-- The entries whose keys pass a test. -/
def select (q : κ → Bool) (es : List (Entry κ ν)) : List (Entry κ ν) := es.filter fun e => q e.key

theorem select_append (es fs : List (Entry κ ν)) : select q (es ++ fs) = select q es ++ select q fs :=
  List.filter_append es fs

theorem select_congr {es : List (Entry κ ν)} (h : ∀ e ∈ es, q e.key = r e.key) : select q es = select r es :=
  List.filter_congr h

theorem select_select (es : List (Entry κ ν)) : select q (select r es) = select (fun k => q k && r k) es :=
  List.filter_filter

variable [BEq κ] [LawfulBEq κ]

theorem select_insert (hq : q key = true) (value : ν) (es : List (Entry κ ν)) :
    select q (insert key value es) = insert key value (select q es) := by
  induction es with
  | nil => simp [select, insert, hq]
  | cons e es ih =>
    simp only [select] at ih ⊢
    by_cases he : e.key = key
    · simp [insert, he, hq]
    · by_cases hqe : q e.key = true
      · simp [insert, he, hqe, ih]
      · simp [insert, he, hqe, ih]

theorem select_erase (hq : q key = true) (es : List (Entry κ ν)) :
    select q (erase es key) = erase (select q es) key := by
  induction es with
  | nil => rfl
  | cons e es ih =>
    simp only [select, erase] at ih ⊢
    by_cases he : e.key = key
    · simp [he, hq]
    · by_cases hqe : q e.key = true
      · simp [he, hqe, ih]
      · simp [he, hqe, ih]

theorem find?_select (hq : q key = true) (es : List (Entry κ ν)) :
    find? (select q es) key = find? es key := by
  induction es with
  | nil => rfl
  | cons e es ih =>
    simp only [select, find?] at ih ⊢
    by_cases he : e.key = key
    · simp [he, hq]
    · by_cases hqe : q e.key = true
      · simp [he, hqe, ih]
      · simp [he, hqe, ih]

/-- Where no key occurs twice, dropping the oldest entry with a key drops the key. -/
theorem erase_eq_select {es : List (Entry κ ν)} (hd : es.Pairwise fun a b => (a.key == b.key) = false) :
    erase es key = select (fun k => k != key) es := by
  induction es with
  | nil => rfl
  | cons e es ih =>
    obtain ⟨hhead, htail⟩ := List.pairwise_cons.mp hd
    by_cases he : e.key = key
    · have hrest : select (fun k => k != key) es = es := by
        refine List.filter_eq_self.mpr fun a ha => ?_
        have hne := hhead a ha
        rw [he] at hne
        exact bne_iff_ne.mpr (Ne.symm (ne_of_beq_false hne))
      simp only [select] at hrest
      simp [erase, select, he, hrest]
    · have hrest := ih htail
      simp only [erase, select] at hrest
      simp [erase, select, he, hrest]

end Entries

namespace Dictionary

variable {κ ν : Type} [BEq κ]

def visible (hidden : List κ) (key : κ) : Bool := !hidden.elem key

/-- `d'` is `d` without the hidden keys, all of which `d` has. -/
structure Without (hidden : List κ) (d d' : Dictionary κ ν) : Prop where
  left : d.WellFormed
  right : d'.WellFormed
  stored : ∀ k ∈ hidden, ∃ v, d.get? k = some v
  entries : d'.entries = Entries.select (visible hidden) d.entries

theorem Without.refl {d : Dictionary κ ν} (h : d.WellFormed) : Without [] d d where
  left := h
  right := h
  stored _ hk := absurd hk List.not_mem_nil
  entries := (List.filter_eq_self.mpr fun _ _ => rfl).symm

variable [LawfulBEq κ] {hidden : List κ} {d d' : Dictionary κ ν} {key : κ}

theorem visible_of_not_mem (h : key ∉ hidden) : visible hidden key = true := by
  simpa [visible] using h

theorem visible_cons (k key : κ) (hidden : List κ) :
    visible (k :: hidden) key = (key != k && visible hidden key) := by
  by_cases h : key = k
  · simp [visible, h]
  · simp [visible, h]

namespace Without

theorem insert (h : Without hidden d d') (hk : key ∉ hidden) (value : ν) :
    Without hidden (d.insert key value) (d'.insert key value) := by
  have hq := visible_of_not_mem hk
  refine ⟨(h.left.insert key value).1, (h.right.insert key value).1, fun k hin => ?_, ?_⟩
  · have hne : key ≠ k := fun heq => hk (heq ▸ hin)
    rw [h.left.get?_insert]
    simpa [hne] using h.stored k hin
  · rw [(h.left.insert key value).2, (h.right.insert key value).2, h.entries, Entries.select_insert hq]

/-- The removal of a key that is not hidden fails on both or on none, and takes the same value out. -/
theorem remove (h : Without hidden d d') (hk : key ∉ hidden) :
    (d.remove key = .error (.absent key) ∧ d'.remove key = .error (.absent key)) ∨
      ∃ v a a', d.remove key = .ok (v, a) ∧ d'.remove key = .ok (v, a') ∧ Without hidden a a' := by
  have hq := visible_of_not_mem hk
  have hsame : Entries.find? d'.entries key = Entries.find? d.entries key := by
    rw [h.entries, Entries.find?_select hq]
  cases hf : Entries.find? d.entries key with
  | none => exact .inl ⟨remove_absent hf, remove_absent (hsame.trans hf)⟩
  | some e =>
    obtain ⟨a, ha, wa, ea⟩ := h.left.remove hf
    obtain ⟨a', ha', wa', ea'⟩ := h.right.remove (hsame.trans hf)
    refine .inr ⟨e.value, a, a', ha, ha', wa, wa', fun k hin => ?_, ?_⟩
    · have hne : key ≠ k := fun heq => hk (heq ▸ hin)
      rw [h.left.get?_remove ha hne]
      exact h.stored k hin
    · rw [ea, ea', h.entries, Entries.select_erase hq]

/-- A new entry is hidden: the smaller dictionary stays as it is. -/
theorem hide (h : Without hidden d d') (hk : d.get? key = none) (value : ν) :
    Without (key :: hidden) (d.insert key value) d' := by
  have habs : ∀ e ∈ d.entries, (e.key == key) = false := Dictionary.get?_eq_none.mp hk
  refine ⟨(h.left.insert key value).1, h.right, fun k hin => ?_, ?_⟩
  · rw [h.left.get?_insert]
    by_cases heq : key = k
    · simp [heq]
    · simp only [beq_iff_eq, heq, if_false]
      exact h.stored k ((List.mem_cons.mp hin).resolve_left (Ne.symm heq))
  · rw [(h.left.insert key value).2, Entries.insert_of_absent value habs, h.entries]
    have hlast : Entries.select (visible (key :: hidden)) [(⟨key, value⟩ : Entry κ ν)] = [] := by
      simp [Entries.select, visible_cons]
    rw [Entries.select_append, hlast, List.append_nil]
    refine Entries.select_congr fun e he => ?_
    have hne : (e.key != key) = true := by simpa using habs e he
    rw [visible_cons, hne, Bool.true_and]

/-- A hidden entry that is removed was there, and the smaller dictionary stays as it is. -/
theorem reveal (h : Without (key :: hidden) d d') (hk : key ∉ hidden) :
    ∃ v a, d.remove key = .ok (v, a) ∧ Without hidden a d' := by
  obtain ⟨v, hv⟩ := h.stored key List.mem_cons_self
  rw [Dictionary.get?_eq, Option.map_eq_some_iff] at hv
  obtain ⟨e, hf, -⟩ := hv
  obtain ⟨a, ha, wa, ea⟩ := h.left.remove hf
  refine ⟨e.value, a, ha, wa, h.right, fun k hin => ?_, ?_⟩
  · have hne : key ≠ k := fun heq => hk (heq ▸ hin)
    rw [h.left.get?_remove ha hne]
    exact h.stored k (List.mem_cons_of_mem key hin)
  · rw [ea, Entries.erase_eq_select h.left.distinct, h.entries, Entries.select_select]
    refine Entries.select_congr fun e _ => ?_
    rw [visible_cons, Bool.and_comm]

end Without
end Dictionary
end ArithTree
