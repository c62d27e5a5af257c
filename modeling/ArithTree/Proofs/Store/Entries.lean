import ArithTree.Store.Dictionary

/-!
# ArithTree.Proofs.Store.Entries

The dictionary seen as its list of entries, oldest first. `Entries` has the operations on such a
list: a search from the front, an update in place or at the end, and a removal that keeps the order.

* `WellFormed`: entries in front, empty slots behind them, at least one slot, and no key twice.
* `get?_eq`, `contains_eq`: lookups search the entries. This holds in every state.
* `WellFormed.insert`, `WellFormed.remove`: in a well-formed state, insertion and removal act on the
  entries and lead to a well-formed state again.
* `wellFormed_iff_ofList`: no other states are well-formed than those that storing entries leads to.
* `WellFormed.popFirst_found`: the oldest entry is taken out if its key equals itself.
-/

namespace ArithTree

namespace Entries

variable {κ ν : Type} [BEq κ]

/-- The oldest entry with a key. -/
def find? (es : List (Entry κ ν)) (key : κ) : Option (Entry κ ν) := es.find? fun e => e.key == key

/-- Stores a value under the key that is there already, or else at the end. -/
def insert (key : κ) (value : ν) : List (Entry κ ν) → List (Entry κ ν)
  | [] => [⟨key, value⟩]
  | e :: es => if e.key == key then ⟨e.key, value⟩ :: es else e :: insert key value es

/-- Drops the oldest entry with a key. -/
def erase (es : List (Entry κ ν)) (key : κ) : List (Entry κ ν) := es.eraseP fun e => e.key == key

theorem split_of_find? {es : List (Entry κ ν)} {key : κ} {e : Entry κ ν}
    (h : find? es key = some e) :
    (e.key == key) = true ∧
      ∃ pre post, es = pre ++ e :: post ∧ ∀ a ∈ pre, (a.key == key) = false := by
  obtain ⟨he, pre, post, hes, hpre⟩ := List.find?_eq_some_iff_append.mp h
  exact ⟨he, pre, post, hes, fun a ha => by simpa using hpre a ha⟩

theorem find?_eq_none {es : List (Entry κ ν)} {key : κ} :
    find? es key = none ↔ ∀ e ∈ es, (e.key == key) = false := by
  simp [find?]

theorem insert_of_absent {es : List (Entry κ ν)} {key : κ} (value : ν)
    (h : ∀ e ∈ es, (e.key == key) = false) : insert key value es = es ++ [⟨key, value⟩] := by
  induction es with
  | nil => rfl
  | cons a es ih =>
    have ha := h a (by simp)
    simp [insert, ha, ih fun e he => h e (by simp [he])]

theorem insert_of_split {pre post : List (Entry κ ν)} {e : Entry κ ν} {key : κ} (value : ν)
    (hpre : ∀ a ∈ pre, (a.key == key) = false) (he : (e.key == key) = true) :
    insert key value (pre ++ e :: post) = pre ++ ⟨e.key, value⟩ :: post := by
  induction pre with
  | nil => simp [insert, he]
  | cons a pre ih =>
    have ha := hpre a (by simp)
    simp [insert, ha, ih fun b hb => hpre b (by simp [hb])]

/-- What an insertion brings in has the new value, and the new key or one that was there. -/
theorem mem_insert {es : List (Entry κ ν)} {key : κ} {value : ν} {e : Entry κ ν}
    (h : e ∈ insert key value es) :
    e ∈ es ∨ e.value = value ∧ (e.key = key ∨ ∃ a ∈ es, a.key = e.key) := by
  induction es with
  | nil =>
    rw [insert, List.mem_singleton] at h
    exact .inr (by simp [h])
  | cons a es ih =>
    simp only [insert] at h
    split at h
    · rcases List.mem_cons.mp h with rfl | h
      · exact .inr ⟨rfl, .inr ⟨a, List.mem_cons_self, rfl⟩⟩
      · exact .inl (List.mem_cons_of_mem a h)
    · rcases List.mem_cons.mp h with rfl | h
      · exact .inl List.mem_cons_self
      · rcases ih h with hin | ⟨hvalue, hkey | ⟨b, hb, hkey⟩⟩
        · exact .inl (List.mem_cons_of_mem a hin)
        · exact .inr ⟨hvalue, .inl hkey⟩
        · exact .inr ⟨hvalue, .inr ⟨b, List.mem_cons_of_mem a hb, hkey⟩⟩

theorem erase_of_split {pre post : List (Entry κ ν)} {e : Entry κ ν} {key : κ}
    (hpre : ∀ a ∈ pre, (a.key == key) = false) (he : (e.key == key) = true) :
    erase (pre ++ e :: post) key = pre ++ post := by
  rw [erase, List.eraseP_append_right _ (by simpa using hpre)]
  simp [he]

theorem find?_insert [LawfulBEq κ] (es : List (Entry κ ν)) (key k : κ) (value : ν) :
    (find? (insert key value es) k).map Entry.value =
      if key == k then some value else (find? es k).map Entry.value := by
  simp only [find?]
  induction es with
  | nil => by_cases hk : key = k <;> simp [insert, hk]
  | cons e es ih =>
    by_cases he : e.key = key
    · by_cases hk : key = k <;> simp [insert, he, hk]
    · by_cases hk : e.key = k
      · subst hk
        have hne : ¬ key = e.key := fun h => he h.symm
        simp [insert, he, hne]
      · simp [insert, he, hk, ih]

end Entries

namespace Dictionary

variable {κ ν : Type}

/-- The dictionary with these entries and `free` empty slots behind them. -/
def packed (es : List (Entry κ ν)) (free : Nat) : Dictionary κ ν :=
  ⟨es.map some ++ List.replicate free none, es.length⟩

@[simp] theorem size_packed (es : List (Entry κ ν)) (free : Nat) :
    (packed es free).size = es.length := rfl

@[simp] theorem capacity_packed (es : List (Entry κ ν)) (free : Nat) :
    (packed es free).capacity = es.length + free := by
  simp [packed, capacity]

@[simp] theorem used_packed (es : List (Entry κ ν)) (free : Nat) :
    (packed es free).used = es.map some := by
  simp [packed, used]

@[simp] theorem entries_packed (es : List (Entry κ ν)) (free : Nat) :
    (packed es free).entries = es := by
  simp [entries, List.filterMap_map]

@[simp] theorem entries_ofCapacity (n : Nat) : (ofCapacity n : Dictionary κ ν).entries = [] := by
  simp [ofCapacity, entries, used]

/-- The empty slots that are left when one more is used, after the row doubled if it was full. -/
def freeAfter (used free : Nat) : Nat := if free = 0 then used - 1 else free - 1

theorem push_packed {es : List (Entry κ ν)} {free : Nat} (h : 0 < es.length + free)
    (e : Entry κ ν) : (packed es free).push e = packed (es ++ [e]) (freeAfter es.length free) := by
  cases free with
  | zero =>
    obtain ⟨n, hn⟩ : ∃ n, es.length = n + 1 := ⟨es.length - 1, by omega⟩
    simp [push, grown, packed, freeAfter, hn, List.replicate_succ]
  | succ free =>
    simp [push, grown, packed, freeAfter, List.replicate_succ]

theorem length_keys_le (d : Dictionary κ ν) : d.keys.length ≤ d.size := by
  have h : d.entries.length ≤ d.used.length := List.length_filterMap_le _ _
  have hu : d.used.length ≤ d.size := List.length_take_le _ _
  simpa [keys] using Nat.le_trans h hu

variable [BEq κ]

/-- What every state has that operations lead to. -/
structure WellFormed (d : Dictionary κ ν) : Prop where
  eq_packed : ∃ free, d = packed d.entries free
  capacity_pos : 0 < d.capacity
  distinct : d.entries.Pairwise fun a b => (a.key == b.key) = false

/-! ## Lookups -/

/-- The slot that a search finds holds an entry. -/
theorem slot_of_indexOf? {d : Dictionary κ ν} {key : κ} {i : Nat} (h : d.indexOf? key = some i) :
    ∃ e, d.slots[i]? = some (some e) ∧ d.used[i]? = some (some e) := by
  obtain ⟨hlt, hp, -⟩ := List.findIdx?_eq_some_iff_getElem.mp h
  have hslot : d.slots[i]? = d.used[i]? := by
    have hsize : i < d.size := by simp only [used, List.length_take] at hlt; omega
    simp [used, hsize]
  cases hs : d.used[i] with
  | none => simp [hs, holds] at hp
  | some e =>
    have hused : d.used[i]? = some (some e) := by rw [List.getElem?_eq_getElem hlt, hs]
    exact ⟨e, hslot.trans hused, hused⟩

theorem find?_eq (d : Dictionary κ ν) (key : κ) :
    (d.find? key).map Prod.snd = Entries.find? d.entries key := by
  have hfind : Entries.find? d.entries key = (d.used.find? (holds key)).bind id := by
    rw [Entries.find?, entries, List.find?_filterMap]
    congr 1
    refine congrArg (fun p => List.find? p d.used) ?_
    funext s
    cases s <;> rfl
  rw [hfind, List.find?_eq_bind_findIdx?_getElem?, ← indexOf?]
  simp only [find?]
  cases hi : d.indexOf? key with
  | none => rfl
  | some i =>
    obtain ⟨e, hslot, hused⟩ := slot_of_indexOf? hi
    simp [hslot, hused]

theorem get?_eq (d : Dictionary κ ν) (key : κ) :
    d.get? key = (Entries.find? d.entries key).map Entry.value := by
  rw [← find?_eq, get?]
  cases d.find? key <;> rfl

theorem get?_eq_none {d : Dictionary κ ν} {key : κ} :
    d.get? key = none ↔ ∀ e ∈ d.entries, (e.key == key) = false := by
  rw [get?_eq, Option.map_eq_none_iff, Entries.find?_eq_none]

@[simp] theorem get?_ofCapacity (n : Nat) (key : κ) :
    (ofCapacity n : Dictionary κ ν).get? key = none := by
  rw [get?_eq, entries_ofCapacity]
  rfl

theorem contains_eq (d : Dictionary κ ν) (key : κ) : d.contains key = (d.get? key).isSome := by
  simp only [contains, get?, find?]
  cases hi : d.indexOf? key with
  | none => rfl
  | some i =>
    obtain ⟨e, hslot, -⟩ := slot_of_indexOf? hi
    simp [hslot]

/-! ## Insertion and removal on packed slots -/

theorem indexOf?_packed (es : List (Entry κ ν)) (free : Nat) (key : κ) :
    (packed es free).indexOf? key = es.findIdx? fun e => e.key == key := by
  rw [indexOf?, used_packed, List.findIdx?_map]
  rfl

theorem find?_packed_absent {es : List (Entry κ ν)} {key : κ}
    (h : ∀ e ∈ es, (e.key == key) = false) (free : Nat) : (packed es free).find? key = none := by
  have hi : es.findIdx? (fun e => e.key == key) = none := by simpa using h
  simp [find?, indexOf?_packed, hi]

theorem find?_packed_split {pre post : List (Entry κ ν)} {e : Entry κ ν} {key : κ}
    (hpre : ∀ a ∈ pre, (a.key == key) = false) (he : (e.key == key) = true) (free : Nat) :
    (packed (pre ++ e :: post) free).find? key = some (pre.length, e) := by
  have hnone : pre.findIdx? (fun e => e.key == key) = none := by simpa using hpre
  have hi : (pre ++ e :: post).findIdx? (fun e => e.key == key) = some pre.length := by
    simp [List.findIdx?_append, hnone, List.findIdx?_cons, he]
  simp only [find?, indexOf?_packed, hi]
  simp [packed]

theorem insert_packed_absent {es : List (Entry κ ν)} {key : κ}
    (h : ∀ e ∈ es, (e.key == key) = false) {free : Nat} (hc : 0 < es.length + free) (value : ν) :
    (packed es free).insert key value =
      packed (es ++ [⟨key, value⟩]) (freeAfter es.length free) := by
  rw [insert, find?_packed_absent h]
  exact push_packed hc _

theorem insert_packed_split {pre post : List (Entry κ ν)} {e : Entry κ ν} {key : κ}
    (hpre : ∀ a ∈ pre, (a.key == key) = false) (he : (e.key == key) = true) (free : Nat)
    (value : ν) :
    (packed (pre ++ e :: post) free).insert key value =
      packed (pre ++ ⟨e.key, value⟩ :: post) free := by
  rw [insert, find?_packed_split hpre he]
  simp [packed]

theorem remove_packed_split {pre post : List (Entry κ ν)} {e : Entry κ ν} {key : κ}
    (hpre : ∀ a ∈ pre, (a.key == key) = false) (he : (e.key == key) = true) (free : Nat) :
    (packed (pre ++ e :: post) free).remove key =
      .ok (e.value, packed (pre ++ post) (free + 1)) := by
  rw [remove, find?_packed_split hpre he]
  simp [removeAt, packed, List.eraseIdx_append_of_length_le, List.replicate_succ']

/-! ## Well-formed states -/

theorem wellFormed_packed {es : List (Entry κ ν)} {free : Nat} (hc : 0 < es.length + free)
    (hd : es.Pairwise fun a b => (a.key == b.key) = false) : (packed es free).WellFormed :=
  ⟨⟨free, by rw [entries_packed]⟩, by rwa [capacity_packed], by rwa [entries_packed]⟩

theorem WellFormed.exists_packed {d : Dictionary κ ν} (h : d.WellFormed) :
    ∃ es free, d = packed es free ∧ 0 < es.length + free ∧
      es.Pairwise fun a b => (a.key == b.key) = false := by
  obtain ⟨⟨free, heq⟩, hc, hd⟩ := h
  refine ⟨d.entries, free, heq, ?_, hd⟩
  rwa [heq, capacity_packed] at hc

theorem WellFormed.size_eq {d : Dictionary κ ν} (h : d.WellFormed) :
    d.size = d.entries.length := by
  obtain ⟨es, free, rfl, -, -⟩ := h.exists_packed
  simp

theorem wellFormed_ofCapacity {n : Nat} (h : 0 < n) :
    (ofCapacity n : Dictionary κ ν).WellFormed := by
  have hp : (ofCapacity n : Dictionary κ ν) = packed [] n := by simp [ofCapacity, packed]
  rw [hp]
  exact wellFormed_packed (by simpa using h) (by simp)

theorem WellFormed.insert {d : Dictionary κ ν} (h : d.WellFormed) (key : κ) (value : ν) :
    (d.insert key value).WellFormed ∧
      (d.insert key value).entries = Entries.insert key value d.entries := by
  obtain ⟨es, free, rfl, hc, hd⟩ := h.exists_packed
  cases hf : Entries.find? es key with
  | none =>
    have habs := Entries.find?_eq_none.mp hf
    rw [insert_packed_absent habs hc, entries_packed, entries_packed,
      Entries.insert_of_absent value habs]
    refine ⟨wellFormed_packed (by rw [List.length_append, List.length_singleton]; omega) ?_, rfl⟩
    rw [List.pairwise_append]
    refine ⟨hd, by simp, fun a ha b hb => ?_⟩
    rw [List.mem_singleton] at hb
    subst hb
    exact habs a ha
  | some e =>
    obtain ⟨he, pre, post, rfl, hpre⟩ := Entries.split_of_find? hf
    rw [insert_packed_split hpre he, entries_packed, entries_packed,
      Entries.insert_of_split value hpre he]
    refine ⟨wellFormed_packed (by rw [List.length_append, List.length_cons]; omega) ?_, rfl⟩
    -- Distinctness speaks of keys only, and the keys are the same.
    rw [← List.pairwise_map (f := Entry.key) (R := fun a b => (a == b) = false)] at hd ⊢
    simpa using hd

theorem WellFormed.get?_insert [LawfulBEq κ] {d : Dictionary κ ν} (h : d.WellFormed) (key k : κ)
    (value : ν) : (d.insert key value).get? k = if key == k then some value else d.get? k := by
  rw [get?_eq, get?_eq, (h.insert key value).2, Entries.find?_insert]

/-- The keys are pairwise different, so each entry is the one that its key finds. -/
theorem WellFormed.get?_eq_some [LawfulBEq κ] {d : Dictionary κ ν} (h : d.WellFormed) {key : κ}
    {value : ν} : d.get? key = some value ↔ ⟨key, value⟩ ∈ d.entries := by
  rw [get?_eq, Option.map_eq_some_iff]
  constructor
  · rintro ⟨e, hf, rfl⟩
    have hkey : e.key = key := eq_of_beq (Entries.split_of_find? hf).1
    rw [← hkey]
    exact List.mem_of_find?_eq_some hf
  · intro hmem
    cases hf : Entries.find? d.entries key with
    | none =>
      have hkey : (key == key) = false := Entries.find?_eq_none.mp hf _ hmem
      simp at hkey
    | some e =>
      obtain ⟨he, pre, post, heq, hpre⟩ := Entries.split_of_find? hf
      have hd := heq ▸ h.distinct
      rw [heq, List.mem_append, List.mem_cons] at hmem
      rcases hmem with hmem | rfl | hmem
      · have hkey := hpre _ hmem
        simp at hkey
      · exact ⟨_, rfl, rfl⟩
      · have hkey := (List.pairwise_cons.mp (List.pairwise_append.mp hd).2.1).1 _ hmem
        rw [he] at hkey
        cases hkey

theorem WellFormed.insertMany {d : Dictionary κ ν} (h : d.WellFormed) (pairs : List (κ × ν)) :
    (d.insertMany pairs).WellFormed := by
  induction pairs generalizing d with
  | nil => exact h
  | cons p pairs ih => exact ih (h.insert p.1 p.2).1

theorem wellFormed_ofList {n : Nat} (h : 0 < n) (pairs : List (κ × ν)) :
    (ofList n pairs).WellFormed :=
  (wellFormed_ofCapacity h).insertMany pairs

theorem insertMany_packed (post : List (Entry κ ν)) :
    ∀ (pre : List (Entry κ ν)) (free : Nat),
      (pre ++ post).Pairwise (fun a b => (a.key == b.key) = false) →
        (packed pre (post.length + free)).insertMany (post.map fun e => (e.key, e.value)) =
          packed (pre ++ post) free := by
  induction post with
  | nil =>
    intro pre free _
    simp [Dictionary.insertMany]
  | cons e post ih =>
    intro pre free hd
    have habs : ∀ a ∈ pre, (a.key == e.key) = false := by
      intro a ha
      exact (List.pairwise_append.mp hd).2.2 a ha e List.mem_cons_self
    have hfree : freeAfter pre.length ((e :: post).length + free) = post.length + free := by
      simp only [freeAfter, List.length_cons]
      split <;> omega
    have hinsert : (packed pre ((e :: post).length + free)).insert e.key e.value =
        packed (pre ++ [e]) (post.length + free) := by
      rw [insert_packed_absent habs (by simp only [List.length_cons]; omega), hfree]
    have happend : pre ++ e :: post = (pre ++ [e]) ++ post := by simp
    rw [happend] at hd ⊢
    rw [← ih (pre ++ [e]) free hd, ← hinsert]
    rfl

/-- The well-formed dictionaries are those that storing entries leads to. -/
theorem wellFormed_iff_ofList {d : Dictionary κ ν} :
    d.WellFormed ↔ ∃ n pairs, 0 < n ∧ d = ofList n pairs := by
  constructor
  · intro h
    obtain ⟨es, free, rfl, hc, hd⟩ := h.exists_packed
    refine ⟨es.length + free, es.map fun e => (e.key, e.value), hc, ?_⟩
    have hempty : (ofCapacity (es.length + free) : Dictionary κ ν) =
        packed [] (es.length + free) := by simp [ofCapacity, packed]
    rw [ofList, hempty, insertMany_packed es [] free hd, List.nil_append]
  · rintro ⟨n, pairs, hn, rfl⟩
    exact wellFormed_ofList hn pairs

theorem remove_absent {d : Dictionary κ ν} {key : κ} (h : Entries.find? d.entries key = none) :
    d.remove key = .error (.absent key) := by
  rw [← find?_eq, Option.map_eq_none_iff] at h
  simp [remove, h]

theorem WellFormed.remove {d : Dictionary κ ν} (h : d.WellFormed) {key : κ} {e : Entry κ ν}
    (hf : Entries.find? d.entries key = some e) :
    ∃ d', d.remove key = .ok (e.value, d') ∧ d'.WellFormed ∧
      d'.entries = Entries.erase d.entries key := by
  obtain ⟨es, free, rfl, hc, hd⟩ := h.exists_packed
  rw [entries_packed] at hf ⊢
  obtain ⟨he, pre, post, rfl, hpre⟩ := Entries.split_of_find? hf
  refine ⟨_, remove_packed_split hpre he free, wellFormed_packed (by omega) ?_, ?_⟩
  · exact hd.sublist (List.Sublist.append_left (List.sublist_cons_self e post) pre)
  · rw [entries_packed, Entries.erase_of_split hpre he]

theorem WellFormed.get?_remove [LawfulBEq κ] {d d' : Dictionary κ ν} (h : d.WellFormed) {key k : κ}
    {value : ν} (hr : d.remove key = .ok (value, d')) (hk : key ≠ k) : d'.get? k = d.get? k := by
  cases hf : Entries.find? d.entries key with
  | none =>
    rw [remove_absent hf] at hr
    cases hr
  | some e =>
    obtain ⟨d'', hr', -, hentries⟩ := h.remove hf
    obtain ⟨he, pre, post, heq, hpre⟩ := Entries.split_of_find? hf
    rw [hr] at hr'
    cases hr'
    have hek : ¬ (e.key == k) = true := by
      rw [eq_of_beq he, beq_iff_eq]
      exact hk
    have hskip : (e :: post).find? (fun a => a.key == k) = post.find? fun a => a.key == k :=
      List.find?_cons_of_neg hek
    rw [get?_eq, get?_eq, hentries, heq, Entries.erase_of_split hpre he, Entries.find?, Entries.find?,
      List.find?_append, List.find?_append, hskip]

/-! ## The oldest entry -/

theorem popFirst_empty {d : Dictionary κ ν} (he : d.entries = []) : d.popFirst = .error .empty := by
  simp only [popFirst, keys, he, List.map_nil]

/-- Nothing stands in front of the oldest entry, so its key finds it unless it differs from itself. -/
theorem WellFormed.popFirst_found {d : Dictionary κ ν} (h : d.WellFormed) {e : Entry κ ν} {es : List (Entry κ ν)}
    (he : d.entries = e :: es) (hself : (e.key == e.key) = true) :
    ∃ d', d.popFirst = .ok ((e.key, e.value), d') ∧ d.remove e.key = .ok (e.value, d') ∧ d'.WellFormed ∧
      d'.entries = es := by
  have hfind : Entries.find? d.entries e.key = some e := by
    simp [he, Entries.find?, hself]
  obtain ⟨d', hremove, hwf, hentries⟩ := h.remove hfind
  refine ⟨d', ?_, hremove, hwf, ?_⟩
  · simp only [popFirst, keys, he, List.map_cons, hremove]
  · rw [hentries, he]
    simp [Entries.erase, hself]

end Dictionary
end ArithTree
