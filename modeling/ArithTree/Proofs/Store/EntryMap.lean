import ArithTree.Proofs.Store.Entries

/-!
# ArithTree.Proofs.Store.EntryMap

A list of entries as a map. `Entries.perform` says what an operation answers and leaves behind when
there is nothing but the list: a new key goes to the end, a key that is there keeps its place and
its first spelling, a removal keeps the order of the others, and the oldest entry is the first.

Two lists are the same map if they hold the same keys with equal values, in whatever order
(`SameMap`). A comparison need not look at both lists for this: where no key occurs twice, lists of
the same length are the same map as soon as one holds every key of the other (`sameMap_iff`).
-/

namespace ArithTree

/-- `==` is an equivalence on these keys. -/
structure KeyEquivalence {κ : Type} [BEq κ] (K : κ → Prop) : Prop where
  refl : ∀ a, K a → (a == a) = true
  symm : ∀ a b, K a → K b → (a == b) = true → (b == a) = true
  trans : ∀ a b c, K a → K b → K c → (a == b) = true → (b == c) = true → (a == c) = true

namespace Entries

open Dictionary (Missing Operation Reply)

variable {κ ν : Type} [BEq κ]

def insertMany (pairs : List (κ × ν)) (es : List (Entry κ ν)) : List (Entry κ ν) :=
  pairs.foldl (fun es p => insert p.1 p.2 es) es

/-- The same keys with equal values. Neither order nor spelling of the keys matters. -/
def SameMap [BEq ν] (es fs : List (Entry κ ν)) : Prop :=
  (∀ e ∈ es, ∃ f ∈ fs, (f.key == e.key) = true ∧ (e.value == f.value) = true) ∧
    ∀ f ∈ fs, ∃ e ∈ es, (e.key == f.key) = true

instance [BEq ν] (es fs : List (Entry κ ν)) : Decidable (SameMap es fs) :=
  inferInstanceAs (Decidable
    ((∀ e ∈ es, ∃ f ∈ fs, (f.key == e.key) = true ∧ (e.value == f.value) = true) ∧
      ∀ f ∈ fs, ∃ e ∈ es, (e.key == f.key) = true))

/-- What an operation answers, and the entries that it leaves. -/
def perform [BEq ν] (es : List (Entry κ ν)) :
    Operation κ ν → Except (Missing κ) (Reply κ ν) × List (Entry κ ν)
  | .insert key value => (.ok .done, insert key value es)
  | .get key default? =>
    match find? es key, default? with
    | some e, _ => (.ok (.value e.value), es)
    | none, some v => (.ok (.value v), es)
    | none, none => (.error (.absent key), es)
  | .remove key =>
    match find? es key with
    | some e => (.ok (.value e.value), erase es key)
    | none => (.error (.absent key), es)
  | .contains key => (.ok (.truth (find? es key).isSome), es)
  | .pop key default? =>
    match find? es key, default? with
    | some e, _ => (.ok (.value e.value), erase es key)
    | none, some v => (.ok (.value v), es)
    | none, none => (.error (.absent key), es)
  | .popFirst =>
    match es with
    | [] => (.error .empty, [])
    | e :: rest => (.ok (.pair e.key e.value), rest)
  | .getOrInsert key value =>
    match find? es key with
    | some e => (.ok (.value e.value), es)
    | none => (.ok (.value value), es ++ [⟨key, value⟩])
  | .insertMany pairs => (.ok .done, insertMany pairs es)
  | .clear => (.ok .done, [])
  | .keys => (.ok (.keys (es.map Entry.key)), es)
  | .values => (.ok (.values (es.map Entry.value)), es)
  | .items => (.ok (.items (es.map fun e => (e.key, e.value))), es)
  | .equals pairs => (.ok (.truth (decide (SameMap es (insertMany pairs [])))), es)

/-! ## Entries whose keys are among `K` -/

variable {K : κ → Prop} {es fs : List (Entry κ ν)} {key : κ} {value : ν}

/-- No two entries have equal keys. -/
def Distinct (es : List (Entry κ ν)) : Prop := es.Pairwise fun a b => (a.key == b.key) = false

def Within (K : κ → Prop) (es : List (Entry κ ν)) : Prop := ∀ e ∈ es, K e.key

theorem Within.insert (h : Within K es) (hk : K key) (value : ν) :
    Within K (insert key value es) := by
  intro e he
  rcases mem_insert he with he | ⟨-, hkey | ⟨a, ha, hkey⟩⟩
  · exact h e he
  · exact hkey ▸ hk
  · exact hkey ▸ h a ha

theorem Within.erase (h : Within K es) (key : κ) : Within K (erase es key) :=
  fun e he => h e (List.mem_of_mem_eraseP he)

theorem Distinct.eq_of_key (hK : KeyEquivalence K) (hd : Distinct es) (hes : Within K es)
    {a b : Entry κ ν} (ha : a ∈ es) (hb : b ∈ es) (h : (a.key == b.key) = true) : a = b := by
  induction es with
  | nil => exact absurd ha List.not_mem_nil
  | cons e es ih =>
    obtain ⟨hhead, htail⟩ := List.pairwise_cons.mp hd
    have hKa := hes a ha
    have hKb := hes b hb
    rcases List.mem_cons.mp ha with hae | ha
    · rcases List.mem_cons.mp hb with hbe | hb
      · rw [hae, hbe]
      · rw [hae, hhead b hb] at h
        cases h
    · rcases List.mem_cons.mp hb with hbe | hb
      · have hba := hK.symm _ _ hKa hKb h
        rw [hbe, hhead a ha] at hba
        cases hba
      · exact ih htail (fun e he => hes e (List.mem_cons_of_mem _ he)) ha hb

/-- A key finds the entry whose key is equal to it, because there is no other. -/
theorem find?_of_mem (hK : KeyEquivalence K) (hd : Distinct es) (hes : Within K es)
    {e : Entry κ ν} (he : e ∈ es) (hk : K key) (h : (e.key == key) = true) :
    find? es key = some e := by
  cases hf : find? es key with
  | none =>
    rw [find?_eq_none.mp hf e he] at h
    cases h
  | some f =>
    have hmem : f ∈ es := List.mem_of_find?_eq_some hf
    have hkey : (f.key == key) = true := (split_of_find? hf).1
    have hfe : (f.key == e.key) = true :=
      hK.trans _ _ _ (hes f hmem) hk (hes e he) hkey (hK.symm _ _ (hes e he) hk h)
    rw [hd.eq_of_key hK hes hmem he hfe]

/-- If every key of `es` occurs in `fs`, then `fs` is at least as long, and if it is no longer, all
its keys occur in `es`. By induction on `es`: each of its entries takes up one entry of `fs`. -/
theorem Distinct.covered (hK : KeyEquivalence K) :
    ∀ {es fs : List (Entry κ ν)}, Distinct es → Within K es → Within K fs →
      (∀ e ∈ es, ∃ f ∈ fs, (f.key == e.key) = true) →
      es.length ≤ fs.length ∧
        (fs.length ≤ es.length → ∀ f ∈ fs, ∃ e ∈ es, (e.key == f.key) = true) := by
  intro es
  induction es with
  | nil =>
    intro fs _ _ _ _
    refine ⟨Nat.zero_le _, fun hlen f hf => ?_⟩
    rw [List.length_eq_zero_iff.mp (Nat.le_zero.mp hlen)] at hf
    exact absurd hf List.not_mem_nil
  | cons e es ih =>
    intro fs hd hes hfs hcover
    obtain ⟨hhead, htail⟩ := List.pairwise_cons.mp hd
    have hKe : K e.key := hes e List.mem_cons_self
    have hKes : Within K es := fun a ha => hes a (List.mem_cons_of_mem e ha)
    obtain ⟨f, hf, hfe⟩ := hcover e List.mem_cons_self
    have hKf := hfs f hf
    have hef : (e.key == f.key) = true := hK.symm _ _ hKf hKe hfe
    obtain ⟨pre, post, rfl⟩ := List.append_of_mem hf
    have hmid : ∀ g, g ∈ pre ++ f :: post ↔ g = f ∨ g ∈ pre ++ post := fun g =>
      List.perm_middle.mem_iff.trans List.mem_cons
    have hcover' : ∀ a ∈ es, ∃ g ∈ pre ++ post, (g.key == a.key) = true := by
      intro a ha
      obtain ⟨g, hg, hga⟩ := hcover a (List.mem_cons_of_mem e ha)
      rcases (hmid g).mp hg with rfl | hg
      · have hea := hK.trans _ _ _ hKe hKf (hKes a ha) hef hga
        rw [hhead a ha] at hea
        cases hea
      · exact ⟨g, hg, hga⟩
    obtain ⟨hle, hback⟩ := ih htail hKes (fun a ha => hfs a ((hmid a).mpr (.inr ha))) hcover'
    simp only [List.length_append, List.length_cons] at hle hback ⊢
    refine ⟨by omega, fun hlen g hg => ?_⟩
    rcases (hmid g).mp hg with rfl | hg
    · exact ⟨e, List.mem_cons_self, hef⟩
    · obtain ⟨a, ha, hag⟩ := hback (by omega) g hg
      exact ⟨a, List.mem_cons_of_mem e ha, hag⟩

/-- Comparing the lengths takes the place of a search in the other direction. -/
theorem sameMap_iff [BEq ν] (hK : KeyEquivalence K) (hes : Distinct es) (hfs : Distinct fs)
    (hKes : Within K es) (hKfs : Within K fs) :
    SameMap es fs ↔ es.length = fs.length ∧
      ∀ e ∈ es, ∃ f, find? fs e.key = some f ∧ (e.value == f.value) = true := by
  constructor
  · rintro ⟨hcover, hback⟩
    have hle := (hes.covered hK hKes hKfs fun e he =>
      let ⟨f, hf, hfe, _⟩ := hcover e he
      ⟨f, hf, hfe⟩).1
    have hge := (hfs.covered hK hKfs hKes hback).1
    refine ⟨Nat.le_antisymm hle hge, fun e he => ?_⟩
    obtain ⟨f, hf, hfe, hvalue⟩ := hcover e he
    exact ⟨f, find?_of_mem hK hfs hKfs hf (hKes e he) hfe, hvalue⟩
  · rintro ⟨hlen, hfind⟩
    have hcover : ∀ e ∈ es, ∃ f ∈ fs, (f.key == e.key) = true ∧ (e.value == f.value) = true := by
      intro e he
      obtain ⟨f, hf, hvalue⟩ := hfind e he
      exact ⟨f, List.mem_of_find?_eq_some hf, (split_of_find? hf).1, hvalue⟩
    refine ⟨hcover, (hes.covered hK hKes hKfs fun e he => ?_).2 (Nat.le_of_eq hlen.symm)⟩
    obtain ⟨f, hf, hfe, -⟩ := hcover e he
    exact ⟨f, hf, hfe⟩

end Entries
end ArithTree
