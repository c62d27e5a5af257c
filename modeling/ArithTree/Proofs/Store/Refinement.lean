import ArithTree.Proofs.Datum.Equality
import ArithTree.Proofs.Store.EntryMap

/-!
# ArithTree.Proofs.Store.Refinement

The dictionary does what a list of entries does. Every operation answers as `Entries.perform` does on
the entries, and leaves a well-formed dictionary with the entries that `Entries.perform` leaves. The
keys have to be such that `==` is an equivalence on them: what is stored under a key is then found
by it, so that the listing and the removal of the oldest entry, which go by keys, cannot miss.

* `Refines`: the relation between a dictionary and a list of entries.
* `Refines.perform`: one operation.
* `runAll_refines`: any number of operations on a dictionary made from any entries.
-/

namespace ArithTree

/-- Data without a NaN as keys. -/
theorem Datum.keyEquivalence : KeyEquivalence (fun k : Datum => (k == k) = true) where
  refl _ h := h
  symm _ _ _ _ h := same_symm h
  trans _ _ _ _ _ _ h h' := same_trans h h'

namespace Dictionary

variable {κ ν : Type}

/-- The keys that an operation speaks of. -/
def Operation.named : Operation κ ν → List κ
  | .insert key _ | .get key _ | .remove key | .contains key | .pop key _ | .getOrInsert key _ =>
    [key]
  | .insertMany pairs | .equals pairs => pairs.map Prod.fst
  | .popFirst | .clear | .keys | .values | .items => []

/-- Carries out operations in order, with `perform` for one of them, and lists their results. -/
def runAll {σ : Type} (perform : σ → Operation κ ν → Except (Missing κ) (Reply κ ν) × σ) (s : σ) :
    List (Operation κ ν) → List (Except (Missing κ) (Reply κ ν)) × σ
  | [] => ([], s)
  | op :: ops =>
    let (result, s) := perform s op
    let (results, s) := runAll perform s ops
    (result :: results, s)

variable [BEq κ]

/-- Exactly the slots below the size hold entries, and no two entries have equal keys. -/
structure Tidy (d : Dictionary κ ν) : Prop where
  size_le : d.size ≤ d.capacity
  filled : ∀ i, i < d.size → ∃ e, d.slots[i]? = some (some e)
  vacant : ∀ i, d.size ≤ i → i < d.capacity → d.slots[i]? = some none
  distinct : ∀ (i j : Nat) (a b : Entry κ ν), i ≠ j → d.slots[i]? = some (some a) →
    d.slots[j]? = some (some b) → (a.key == b.key) = false

/-- A dictionary that holds these entries, all of them with keys among `K`. -/
structure Refines (K : κ → Prop) (d : Dictionary κ ν) (es : List (Entry κ ν)) : Prop where
  wellFormed : d.WellFormed
  entries : d.entries = es
  within : Entries.Within K es

namespace Refines

variable {K : κ → Prop} {d d' : Dictionary κ ν} {es fs : List (Entry κ ν)} {key : κ} {e : Entry κ ν}

theorem distinct (h : Refines K d es) : Entries.Distinct es := h.entries ▸ h.wellFormed.distinct

theorem getElem?_of_slot (h : Refines K d es) {i : Nat} (hi : d.slots[i]? = some (some e)) :
    es[i]? = some e := by
  obtain ⟨free, heq⟩ := h.wellFormed.eq_packed
  rw [heq, h.entries, packed, List.getElem?_append] at hi
  split at hi
  · simpa using hi
  · simp [List.getElem?_replicate] at hi

theorem tidy (hK : KeyEquivalence K) (h : Refines K d es) : d.Tidy := by
  obtain ⟨free, heq⟩ := h.wellFormed.eq_packed
  rw [h.entries] at heq
  have hsize : d.size = es.length := by rw [heq, size_packed]
  have hcapacity : d.capacity = es.length + free := by rw [heq, capacity_packed]
  refine ⟨by omega, fun i hi => ?_, fun i hi hi' => ?_, fun i j a b hij ha hb => ?_⟩
  · have hin : i < es.length := by omega
    exact ⟨es[i], by simp [heq, packed, List.getElem?_append, hin]⟩
  · have hout : ¬ i < es.length := by omega
    have hfree : i - es.length < free := by omega
    simp [heq, packed, List.getElem?_append, hout, hfree]
  · obtain ⟨hi, rfl⟩ := List.getElem?_eq_some_iff.mp (h.getElem?_of_slot ha)
    obtain ⟨hj, rfl⟩ := List.getElem?_eq_some_iff.mp (h.getElem?_of_slot hb)
    have hpair := List.pairwise_iff_getElem.mp h.distinct
    rcases Nat.lt_or_gt_of_ne hij with hlt | hgt
    · exact hpair i j hi hj hlt
    · have hKi := h.within es[i] (List.getElem_mem hi)
      have hKj := h.within es[j] (List.getElem_mem hj)
      rw [Bool.eq_false_iff]
      intro hsame
      have hback := hK.symm _ _ hKi hKj hsame
      rw [hpair j i hj hi hgt] at hback
      cases hback

/-! ## Single keys -/

theorem get?_eq (h : Refines K d es) (key : κ) : d.get? key = (Entries.find? es key).map Entry.value := by
  rw [Dictionary.get?_eq, h.entries]

theorem insert (h : Refines K d es) (hk : K key) (value : ν) :
    Refines K (d.insert key value) (Entries.insert key value es) := by
  obtain ⟨hwf, hentries⟩ := h.wellFormed.insert key value
  exact ⟨hwf, by rw [hentries, h.entries], h.within.insert hk value⟩

theorem insertMany {pairs : List (κ × ν)} (hp : ∀ p ∈ pairs, K p.1) :
    ∀ {d : Dictionary κ ν} {es : List (Entry κ ν)}, Refines K d es →
      Refines K (d.insertMany pairs) (Entries.insertMany pairs es) := by
  induction pairs with
  | nil =>
    intro d es h
    exact h
  | cons p pairs ih =>
    intro d es h
    exact ih (fun q hq => hp q (List.mem_cons_of_mem p hq))
      (h.insert (hp p List.mem_cons_self) p.2)

theorem ofList {n : Nat} (hn : 0 < n) {pairs : List (κ × ν)} (hp : ∀ p ∈ pairs, K p.1) :
    Refines K (ofList n pairs) (Entries.insertMany pairs []) := by
  have hnone : Entries.Within K ([] : List (Entry κ ν)) := fun _ he => absurd he List.not_mem_nil
  exact insertMany hp ⟨wellFormed_ofCapacity hn, entries_ofCapacity n, hnone⟩

theorem remove_absent (h : Refines K d es) (hf : Entries.find? es key = none) :
    d.remove key = .error (.absent key) :=
  Dictionary.remove_absent (h.entries ▸ hf)

theorem remove_found (h : Refines K d es) (hf : Entries.find? es key = some e) :
    ∃ d', d.remove key = .ok (e.value, d') ∧ Refines K d' (Entries.erase es key) := by
  obtain ⟨d', hremove, hwf, hentries⟩ := h.wellFormed.remove (h.entries ▸ hf)
  exact ⟨d', hremove, hwf, by rw [hentries, h.entries], h.within.erase key⟩

/-! ## All entries -/

theorem keys_eq (h : Refines K d es) : d.keys = es.map Entry.key := by
  rw [Dictionary.keys, h.entries]

/-- The value of every listed key is found. -/
theorem lookupAll_eq (hK : KeyEquivalence K) (h : Refines K d es) :
    ∀ fs : List (Entry κ ν), (∀ e ∈ fs, e ∈ es) →
      d.lookupAll (fs.map Entry.key) = .ok (fs.map Entry.value) := by
  intro fs
  induction fs with
  | nil =>
    intro _
    rfl
  | cons e fs ih =>
    intro hmem
    have he : e ∈ es := hmem e List.mem_cons_self
    have hKe : K e.key := h.within e he
    have hfind : Entries.find? es e.key = some e :=
      Entries.find?_of_mem hK h.distinct h.within he hKe (hK.refl _ hKe)
    have hlookup : d.lookup e.key = .ok e.value := by
      simp only [lookup, h.get?_eq, hfind, Option.map_some]
    have hrest := ih fun a ha => hmem a (List.mem_cons_of_mem e ha)
    simp only [List.map_cons, lookupAll, hlookup, hrest]

theorem values_eq (hK : KeyEquivalence K) (h : Refines K d es) : d.values = .ok (es.map Entry.value) := by
  rw [values, h.keys_eq]
  exact h.lookupAll_eq hK es fun _ he => he

theorem items_eq (hK : KeyEquivalence K) (h : Refines K d es) :
    d.items = .ok (es.map fun e => (e.key, e.value)) := by
  simp only [items, h.values_eq hK, h.keys_eq, List.zip_map']

theorem equals_eq [BEq ν] (hK : KeyEquivalence K) (h : Refines K d es) (h' : Refines K d' fs) :
    d.equals d' = .ok (decide (Entries.SameMap es fs)) := by
  have hsame := Entries.sameMap_iff hK h.distinct h'.distinct h.within h'.within
  simp only [equals, h.items_eq hK, h'.items_eq hK, List.length_map, List.all_map]
  rw [Except.ok.injEq, Bool.eq_iff_iff, decide_eq_true_iff, hsame, Bool.and_eq_true, beq_iff_eq,
    List.all_eq_true]
  refine and_congr_right fun _ => forall_congr' fun e => imp_congr_right fun _ => ?_
  simp only [Function.comp_apply, h'.get?_eq]
  cases Entries.find? fs e.key with
  | none => simp
  | some f => simp

/-! ## The oldest entry -/

theorem popFirst_nil (h : Refines K d ([] : List (Entry κ ν))) : d.popFirst = .error .empty :=
  popFirst_empty h.entries

theorem popFirst_cons (hK : KeyEquivalence K) (h : Refines K d (e :: es)) :
    ∃ d', d.popFirst = .ok ((e.key, e.value), d') ∧ Refines K d' es := by
  have hself : (e.key == e.key) = true := hK.refl _ (h.within e List.mem_cons_self)
  obtain ⟨d', hpop, -, hwf, hentries⟩ := h.wellFormed.popFirst_found h.entries hself
  exact ⟨d', hpop, hwf, hentries, fun a ha => h.within a (List.mem_cons_of_mem e ha)⟩

theorem drain (hK : KeyEquivalence K) :
    ∀ {es : List (Entry κ ν)} {n : Nat} {d : Dictionary κ ν}, Refines K d es → es.length ≤ n →
      Refines K (d.drain n) [] := by
  intro es
  induction es with
  | nil =>
    intro n d h _
    cases n with
    | zero => exact h
    | succ n => simpa only [Dictionary.drain, h.popFirst_nil] using h
  | cons e es ih =>
    intro n d h hn
    cases n with
    | zero => exact absurd hn (by simp)
    | succ n =>
      obtain ⟨d', hpop, hd'⟩ := h.popFirst_cons hK
      simp only [Dictionary.drain, hpop]
      exact ih hd' (by simpa using hn)

theorem clear (hK : KeyEquivalence K) (h : Refines K d es) : Refines K d.clear [] :=
  h.drain hK (Nat.le_of_eq (by rw [h.wellFormed.size_eq, h.entries]))

/-! ## Operations -/

theorem perform [BEq ν] (hK : KeyEquivalence K) (h : Refines K d es) {op : Operation κ ν}
    (hop : ∀ k ∈ op.named, K k) :
    (d.perform op).1 = (Entries.perform es op).1 ∧
      Refines K (d.perform op).2 (Entries.perform es op).2 := by
  cases op with
  | insert key value => exact ⟨rfl, h.insert (hop key (by simp [Operation.named])) value⟩
  | get key default? =>
    simp only [Dictionary.perform, Entries.perform, h.get?_eq]
    cases Entries.find? es key with
    | some e => exact ⟨rfl, h⟩
    | none => cases default? <;> exact ⟨rfl, h⟩
  | remove key =>
    cases hf : Entries.find? es key with
    | some e =>
      obtain ⟨d', hremove, hd'⟩ := h.remove_found hf
      simp only [Dictionary.perform, Entries.perform, hremove, hf]
      exact ⟨trivial, hd'⟩
    | none =>
      simp only [Dictionary.perform, Entries.perform, h.remove_absent hf, hf]
      exact ⟨trivial, h⟩
  | contains key =>
    simp only [Dictionary.perform, Entries.perform, contains_eq, h.get?_eq, Option.isSome_map]
    exact ⟨trivial, h⟩
  | pop key default? =>
    cases hf : Entries.find? es key with
    | some e =>
      obtain ⟨d', hremove, hd'⟩ := h.remove_found hf
      simp only [Dictionary.perform, Entries.perform, pop, hremove, hf]
      exact ⟨trivial, hd'⟩
    | none =>
      simp only [Dictionary.perform, Entries.perform, pop, h.remove_absent hf, hf]
      cases default? <;> exact ⟨rfl, h⟩
  | popFirst =>
    cases es with
    | nil =>
      simp only [Dictionary.perform, Entries.perform, h.popFirst_nil]
      exact ⟨trivial, h⟩
    | cons e es =>
      obtain ⟨d', hpop, hd'⟩ := h.popFirst_cons hK
      simp only [Dictionary.perform, Entries.perform, hpop]
      exact ⟨trivial, hd'⟩
  | getOrInsert key value =>
    cases hf : Entries.find? es key with
    | some e =>
      simp only [Dictionary.perform, Entries.perform, getOrInsert, h.get?_eq, hf, Option.map_some]
      exact ⟨trivial, h⟩
    | none =>
      simp only [Dictionary.perform, Entries.perform, getOrInsert, h.get?_eq, hf, Option.map_none]
      rw [← Entries.insert_of_absent value (Entries.find?_eq_none.mp hf)]
      exact ⟨trivial, h.insert (hop key (by simp [Operation.named])) value⟩
  | insertMany pairs =>
    refine ⟨rfl, h.insertMany fun p hp => hop p.1 ?_⟩
    exact List.mem_map_of_mem hp
  | clear => exact ⟨rfl, h.clear hK⟩
  | keys =>
    simp only [Dictionary.perform, Entries.perform, h.keys_eq]
    exact ⟨trivial, h⟩
  | values =>
    simp only [Dictionary.perform, Entries.perform, h.values_eq hK]
    exact ⟨trivial, h⟩
  | items =>
    simp only [Dictionary.perform, Entries.perform, h.items_eq hK]
    exact ⟨trivial, h⟩
  | equals pairs =>
    have hother : Refines K (Dictionary.ofList 1 pairs) (Entries.insertMany pairs []) :=
      ofList Nat.one_pos fun p hp => hop p.1 (List.mem_map_of_mem hp)
    simp only [Dictionary.perform, Entries.perform, h.equals_eq hK hother]
    exact ⟨trivial, h⟩

theorem runAll [BEq ν] (hK : KeyEquivalence K) (ops : List (Operation κ ν)) :
    ∀ {d : Dictionary κ ν} {es : List (Entry κ ν)}, Refines K d es →
      (∀ op ∈ ops, ∀ k ∈ op.named, K k) →
      (runAll Dictionary.perform d ops).1 = (Dictionary.runAll Entries.perform es ops).1 ∧
        Refines K (Dictionary.runAll Dictionary.perform d ops).2
          (Dictionary.runAll Entries.perform es ops).2 := by
  induction ops with
  | nil =>
    intro d es h _
    exact ⟨rfl, h⟩
  | cons op ops ih =>
    intro d es h hops
    obtain ⟨hresult, hstep⟩ := h.perform hK (hops op List.mem_cons_self)
    obtain ⟨hresults, hrun⟩ := ih hstep fun o ho => hops o (List.mem_cons_of_mem op ho)
    simp only [Dictionary.runAll, hresult, hresults]
    exact ⟨trivial, hrun⟩

end Refines

/-- An operation that fails changes nothing. -/
theorem perform_failed [BEq ν] {d : Dictionary κ ν} {op : Operation κ ν} {m : Missing κ}
    (h : (d.perform op).1 = .error m) : (d.perform op).2 = d := by
  cases op with
  | insert key value => cases h
  | get key default? =>
    simp only [perform] at h ⊢
    split <;> rfl
  | remove key =>
    simp only [perform] at h ⊢
    split at h
    · cases h
    · rfl
  | contains key => cases h
  | pop key default? =>
    simp only [perform] at h ⊢
    split at h
    · cases h
    · rfl
  | popFirst =>
    simp only [perform] at h ⊢
    split at h
    · cases h
    · rfl
  | getOrInsert key value => cases h
  | insertMany pairs => cases h
  | clear => cases h
  | keys => cases h
  | values =>
    simp only [perform] at h ⊢
    split <;> rfl
  | items =>
    simp only [perform] at h ⊢
    split <;> rfl
  | equals pairs =>
    simp only [perform] at h ⊢
    split <;> rfl

/-- A dictionary and a list of entries after the same operations: both have given the same results
and hold the same entries, and what the slots of the dictionary were before cannot be seen. -/
structure SameRun [BEq ν] (K : κ → Prop)
    (r : List (Except (Missing κ) (Reply κ ν)) × Dictionary κ ν)
    (r' : List (Except (Missing κ) (Reply κ ν)) × List (Entry κ ν)) : Prop where
  results : r.1 = r'.1
  entries : r.2.entries = r'.2
  tidy : r.2.Tidy
  failed : ∀ op m, (r.2.perform op).1 = .error m → (r.2.perform op).2 = r.2
  equals : ∀ d, d.WellFormed → Entries.Within K d.entries →
    r.2.equals d = .ok (decide (Entries.SameMap r'.2 d.entries))

theorem runAll_refines [BEq ν] {K : κ → Prop} (hK : KeyEquivalence K) {n : Nat} (hn : 0 < n)
    {pairs : List (κ × ν)} (hpairs : ∀ p ∈ pairs, K p.1) {ops : List (Operation κ ν)}
    (hops : ∀ op ∈ ops, ∀ k ∈ op.named, K k) :
    SameRun K (runAll perform (ofList n pairs) ops)
      (runAll Entries.perform (Entries.insertMany pairs []) ops) := by
  obtain ⟨hresults, hrun⟩ := Refines.runAll hK ops (Refines.ofList hn hpairs) hops
  exact ⟨hresults, hrun.entries, hrun.tidy hK, fun op m => perform_failed,
    fun d hd hwithin => hrun.equals_eq hK ⟨hd, rfl, hwithin⟩⟩

/-- One key in three spellings, a zero under both signs, and a tree. -/
def spellings : List (Operation Datum Datum) :=
  [.insert (.scalar (.integer 1)) (.scalar (.text "one")), .insert (.tree (.num 0)) (.scalar .nothing),
    .insert (.scalar (.double 1)) (.scalar (.text "uno")), .get (.scalar (.truth true)) none,
    .getOrInsert (.scalar (.double 0)) (.tree (.var "x")), .remove (.scalar (.double (-0))),
    .contains (.tree (.num (-0))), .equals [(.tree (.num (-0)), .scalar .nothing),
      (.scalar (.truth true), .scalar (.text "uno"))],
    .values, .popFirst, .pop (.scalar (.integer 1)) none, .clear, .popFirst]

theorem runAll_refines_spellings :
    KeyEquivalence (fun k : Datum => (k == k) = true) ∧ 0 < 1 ∧
      (∀ p ∈ [((.scalar (.text "a") : Datum), (.scalar .nothing : Datum))], (p.1 == p.1) = true) ∧
      (∀ op ∈ spellings, ∀ k ∈ op.named, (k == k) = true) ∧
      SameRun (fun k : Datum => (k == k) = true)
        (runAll perform (ofList 1 [(.scalar (.text "a"), .scalar .nothing)]) spellings)
        (runAll Entries.perform (Entries.insertMany [(.scalar (.text "a"), .scalar .nothing)] [])
          spellings) :=
  have hpairs : ∀ p ∈ [((.scalar (.text "a") : Datum), (.scalar .nothing : Datum))],
      (p.1 == p.1) = true := by decide
  have hops : ∀ op ∈ spellings, ∀ k ∈ op.named, (k == k) = true := by decide
  ⟨Datum.keyEquivalence, Nat.one_pos, hpairs, hops,
    runAll_refines Datum.keyEquivalence Nat.one_pos hpairs hops⟩

end Dictionary
end ArithTree
