import ArithTree.Proofs.Store.Prefix
import Mathlib.Algebra.Order.Ring.Nat

/-!
# ArithTree.Proofs.Store.Listing

A buffer of samples does what a plain list of doubles does. `Listing` has the operations on such a list, where an
index below zero reads the list from its end. Each operation answers as it does on the list in front of the buffer,
and leaves the list that it leaves there, so neither the size of the buffer nor what its other places hold shows.

* `place_ok`, `place_error`, `get_eq`, `set_eq`: indices.
* `perform_eq`: one operation.
* `Grown`: the sizes that a buffer can have. It doubles only when it is full, also for a number that is then refused.
* `runAll_follows`: any number of operations on a buffer made from any numbers.
-/

namespace ArithTree
namespace Samples

/-- Carries out operations in order, with `perform` for one of them, and lists their results. -/
def runAll {σ : Type} (perform : σ → Operation → Except Misuse Reply × σ) (s : σ) :
    List Operation → List (Except Misuse Reply) × σ
  | [] => ([], s)
  | op :: ops =>
    let (result, s) := perform s op
    let (results, s) := runAll perform s ops
    (result :: results, s)

/-! ## A plain list -/

namespace Listing

/-- The double at an index; a negative index counts from the end. -/
def at? (xs : List Float) : Int → Option Float
  | .ofNat i => xs[i]?
  | .negSucc i => xs.reverse[i]?

/-- The list with another double at an index. -/
def replace (xs : List Float) (index : Int) (x : Float) : List Float :=
  match index with
  | .ofNat i => xs.set i x
  | .negSucc i => (xs.reverse.set i x).reverse

/-- The place of an index, counted from the front. -/
def fromFront (size : Nat) (index : Int) : Int := if index < 0 then index + size else index

/-- The refusal of an index, which reports its place. -/
def outside (xs : List Float) (index : Int) : Misuse := .indexOutOfRange (fromFront xs.length index) xs.length

/-- Appends numbers as long as they fit. -/
def extend (xs : List Float) : List Number → Except Misuse Unit × List Float
  | [] => (.ok (), xs)
  | n :: ns =>
    match n.toDouble? with
    | some x => extend (xs ++ [x]) ns
    | none => (.error .integerTooLarge, xs)

/-- What an operation answers, and the list that it leaves. -/
def perform (xs : List Float) : Operation → Except Misuse Reply × List Float
  | .append n =>
    match n.toDouble? with
    | some x => (.ok .done, xs ++ [x])
    | none => (.error .integerTooLarge, xs)
  | .extend ns => ((extend xs ns).1.map fun _ => .done, (extend xs ns).2)
  | .get index =>
    match at? xs index with
    | some x => (.ok (.sample x), xs)
    | none => (.error (outside xs index), xs)
  | .set index n =>
    match at? xs index, n.toDouble? with
    | some _, some x => (.ok .done, replace xs index x)
    | some _, none => (.error .integerTooLarge, xs)
    | none, _ => (.error (outside xs index), xs)
  | .list => (.ok (.listing xs), xs)
  | .overwrite => (.error .readOnly, xs)

/-- The index counts a double of the list, from the front or from the end. -/
def InRange (xs : List Float) (index : Int) : Prop := -xs.length ≤ index ∧ index < xs.length

variable {xs : List Float} {index : Int}

theorem at?_isSome : (at? xs index).isSome = true ↔ InRange xs index := by
  cases index with
  | ofNat i =>
    simp only [at?, InRange, isSome_getElem?, Int.ofNat_eq_natCast]
    omega
  | negSucc i =>
    simp only [at?, InRange, isSome_getElem?, List.length_reverse]
    omega

/-- Counted from the end is counted from the front of the list turned round. -/
theorem reverse_set {i : Nat} (hi : i < xs.length) (x : Float) :
    (xs.reverse.set i x).reverse = xs.set (xs.length - 1 - i) x := by
  refine List.ext_getElem? fun j => ?_
  by_cases hj : j < xs.length
  · have hturn : i = xs.length - 1 - j ↔ xs.length - 1 - i = j := by omega
    have hback : xs.length - 1 - (xs.length - 1 - j) = j := by omega
    have hfront : xs.length - 1 - i < xs.length := by omega
    have hlength : (xs.reverse.set i x).length = xs.length := by simp
    rw [List.getElem?_reverse (hlength ▸ hj), hlength, List.getElem?_set, List.getElem?_set, List.length_reverse,
      List.getElem?_reverse (by omega), hback, if_pos hi, if_pos hfront]
    simp only [hturn]
  · rw [List.getElem?_eq_none (by simpa using hj), List.getElem?_eq_none (by simpa using hj)]

theorem at?_eq (h : InRange xs index) : at? xs index = xs[(fromFront xs.length index).toNat]? := by
  obtain ⟨hlow, hhigh⟩ := h
  cases index with
  | ofNat i => rfl
  | negSucc i =>
    have hplace : (fromFront xs.length (.negSucc i)).toNat = xs.length - 1 - i := by
      simp only [fromFront]
      omega
    rw [at?, List.getElem?_reverse (by omega), hplace]

theorem replace_eq (h : InRange xs index) (x : Float) :
    replace xs index x = xs.set (fromFront xs.length index).toNat x := by
  obtain ⟨hlow, hhigh⟩ := h
  cases index with
  | ofNat i => rfl
  | negSucc i =>
    have hplace : (fromFront xs.length (.negSucc i)).toNat = xs.length - 1 - i := by
      simp only [fromFront]
      omega
    rw [replace, reverse_set (by omega), hplace]

theorem inRange_of_at? {x : Float} (h : at? xs index = some x) : InRange xs index :=
  at?_isSome.mp (Option.isSome_of_eq_some h)

theorem not_inRange_of_at? (h : at? xs index = none) : ¬ InRange xs index := by
  rw [← at?_isSome, h]
  exact Bool.false_ne_true

theorem exists_get_ok : (∃ reply, (perform xs (.get index)).1 = .ok reply) ↔ InRange xs index := by
  rw [← at?_isSome]
  cases hx : at? xs index with
  | none => simp [perform, hx]
  | some x => simp [perform, hx]

theorem exists_set_ok {n : Number} :
    (∃ reply, (perform xs (.set index n)).1 = .ok reply) ↔ InRange xs index ∧ n.toDouble?.isSome = true := by
  rw [← at?_isSome]
  cases hx : at? xs index with
  | none => simp [perform, hx]
  | some x =>
    cases hn : n.toDouble? with
    | none => simp [perform, hx, hn]
    | some y => simp [perform, hx, hn]

/-- Of several numbers to append, those before the first that does not fit are appended all the same. -/
theorem perform_failed {op : Operation} {m : Misuse} (hop : ∀ ns, op ≠ .extend ns)
    (h : (perform xs op).1 = .error m) : (perform xs op).2 = xs := by
  cases op with
  | append n =>
    simp only [perform] at h ⊢
    split at h
    · cases h
    · rfl
  | extend ns => exact absurd rfl (hop ns)
  | get index =>
    simp only [perform]
    split <;> rfl
  | set index n =>
    simp only [perform] at h ⊢
    split at h
    · cases h
    · rfl
    · rfl
  | list => rfl
  | overwrite => rfl

/-- Numbers that fit are all appended, and of others the first that does not fit is refused. -/
theorem extend_cases (ns : List Number) :
    ∀ xs, (∃ ys, ns.map Number.toDouble? = ys.map some ∧ extend xs ns = (.ok (), xs ++ ys)) ∨
      (none ∈ ns.map Number.toDouble? ∧ (extend xs ns).1 = .error .integerTooLarge) := by
  induction ns with
  | nil => exact fun xs => .inl ⟨[], rfl, by simp [extend]⟩
  | cons n ns ih =>
    intro xs
    cases hn : n.toDouble? with
    | none => exact .inr (by simp [extend, hn])
    | some x =>
      obtain ⟨ys, hys, hextend⟩ | ⟨hmem, hextend⟩ := ih (xs ++ [x])
      · refine .inl ⟨x :: ys, ?_, ?_⟩
        · rw [List.map_cons, hn, hys, List.map_cons]
        · simp only [extend, hn, hextend, List.append_assoc, List.singleton_append]
      · refine .inr ⟨List.mem_cons_of_mem _ hmem, ?_⟩
        simp only [extend, hn, hextend]

end Listing

open Listing

variable {c : Nat} {s : Samples} {xs : List Float} {index : Int} {x y : Float} {n : Number}

/-! ## Sizes of the buffer -/

/-- The buffer began with `c` places and has doubled some times, but is no more than twice as long as its samples
need. -/
structure Grown (c : Nat) (s : Samples) : Prop where
  wellFormed : s.WellFormed
  doubled : ∃ k, s.capacity = c * 2 ^ k
  capacity_le : s.capacity ≤ max c (2 * s.size)

namespace Grown

variable [Numerics]

theorem ofCapacity (capacity : Int) : Grown (max 1 capacity).toNat (ofCapacity capacity) where
  wellFormed := wellFormed_ofCapacity capacity
  doubled := ⟨0, by simp [Samples.ofCapacity, Samples.capacity]⟩
  capacity_le := by simp [Samples.ofCapacity, Samples.capacity]

/-- A full buffer holds as many samples as it has places, so it may double even if nothing is appended then. -/
theorem reserve (h : Grown c s) : Grown c s.reserve := by
  by_cases hfull : s.size = s.buffer.size
  · have hreserve : s.reserve =
        ⟨s.buffer ++ unwritten (s.buffer.size + s.buffer.size) s.buffer.size, s.size⟩ := by
      rw [Samples.reserve, if_pos hfull]
    have hcapacity : s.reserve.capacity = 2 * s.capacity := by
      simp only [hreserve, capacity, Array.size_append, size_unwritten]
      omega
    have hroom := h.wellFormed.room
    obtain ⟨k, hk⟩ := h.doubled
    refine ⟨⟨?_, ?_⟩, ⟨k + 1, ?_⟩, ?_⟩
    · exact Nat.le_of_lt (reserve_size s ▸ reserve_room h.wellFormed)
    · exact Nat.lt_of_le_of_lt (Nat.zero_le _) (reserve_room h.wellFormed)
    · rw [hcapacity, hk, Nat.pow_succ', Nat.mul_left_comm]
    · rw [hcapacity, reserve_size, capacity, ← hfull]
      exact Nat.le_max_right ..
  · have hreserve : s.reserve = s := by rw [Samples.reserve, if_neg hfull]
    rwa [hreserve]

theorem push (h : Grown c s) (x : Float) : Grown c (s.push x) := by
  obtain ⟨-, ⟨k, hk⟩, hle⟩ := h.reserve
  have hcapacity : (s.push x).capacity = s.reserve.capacity := by
    simp only [Samples.push, capacity, Array.size_setIfInBounds]
  refine ⟨h.wellFormed.push x, ⟨k, by rw [hcapacity, hk]⟩, ?_⟩
  rw [reserve_size] at hle
  rw [hcapacity]
  show s.reserve.capacity ≤ max c (2 * (s.reserve.size + 1))
  rw [reserve_size]
  omega

end Grown

/-! ## Operations -/

/-- A buffer that began with `c` places and has these doubles in front. -/
structure Holds (c : Nat) (s : Samples) (xs : List Float) : Prop where
  grown : Grown c s
  toList : s.toList = xs

namespace Holds

theorem size_eq (h : Holds c s xs) : s.size = xs.length := by
  rw [← h.toList, length_toList h.grown.wellFormed]

theorem place_ok (h : Holds c s xs) (hi : InRange xs index) :
    s.place index = .ok (fromFront xs.length index).toNat := by
  obtain ⟨hlow, hhigh⟩ := hi
  simp only [place, fromFront, h.size_eq]
  rw [if_pos (by split <;> omega)]

theorem place_error (h : Holds c s xs) (hi : ¬ InRange xs index) : s.place index = .error (outside xs index) := by
  simp only [InRange] at hi
  simp only [place, outside, fromFront, h.size_eq]
  rw [if_neg (by split <;> omega)]

theorem buffer_getD (h : Holds c s xs) {i : Nat} (hi : xs[i]? = some x) : s.buffer.getD i 0 = x := by
  rw [← h.toList, Samples.toList, List.getElem?_take] at hi
  split at hi
  · rw [Array.getD_eq_getD_getElem?, ← Array.getElem?_toList, hi, Option.getD_some]
  · cases hi

theorem get_ok (h : Holds c s xs) (hx : at? xs index = some x) : s.get index = .ok x := by
  have hi := inRange_of_at? hx
  rw [at?_eq hi] at hx
  simp only [get, h.place_ok hi, h.buffer_getD hx]

theorem get_error (h : Holds c s xs) (hi : ¬ InRange xs index) : s.get index = .error (outside xs index) := by
  simp only [get, h.place_error hi]

theorem set_ok (h : Holds c s xs) (hi : InRange xs index) (hn : n.toDouble? = some x) :
    ∃ s', s.set index n = .ok s' ∧ Holds c s' (replace xs index x) := by
  let i := (fromFront xs.length index).toNat
  refine ⟨⟨s.buffer.setIfInBounds i x, s.size⟩, by simp only [set, h.place_ok hi, hn, i], ?_⟩
  obtain ⟨⟨⟨hsize, hroom⟩, hdoubled, hle⟩, hlist⟩ := h
  have hbuffer : (s.buffer.setIfInBounds i x).size = s.buffer.size := Array.size_setIfInBounds
  refine ⟨⟨⟨?_, ?_⟩, ?_, ?_⟩, ?_⟩
  · rwa [hbuffer]
  · rwa [hbuffer]
  · simpa only [capacity, hbuffer] using hdoubled
  · simpa only [capacity, hbuffer] using hle
  · rw [replace_eq hi]
    show (s.buffer.setIfInBounds i x).toList.take s.size = xs.set i x
    rw [Array.toList_setIfInBounds, List.take_set]
    exact congrArg (List.set · i x) hlist

theorem set_error (h : Holds c s xs) (hi : ¬ InRange xs index) : s.set index n = .error (outside xs index) := by
  simp only [set, h.place_error hi]

theorem set_tooLarge (h : Holds c s xs) (hi : InRange xs index) (hn : n.toDouble? = none) :
    s.set index n = .error .integerTooLarge := by
  simp only [set, h.place_ok hi, hn]

variable [Numerics]

theorem reserve (h : Holds c s xs) : Holds c s.reserve xs :=
  ⟨h.grown.reserve, (toList_reserve h.grown.wellFormed).trans h.toList⟩

theorem push (h : Holds c s xs) (x : Float) : Holds c (s.push x) (xs ++ [x]) :=
  ⟨h.grown.push x, by rw [toList_push h.grown.wellFormed, h.toList]⟩

theorem extend (ns : List Number) :
    ∀ {s : Samples} {xs : List Float}, Holds c s xs →
      (s.extend ns).1 = (Listing.extend xs ns).1 ∧ Holds c (s.extend ns).2 (Listing.extend xs ns).2 := by
  induction ns with
  | nil =>
    intro s xs h
    exact ⟨rfl, h⟩
  | cons n ns ih =>
    intro s xs h
    cases hn : n.toDouble? with
    | some x =>
      simp only [Samples.extend, append, Listing.extend, hn]
      exact ih (h.push x)
    | none =>
      simp only [Samples.extend, append, Listing.extend, hn]
      exact ⟨trivial, h.reserve⟩

theorem perform (h : Holds c s xs) (op : Operation) :
    (s.perform op).1 = (Listing.perform xs op).1 ∧ Holds c (s.perform op).2 (Listing.perform xs op).2 := by
  cases op with
  | append n =>
    cases hn : n.toDouble? with
    | some x =>
      simp only [Samples.perform, append, Listing.perform, hn]
      exact ⟨rfl, h.push x⟩
    | none =>
      simp only [Samples.perform, append, Listing.perform, hn]
      exact ⟨rfl, h.reserve⟩
  | extend ns =>
    obtain ⟨hresult, hstate⟩ := h.extend ns
    simp only [Samples.perform, Listing.perform, hresult]
    exact ⟨trivial, hstate⟩
  | get index =>
    cases hx : at? xs index with
    | some x =>
      simp only [Samples.perform, Listing.perform, h.get_ok hx, hx]
      exact ⟨rfl, h⟩
    | none =>
      simp only [Samples.perform, Listing.perform, h.get_error (not_inRange_of_at? hx), hx]
      exact ⟨rfl, h⟩
  | set index n =>
    cases hx : at? xs index with
    | some y =>
      have hi := inRange_of_at? hx
      cases hn : n.toDouble? with
      | some x =>
        obtain ⟨s', hset, hs'⟩ := h.set_ok hi hn
        simp only [Samples.perform, Listing.perform, hset, hx, hn]
        exact ⟨trivial, hs'⟩
      | none =>
        simp only [Samples.perform, Listing.perform, h.set_tooLarge hi hn, hx, hn]
        exact ⟨trivial, h⟩
    | none =>
      simp only [Samples.perform, Listing.perform, h.set_error (not_inRange_of_at? hx), hx]
      exact ⟨trivial, h⟩
  | list =>
    simp only [Samples.perform, Listing.perform, h.toList]
    exact ⟨trivial, h⟩
  | overwrite => exact ⟨rfl, h⟩

theorem runAll (ops : List Operation) :
    ∀ {s : Samples} {xs : List Float}, Holds c s xs →
      (runAll Samples.perform s ops).1 = (Samples.runAll Listing.perform xs ops).1 ∧
        Holds c (Samples.runAll Samples.perform s ops).2 (Samples.runAll Listing.perform xs ops).2 := by
  induction ops with
  | nil =>
    intro s xs h
    exact ⟨rfl, h⟩
  | cons op ops ih =>
    intro s xs h
    obtain ⟨hresult, hstep⟩ := h.perform op
    obtain ⟨hresults, hrun⟩ := ih hstep
    simp only [Samples.runAll, hresult, hresults]
    exact ⟨trivial, hrun⟩

end Holds

/-- A buffer and a list after the same operations: both have given the same results and hold the same doubles, and
the buffer has the size that their number asks for. -/
structure Follows [Numerics] (c : Nat) (r : List (Except Misuse Reply) × Samples)
    (r' : List (Except Misuse Reply) × List Float) : Prop where
  results : r.1 = r'.1
  toList : r.2.toList = r'.2
  size : r.2.size = r'.2.length
  listing : (r.2.perform .list).1 = .ok (.listing r'.2)
  get : ∀ index, (∃ reply, (r.2.perform (.get index)).1 = .ok reply) ↔ InRange r'.2 index
  set : ∀ index n, (∃ reply, (r.2.perform (.set index n)).1 = .ok reply) ↔
    InRange r'.2 index ∧ n.toDouble?.isSome = true
  failed : ∀ op m, (∀ ns, op ≠ .extend ns) → (r.2.perform op).1 = .error m →
    (r.2.perform op).2.toList = r.2.toList ∧ (r.2.perform op).2.size = r.2.size
  doubled : ∃ k, r.2.capacity = c * 2 ^ k
  size_le : r.2.size ≤ r.2.capacity
  capacity_le : r.2.capacity ≤ max c (2 * r.2.size)

variable [Numerics]

theorem Holds.follows {r : List (Except Misuse Reply) × Samples} {r' : List (Except Misuse Reply) × List Float}
    (h : Holds c r.2 r'.2) (results : r.1 = r'.1) : Follows c r r' where
  results := results
  toList := h.toList
  size := h.size_eq
  listing := (h.perform .list).1
  get index := by rw [(h.perform (.get index)).1, exists_get_ok]
  set index n := by rw [(h.perform (.set index n)).1, exists_set_ok]
  failed op m hop hm := by
    obtain ⟨hresult, hstate⟩ := h.perform op
    have hsame := perform_failed hop (hresult.symm.trans hm)
    rw [hsame] at hstate
    exact ⟨hstate.toList.trans h.toList.symm, hstate.size_eq.trans h.size_eq.symm⟩
  doubled := h.grown.doubled
  size_le := h.grown.wellFormed.size_le
  capacity_le := h.grown.capacity_le

/-- Samples made from numbers, at least one of which does not fit, or else a buffer that follows the list of these
numbers under any operations. A capacity below one counts as one. -/
theorem runAll_follows (capacity : Int) (ns : List Number) (ops : List Operation) :
    (none ∈ ns.map Number.toDouble? ∧ ofNumbers capacity ns = .error .integerTooLarge) ∨
      ∃ s xs, ns.map Number.toDouble? = xs.map some ∧ ofNumbers capacity ns = .ok s ∧
        Follows (max 1 capacity).toNat (runAll perform s ops) (runAll Listing.perform xs ops) := by
  have hstart : Holds (max 1 capacity).toNat (ofCapacity capacity) [] :=
    ⟨.ofCapacity capacity, toList_ofCapacity capacity⟩
  obtain ⟨hresult, hstate⟩ := hstart.extend ns
  simp only [ofNumbers]
  rcases hextend : (ofCapacity capacity).extend ns with ⟨r, s⟩
  rw [hextend] at hresult hstate
  obtain ⟨xs, hxs, hlist⟩ | ⟨hmem, hlist⟩ := extend_cases ns []
  · rw [hlist] at hresult hstate
    subst hresult
    obtain ⟨hresults, hrun⟩ := hstate.runAll ops
    exact .inr ⟨s, xs, hxs, rfl, hrun.follows hresults⟩
  · refine .inl ⟨hmem, ?_⟩
    rw [hlist] at hresult
    subst hresult
    rfl

end Samples
end ArithTree
