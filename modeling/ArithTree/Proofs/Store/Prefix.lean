import ArithTree.Store.Samples

/-!
# ArithTree.Proofs.Store.Prefix

The samples of a buffer as the list in front of it. Making room keeps this list (`toList_reserve`),
and a push adds to its end (`toList_push`), whether the buffer is full or not.
-/

namespace ArithTree
namespace Samples

/-- What every state has that operations lead to. -/
structure WellFormed (s : Samples) : Prop where
  size_le : s.size ≤ s.buffer.size
  room : 0 < s.buffer.size

variable {s : Samples}

theorem length_toList (h : s.WellFormed) : s.toList.length = s.size := by
  simp only [toList, List.length_take, Array.length_toList]
  exact Nat.min_eq_left h.size_le

variable [Numerics]

@[simp] theorem size_unwritten (n count : Nat) : (unwritten n count).size = count := by
  simp [unwritten]

theorem wellFormed_ofCapacity (capacity : Int) : (ofCapacity capacity).WellFormed := by
  refine ⟨Nat.zero_le _, ?_⟩
  simp only [ofCapacity, size_unwritten]
  omega

theorem toList_ofCapacity (capacity : Int) : (ofCapacity capacity).toList = [] := by
  simp [ofCapacity, toList]

theorem reserve_size (s : Samples) : s.reserve.size = s.size := by
  unfold reserve
  split <;> rfl

theorem reserve_room (h : s.WellFormed) : s.size < s.reserve.buffer.size := by
  obtain ⟨hle, hroom⟩ := h
  unfold reserve
  split
  · simp only [Array.size_append, size_unwritten]
    omega
  · show s.size < s.buffer.size
    omega

theorem toList_reserve (h : s.WellFormed) : s.reserve.toList = s.toList := by
  unfold reserve
  split
  · simp only [toList, Array.toList_append, List.take_append_of_le_length, Array.length_toList,
      h.size_le]
  · rfl

theorem toList_push (h : s.WellFormed) (x : Float) : (s.push x).toList = s.toList ++ [x] := by
  have hroom := reserve_room h
  rw [← toList_reserve h]
  simp only [toList, push, reserve_size, Array.toList_setIfInBounds]
  rw [List.take_add_one, List.getElem?_set_self (by simpa using hroom)]
  simp [List.take_set_of_le]

theorem WellFormed.push (h : s.WellFormed) (x : Float) : (s.push x).WellFormed := by
  have hroom := reserve_room h
  refine ⟨?_, ?_⟩
  · simp only [Samples.push, Array.size_setIfInBounds, reserve_size]
    omega
  · simp only [Samples.push, Array.size_setIfInBounds]
    omega

end Samples
end ArithTree
