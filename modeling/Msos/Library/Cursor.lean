import Mathlib.Data.List.TakeDrop

namespace Msos.Library.Cursor

variable {α : Type*}

-- A copy from behind the end of its source, or over the end of its target.
inductive Fault
  | outOfBounds
deriving DecidableEq, Repr

-- memcpy of a piece of the content to the front of the buffer
def copyInto (buffer content : List α) (offset length : Nat) : Except Fault (List α) :=
  if offset + length ≤ content.length ∧ length ≤ buffer.length then
    .ok ((content.drop offset).take length ++ buffer.drop length)
  else .error .outOfBounds

-- A read at a position of a content that is said to have a size: the buffer
-- after it, the length and the next position.
def readAt (size : Nat) (content : List α) (position : Nat) (buffer : List α) :
    Except Fault (List α × Nat × Nat) :=
  if size ≤ position then .ok (buffer, 0, position)
  else
    let length := if buffer.length < size - position then buffer.length else size - position
    (copyInto buffer content position length).map fun buffer => (buffer, length, position + length)

-- The piece that such a read delivers.
def chunk (content : List α) (position capacity : Nat) : List α :=
  (content.drop position).take capacity

theorem length_chunk (content : List α) (position capacity : Nat) :
    (chunk content position capacity).length = min capacity (content.length - position) := by
  simp [chunk]

-- The clamp of a read is the length of what it delivers.
theorem clamp_eq (content : List α) (position capacity : Nat) :
    (if capacity < content.length - position then capacity else content.length - position) =
      (chunk content position capacity).length := by
  rw [length_chunk]
  split <;> omega

theorem take_length_chunk (content : List α) (position capacity : Nat) :
    (content.drop position).take (chunk content position capacity).length =
      chunk content position capacity := by
  rw [length_chunk, chunk, ← List.length_drop, ← List.take_eq_take_min]

theorem chunk_of_end {content : List α} {position : Nat} (h : content.length ≤ position)
    (capacity : Nat) : chunk content position capacity = [] := by
  rw [chunk, List.drop_eq_nil_of_le h, List.take_nil]

-- With the right size nothing outside the content and the buffer is touched.
theorem readAt_eq (content : List α) (position : Nat) (buffer : List α) :
    readAt content.length content position buffer =
      .ok (chunk content position buffer.length ++
          buffer.drop (chunk content position buffer.length).length,
        (chunk content position buffer.length).length,
        position + (chunk content position buffer.length).length) := by
  unfold readAt
  by_cases hend : content.length ≤ position
  · simp [hend, chunk_of_end hend]
  · have hinside : position + (chunk content position buffer.length).length ≤ content.length ∧
        (chunk content position buffer.length).length ≤ buffer.length := by
      rw [length_chunk]
      omega
    simp only [hend, ite_false, clamp_eq, copyInto, hinside, and_self, ite_true, Except.map,
      take_length_chunk]

-- What has been delivered is the content up to the position.
structure Delivered (content : List α) (position : Nat) (delivered : List α) : Prop where
  eq_take : delivered = content.take position
  position_le : position ≤ content.length

section Delivery

variable {content delivered : List α} {position : Nat}

theorem Delivered.start (content : List α) : Delivered content 0 [] := ⟨by simp, Nat.zero_le _⟩

theorem Delivered.isPrefix (h : Delivered content position delivered) : delivered <+: content :=
  h.eq_take ▸ List.take_prefix _ _

-- The content may grow at its end.
theorem Delivered.append (h : Delivered content position delivered) (added : List α) :
    Delivered (content ++ added) position delivered where
  eq_take := by rw [List.take_append_of_le_length h.position_le, ← h.eq_take]
  position_le := by
    rw [List.length_append]
    exact Nat.le_add_right_of_le h.position_le

theorem Delivered.read (h : Delivered content position delivered) (capacity : Nat) :
    Delivered content (position + (chunk content position capacity).length)
      (delivered ++ chunk content position capacity) where
  eq_take := by rw [List.take_add, ← h.eq_take, take_length_chunk]
  position_le := by
    have hle := h.position_le
    rw [length_chunk]
    omega

-- A read into some room delivers nothing only at the end.
theorem Delivered.eq_of_chunk (h : Delivered content position delivered) {capacity : Nat}
    (hn : (chunk content position capacity).length = 0) : capacity = 0 ∨ delivered = content := by
  rw [length_chunk] at hn
  by_cases hzero : capacity = 0
  · exact Or.inl hzero
  · right
    rw [h.eq_take]
    exact List.take_of_length_le (by omega)

end Delivery

end Msos.Library.Cursor
