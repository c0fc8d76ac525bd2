import Mathlib.Data.List.Basic
import Mathlib.Data.List.Range

namespace Msos.Library

-- A vector with the addresses of its elements: they lie in one block, which
-- moves when it has to grow, and close up when one of them is erased.
structure AddressedVector (α : Type*) (stride : Nat) where
  base : Nat
  capacity : Nat
  elements : List α

namespace AddressedVector

variable {α : Type*} {stride : Nat}

def empty : AddressedVector α stride := ⟨0, 0, []⟩

def address (vector : AddressedVector α stride) (i : Nat) : Nat := vector.base + i * stride

-- The size of the block that the vector asks for when it is full.
def grown (vector : AddressedVector α stride) : Nat := max 1 (2 * vector.elements.length)

-- `storage` is the new block, if one is needed.
def emplaceBack (vector : AddressedVector α stride) (value : α) (storage : Nat) :
    AddressedVector α stride :=
  if vector.elements.length < vector.capacity then
    { vector with elements := vector.elements ++ [value] }
  else
    ⟨storage, vector.grown, vector.elements ++ [value]⟩

def back (vector : AddressedVector α stride) : Nat := vector.address (vector.elements.length - 1)

-- The position of the element that lies at an address.
def indexOf? (vector : AddressedVector α stride) (pointer : Nat) : Option Nat :=
  (List.range vector.elements.length).find? fun i => vector.address i = pointer

def get? (vector : AddressedVector α stride) (pointer : Nat) : Option α :=
  (vector.indexOf? pointer).bind fun i => vector.elements[i]?

def eraseAt (vector : AddressedVector α stride) (i : Nat) : AddressedVector α stride :=
  { vector with elements := vector.elements.eraseIdx i }

-- Two blocks do not overlap.
def Apart (vector : AddressedVector α stride) (storage size : Nat) : Prop :=
  storage + size * stride ≤ vector.base ∨ vector.base + vector.capacity * stride ≤ storage

section Lookup

variable {vector : AddressedVector α stride}

theorem address_inj (hs : 0 < stride) {i j : Nat} (h : vector.address i = vector.address j) : i = j := by
  have hij : i * stride = j * stride := by
    simp only [address] at h
    omega
  exact Nat.eq_of_mul_eq_mul_right hs hij

theorem indexOf?_address (hs : 0 < stride) {i : Nat} (hi : i < vector.elements.length) :
    vector.indexOf? (vector.address i) = some i := by
  cases hf : vector.indexOf? (vector.address i) with
  | none =>
      have := List.find?_eq_none.mp hf i (List.mem_range.mpr hi)
      simp at this
  | some j =>
      have hj : vector.address j = vector.address i := by simpa using List.find?_some hf
      rw [address_inj hs hj]

theorem get?_address (hs : 0 < stride) {i : Nat} (hi : i < vector.elements.length) :
    vector.get? (vector.address i) = some vector.elements[i] := by
  simp [get?, indexOf?_address hs hi, hi]

theorem get?_eq_none {pointer : Nat}
    (h : ∀ i < vector.elements.length, vector.address i ≠ pointer) : vector.get? pointer = none := by
  have hf : vector.indexOf? pointer = none := by
    apply List.find?_eq_none.mpr
    intro i hi
    simpa using h i (List.mem_range.mp hi)
  simp [get?, hf]

@[simp] theorem elements_emplaceBack (value : α) (storage : Nat) :
    (vector.emplaceBack value storage).elements = vector.elements ++ [value] := by
  unfold emplaceBack
  split <;> rfl

theorem back_emplaceBack (value : α) (storage : Nat) :
    (vector.emplaceBack value storage).back =
      (vector.emplaceBack value storage).address vector.elements.length := by
  simp [back]

theorem get?_back (hs : 0 < stride) (value : α) (storage : Nat) :
    (vector.emplaceBack value storage).get? (vector.emplaceBack value storage).back = some value := by
  rw [back_emplaceBack, get?_address hs (by simp)]
  simp

-- A pointer into the old block finds nothing in the new one.
theorem get?_moved (hs : 0 < stride) (value : α) {storage i : Nat}
    (hfull : vector.elements.length = vector.capacity) (hi : i < vector.elements.length)
    (hapart : vector.Apart storage vector.grown) :
    (vector.emplaceBack value storage).get? (vector.address i) = none := by
  apply get?_eq_none
  intro j hj he
  have hfull' : ¬vector.elements.length < vector.capacity := by omega
  simp only [emplaceBack, hfull', ite_false, List.length_append, List.length_singleton] at hj he
  have hgrown : j < vector.grown := by
    unfold grown
    omega
  have hj' : (j + 1) * stride ≤ vector.grown * stride := Nat.mul_le_mul_right _ hgrown
  have hi' : (i + 1) * stride ≤ vector.capacity * stride := Nat.mul_le_mul_right _ (by omega)
  simp only [address] at he
  rw [Nat.add_mul] at hj' hi'
  rcases hapart with h | h <;> omega

end Lookup

end AddressedVector

end Msos.Library
