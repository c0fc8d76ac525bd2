import Mathlib.Data.List.Pairwise
import Mathlib.Tactic.Ring

namespace Msos.Library.BitField

section Fields

variable {w : Nat}

-- The bits of a word from a position on
structure Field where
  position : Nat
  size : Nat
deriving DecidableEq, Repr

def mask (w size : Nat) : BitVec w := (1#w <<< size) - 1#w

def extract (field : Field) (word : BitVec w) : BitVec w :=
  (word >>> field.position) &&& mask w field.size

def pack : List (Field × BitVec w) → BitVec w
  | [] => 0#w
  | (field, value) :: rest => value <<< field.position ||| pack rest

def Field.Has (field : Field) (i : Nat) : Prop :=
  field.position ≤ i ∧ i < field.position + field.size

instance (field : Field) (i : Nat) : Decidable (field.Has i) := inferInstanceAs (Decidable (_ ∧ _))

def Field.Apart (field other : Field) : Prop :=
  field.position + field.size ≤ other.position ∨ other.position + other.size ≤ field.position

instance (field other : Field) : Decidable (field.Apart other) :=
  inferInstanceAs (Decidable (_ ∨ _))

-- The value has no bit outside of the field.
def Fits (field : Field) (value : BitVec w) : Prop := value.toNat < 2 ^ field.size

instance (field : Field) (value : BitVec w) : Decidable (Fits field value) :=
  inferInstanceAs (Decidable (_ < _))

theorem getLsbD_mask {size : Nat} (h : size < w) (i : Nat) :
    (mask w size).getLsbD i = decide (i < size) := by
  have hone : 1 < 2 ^ w := Nat.one_lt_two_pow (by omega)
  have hlt : 2 ^ size < 2 ^ w := Nat.pow_lt_pow_right (by decide) h
  have hpos : 0 < 2 ^ size := Nat.two_pow_pos size
  have hshift : (1#w <<< size).toNat = 2 ^ size := by
    rw [BitVec.toNat_shiftLeft, BitVec.toNat_ofNat, Nat.mod_eq_of_lt hone, Nat.one_shiftLeft,
      Nat.mod_eq_of_lt hlt]
  have hmask : (mask w size).toNat = 2 ^ size - 1 := by
    rw [mask, BitVec.toNat_sub, hshift, BitVec.toNat_ofNat, Nat.mod_eq_of_lt hone]
    have hsum : 2 ^ w - 1 + 2 ^ size = 2 ^ size - 1 + 2 ^ w := by omega
    rw [hsum, Nat.add_mod_right, Nat.mod_eq_of_lt (by omega)]
  rw [BitVec.getLsbD, hmask, Nat.testBit_two_pow_sub_one]

theorem getLsbD_extract {field : Field} (h : field.size < w) (word : BitVec w) (i : Nat) :
    (extract field word).getLsbD i =
      (word.getLsbD (field.position + i) && decide (i < field.size)) := by
  rw [extract, BitVec.getLsbD_and, BitVec.getLsbD_ushiftRight, getLsbD_mask h]

theorem fits_iff {field : Field} {value : BitVec w} :
    Fits field value ↔ ∀ i, field.size ≤ i → value.getLsbD i = false := by
  constructor
  · intro h i hi
    exact Nat.testBit_lt_two_pow (Nat.lt_of_lt_of_le h (Nat.pow_le_pow_right (by decide) hi))
  · intro h
    exact Nat.lt_pow_two_of_testBit _ h

theorem fits_extract {field : Field} (h : field.size < w) (word : BitVec w) :
    Fits field (extract field word) := by
  rw [fits_iff]
  intro i hi
  rw [getLsbD_extract h, decide_eq_false (by omega), Bool.and_false]

-- A bit of a packed word is the one of the field that has it.
theorem getLsbD_pack {items : List (Field × BitVec w)}
    (hfits : ∀ item ∈ items, Fits item.1 item.2) {i : Nat} (hi : i < w) :
    (pack items).getLsbD i =
      items.any fun item => decide (item.1.Has i) && item.2.getLsbD (i - item.1.position) := by
  induction items with
  | nil => exact BitVec.getLsbD_zero
  | cons item rest ih =>
      obtain ⟨field, value⟩ := item
      have hrest := ih fun other hm => hfits other (List.mem_cons_of_mem _ hm)
      have hvalue : Fits field value := hfits _ List.mem_cons_self
      rw [pack, BitVec.getLsbD_or, hrest, List.any_cons, BitVec.getLsbD_shiftLeft]
      congr 1
      by_cases hlow : i < field.position
      · have hnot : ¬field.Has i := fun h => by
          have := h.1
          omega
        simp [hlow, hnot]
      · by_cases hhigh : i < field.position + field.size
        · have hhas : field.Has i := ⟨by omega, hhigh⟩
          simp [hi, hlow, hhas]
        · have hnot : ¬field.Has i := fun h => hhigh h.2
          have hbit := fits_iff.mp hvalue (i - field.position) (by omega)
          simp [hnot, hbit]

-- Fields that lie apart give back the values that fit.
theorem extract_pack {items : List (Field × BitVec w)}
    (hinside : ∀ item ∈ items, item.1.size < w ∧ item.1.position + item.1.size ≤ w)
    (hfits : ∀ item ∈ items, Fits item.1 item.2)
    (hapart : items.Pairwise fun item other => item.1.Apart other.1)
    {field : Field} {value : BitVec w} (hm : (field, value) ∈ items) :
    extract field (pack items) = value := by
  obtain ⟨hsize, hend⟩ := hinside _ hm
  have hvalue : Fits field value := hfits _ hm
  apply BitVec.eq_of_getLsbD_eq
  intro i hi
  rw [getLsbD_extract hsize]
  by_cases hin : i < field.size
  · have hbit := getLsbD_pack hfits (show field.position + i < w by simp only at hend; omega)
    have hmine : field.Has (field.position + i) := ⟨by omega, by omega⟩
    rw [hbit, decide_eq_true hin, Bool.and_true]
    apply Bool.eq_iff_iff.mpr
    constructor
    · intro h
      obtain ⟨other, hother, hhas⟩ := List.any_eq_true.mp h
      rw [Bool.and_eq_true, decide_eq_true_iff] at hhas
      have hsame : other = (field, value) := by
        by_contra hne
        have hsymm : Std.Symm fun item other : Field × BitVec w => item.1.Apart other.1 :=
          ⟨fun _ _ h => Or.symm h⟩
        have hlow := hhas.1.1
        have hhigh := hhas.1.2
        rcases hapart.forall hother hm hne with hbefore | hbehind
        · simp only at hbefore
          omega
        · simp only at hbehind
          omega
      rw [hsame] at hhas
      simpa using hhas.2
    · intro h
      refine List.any_eq_true.mpr ⟨_, hm, ?_⟩
      simp [hmine, h]
  · rw [decide_eq_false hin, Bool.and_false]
    exact (fits_iff.mp hvalue i (by omega)).symm

-- Fields that have all the bits of a word give it back.
theorem pack_extract {fields : List Field} (hsize : ∀ field ∈ fields, field.size < w)
    (hcover : ∀ i < w, ∃ field ∈ fields, field.Has i) (word : BitVec w) :
    pack (fields.map fun field => (field, extract field word)) = word := by
  apply BitVec.eq_of_getLsbD_eq
  intro i hi
  have hfits : ∀ item ∈ fields.map fun field => (field, extract field word),
      Fits item.1 item.2 := by
    intro item hm
    obtain ⟨field, hfield, rfl⟩ := List.mem_map.mp hm
    exact fits_extract (hsize field hfield) word
  rw [getLsbD_pack hfits hi]
  have hbit : ∀ field ∈ fields, field.Has i →
      (extract field word).getLsbD (i - field.position) = word.getLsbD i := by
    intro field hfield hhas
    have := hhas.1
    have := hhas.2
    rw [getLsbD_extract (hsize field hfield), decide_eq_true (by omega), Bool.and_true]
    congr 1
    omega
  apply Bool.eq_iff_iff.mpr
  constructor
  · intro h
    obtain ⟨item, hm, hhas⟩ := List.any_eq_true.mp h
    obtain ⟨field, hfield, rfl⟩ := List.mem_map.mp hm
    rw [Bool.and_eq_true, decide_eq_true_iff] at hhas
    rw [← hbit field hfield hhas.1]
    exact hhas.2
  · intro h
    obtain ⟨field, hfield, hhas⟩ := hcover i hi
    refine List.any_eq_true.mpr ⟨_, List.mem_map_of_mem hfield, ?_⟩
    rw [Bool.and_eq_true, decide_eq_true_iff]
    exact ⟨hhas, (hbit field hfield hhas).trans h⟩

end Fields

end Msos.Library.BitField
