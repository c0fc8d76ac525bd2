import Msos.Library.BitField
import Msos.Syscalls

namespace Msos.Syscalls

open Msos.Library BitField

section Requests

def iocDirection (call : BitVec 32) : BitVec 32 := (call >>> 30) &&& ((1 <<< 2) - 1)

def iocType (call : BitVec 32) : BitVec 32 := (call >>> 8) &&& ((1 <<< 8) - 1)

def iocSize (call : BitVec 32) : BitVec 32 := (call >>> 16) &&& ((1 <<< 14) - 1)

def directionField : Field := ⟨30, 2⟩

def typeField : Field := ⟨8, 8⟩

def numberField : Field := ⟨0, 8⟩

def sizeField : Field := ⟨16, 14⟩

variable (direction type number size call : BitVec 32)

def fields : List (Field × BitVec 32) :=
  [(directionField, direction), (typeField, type), (numberField, number), (sizeField, size)]

theorem ioc_eq_pack : ioc direction type number size = pack (fields direction type number size) := by
  simp only [ioc, fields, pack, directionField, typeField, numberField, sizeField,
    BitVec.shiftLeft_zero, BitVec.or_zero, BitVec.or_assoc]

theorem iocNumber_eq_extract : iocNumber call = extract numberField call := by
  rw [extract, numberField, BitVec.ushiftRight_zero]
  rfl

-- Each field can be read back exactly when no value exceeds its field, and
-- every request is made of its fields.
theorem ioc_roundTrips :
    ((iocDirection (ioc direction type number size) = direction ∧
        iocType (ioc direction type number size) = type ∧
        iocNumber (ioc direction type number size) = number ∧
        iocSize (ioc direction type number size) = size) ↔
      direction.toNat < 2 ^ 2 ∧ type.toNat < 2 ^ 8 ∧ number.toNat < 2 ^ 8 ∧ size.toNat < 2 ^ 14) ∧
    ioc (iocDirection call) (iocType call) (iocNumber call) (iocSize call) = call := by
  have hinside : ∀ item ∈ fields direction type number size,
      item.1.size < 32 ∧ item.1.position + item.1.size ≤ 32 := by
    simp [fields, directionField, typeField, numberField, sizeField]
  have hapart : (fields direction type number size).Pairwise fun item other =>
      item.1.Apart other.1 := by
    simp [fields, directionField, typeField, numberField, sizeField, Field.Apart]
  refine ⟨⟨?_, ?_⟩, ?_⟩
  · rintro ⟨hdirection, htype, hnumber, hsize⟩
    refine ⟨?_, ?_, ?_, ?_⟩
    · rw [← hdirection]
      exact @fits_extract 32 directionField (by decide) _
    · rw [← htype]
      exact @fits_extract 32 typeField (by decide) _
    · rw [← hnumber, iocNumber_eq_extract]
      exact @fits_extract 32 numberField (by decide) _
    · rw [← hsize]
      exact @fits_extract 32 sizeField (by decide) _
  · rintro ⟨hdirection, htype, hnumber, hsize⟩
    have hfits : ∀ item ∈ fields direction type number size, Fits item.1 item.2 := by
      simpa [fields, Fits, directionField, typeField, numberField, sizeField] using
        ⟨hdirection, htype, hnumber, hsize⟩
    have hextract := fun (field : Field) (value : BitVec 32) =>
      @extract_pack 32 _ hinside hfits hapart field value
    rw [iocNumber_eq_extract, ioc_eq_pack]
    exact ⟨hextract directionField direction (by simp [fields]),
      hextract typeField type (by simp [fields]), hextract numberField number (by simp [fields]),
      hextract sizeField size (by simp [fields])⟩
  · have hcover : ∀ i < 32, ∃ field ∈ [directionField, typeField, numberField, sizeField],
        field.Has i := by decide
    rw [ioc_eq_pack, iocNumber_eq_extract]
    exact pack_extract (by decide) hcover call

end Requests

end Msos.Syscalls
