import Msos.Image.Theorems

namespace Msos

open Msos.Library Msos.Library.Memory
open DynamicLinker ModuleHeader

-- A file by its bytes, with a header in front and anything behind it.
structure ModuleFile where
  bytes : List UInt8
  whole : sizeofModuleHeader ≤ bytes.length
  cookie_eq : bytes.take 4 = expectedCookie

namespace ModuleFile

section Definitions

variable (file : ModuleFile)

def half (offset : Nat) : Nat := decode ((file.bytes.drop offset).take 2)

def word (offset : Nat) : Nat := decode ((file.bytes.drop offset).take 4)

def codeSize : Nat := file.word 4

def dataSize : Nat := file.word 8

def bssSize : Nat := file.word 12

def numberOfExternalRelocations : Nat := file.half 16

def numberOfLocalRelocations : Nat := file.half 18

def numberOfDataRelocations : Nat := file.half 20

def numberOfExternalSymbols : Nat := file.half 22

def numberOfRelocations : Nat :=
  file.numberOfExternalRelocations + file.numberOfLocalRelocations + file.numberOfDataRelocations

def relocationOffset (k : Nat) : Nat := sizeofModuleHeader + sizeofRelocation * k

def symbolOffset (k : Nat) : Nat := relocationOffset file.numberOfRelocations + sizeofSymbol * k

def numberOfSymbols : Nat := file.numberOfExternalSymbols + numberOfExportedSymbols

-- The slots that the loader allocates, and the ones that the entries are for.
def slots : Nat := file.numberOfExternalRelocations + file.numberOfLocalRelocations

def lotIndices : List Nat :=
  (List.range file.numberOfExternalRelocations).map (fun k => file.word (relocationOffset k)) ++
    (List.range file.numberOfLocalRelocations).map fun k =>
      file.word (relocationOffset (file.numberOfExternalRelocations + k)) >>> 1

-- Where the loader looks for the code and the data, at an address with a
-- residue: it aligns the address, not the offset.
def codeOffset (residue : Nat) : Nat :=
  Image.aligned (residue + file.symbolOffset file.numberOfSymbols) - residue

def dataOffset (residue : Nat) : Nat := file.codeOffset residue + file.codeSize

end Definitions

section Padding

variable (file : ModuleFile)

theorem codeOffset_eq (residue : Nat) : file.codeOffset residue =
    file.symbolOffset file.numberOfSymbols +
      if (residue + file.symbolOffset file.numberOfSymbols) % 16 ≠ 0 then
        16 - (residue + file.symbolOffset file.numberOfSymbols) % 16 else 0 := by
  rw [codeOffset, Image.aligned_eq]
  omega

-- The padding tells the residues apart, also when the offsets wrap around.
theorem wrap_codeOffset_inj {first second : Nat} (hf : first < 16) (hs : second < 16) :
    wrap (file.codeOffset first) = wrap (file.codeOffset second) ↔ first = second := by
  constructor
  · intro h
    rw [codeOffset_eq, codeOffset_eq, wrap, wrap] at h
    split at h <;> split at h <;> omega
  · intro h
    rw [h]

end Padding

section Header

variable {file : ModuleFile} {memory : Memory} {address : Nat}
  (h : Holds memory address file.bytes)
include h

theorem readHalf_eq {offset : Nat} (ho : offset + 2 ≤ sizeofModuleHeader) :
    memory.readHalf (address + offset) = file.half offset :=
  congrArg decode (h.slice (ho.trans file.whole))

theorem readWord_eq {offset : Nat} (ho : offset + 4 ≤ sizeofModuleHeader) :
    memory.readWord (address + offset) = file.word offset :=
  congrArg decode (h.slice (ho.trans file.whole))

theorem cookie_of_holds : cookie memory address = expectedCookie := by
  have hslice : memory.bytes (address + 0) 4 = (file.bytes.drop 0).take 4 :=
    h.slice (le_trans (by decide) file.whole)
  rwa [Nat.add_zero, List.drop_zero, file.cookie_eq] at hslice

theorem codeSize_of_holds : ModuleHeader.codeSize memory address = file.codeSize :=
  readWord_eq h (by decide)

theorem dataSize_of_holds : ModuleHeader.dataSize memory address = file.dataSize :=
  readWord_eq h (by decide)

theorem bssSize_of_holds : ModuleHeader.bssSize memory address = file.bssSize :=
  readWord_eq h (by decide)

theorem numberOfRelocations_of_holds :
    ModuleHeader.numberOfRelocations memory address = file.numberOfRelocations := by
  rw [ModuleHeader.numberOfRelocations, ModuleHeader.numberOfExternalRelocations,
    ModuleHeader.numberOfLocalRelocations, ModuleHeader.numberOfDataRelocations,
    readHalf_eq h (by decide), readHalf_eq h (by decide), readHalf_eq h (by decide)]
  rfl

theorem numberOfSymbols_of_holds :
    DynamicLinker.numberOfSymbols memory address = file.numberOfSymbols := by
  rw [DynamicLinker.numberOfSymbols, ModuleHeader.numberOfExternalSymbols,
    readHalf_eq h (by decide)]
  rfl

theorem symbolSectionAddress_of_holds :
    symbolSectionAddress memory address = wrap (address + file.symbolOffset 0) := by
  rw [symbolSectionAddress, relocationSectionAddress, numberOfRelocations_of_holds h, wrap, wrap,
    wrap, Nat.mod_add_mod, symbolOffset, relocationOffset, Nat.mul_zero, Nat.add_zero,
    Nat.add_assoc]

theorem codeAddress_of_holds :
    codeAddress memory address = wrap (address + file.codeOffset (address % 16)) := by
  have hsymbols : file.symbolOffset file.numberOfSymbols =
      file.symbolOffset 0 + sizeofSymbol * file.numberOfSymbols := by
    simp only [symbolOffset, Nat.mul_zero, Nat.add_zero]
  have hstart : wrap (symbolSectionAddress memory address +
      sizeofSymbol * DynamicLinker.numberOfSymbols memory address) =
        wrap (address + file.symbolOffset file.numberOfSymbols) := by
    rw [symbolSectionAddress_of_holds h, numberOfSymbols_of_holds h, wrap, wrap, wrap,
      Nat.mod_add_mod, hsymbols, Nat.add_assoc]
  have hresidue : wrap (address + file.symbolOffset file.numberOfSymbols) % 16 =
      (address % 16 + file.symbolOffset file.numberOfSymbols) % 16 := by
    rw [wrap]
    omega
  simp only [codeAddress, hstart, hresidue, codeOffset_eq]
  split
  · rw [wrap, wrap, wrap, Nat.mod_add_mod, Nat.add_assoc]
  · rw [Nat.add_zero]

theorem dataAddress_of_holds :
    dataAddress memory address = wrap (address + file.dataOffset (address % 16)) := by
  rw [dataAddress, codeAddress_of_holds h, codeSize_of_holds h, wrap, wrap, wrap, Nat.mod_add_mod,
    dataOffset, Nat.add_assoc]

end Header

section Contents

variable (file : ModuleFile)

def memory : Memory := Memory.store (fun _ => 0) 0 file.bytes

theorem holds_memory : Holds file.memory 0 file.bytes := holds_store ..

theorem word_of_holds {offset value : Nat} (ho : offset + 4 ≤ file.bytes.length)
    (h : Holds file.memory offset (encode 4 value)) (hv : value < 2 ^ 32) :
    file.word offset = value := by
  have hslice := file.holds_memory.readWord_slice ho
  rw [Nat.zero_add, h.readWord hv] at hslice
  exact hslice.symm

variable {file} {image : Image} {rest : List UInt8} (hb : file.bytes = image.header ++ rest)
include hb

theorem holds_header : Holds file.memory 0 image.header := by
  have h := file.holds_memory
  rw [hb] at h
  exact (holds_append.mp h).1

-- The numbers of a header that is written as the one of an image
theorem sizes_of_header (hcode : image.code.length < 2 ^ 32) (hdata : image.data.length < 2 ^ 32)
    (hbss : image.bssSize < 2 ^ 32) : file.codeSize = image.code.length ∧
      file.dataSize = image.data.length ∧ file.bssSize = image.bssSize := by
  obtain ⟨_, hcodeField, hdataField, hbssField, _⟩ := Image.fields_of_holds (holds_header hb)
  refine ⟨?_, ?_, ?_⟩
  · exact (codeSize_of_holds file.holds_memory).symm.trans (hcodeField.readWord hcode)
  · exact (dataSize_of_holds file.holds_memory).symm.trans (hdataField.readWord hdata)
  · exact (bssSize_of_holds file.holds_memory).symm.trans (hbssField.readWord hbss)

theorem counts_of_header (hexternals : image.externals.length < 2 ^ 16)
    (hlocals : image.locals.length < 2 ^ 16) (hpointers : image.pointers.length < 2 ^ 16)
    (hsymbols : image.externalSymbols < 2 ^ 16) :
    file.numberOfExternalRelocations = image.externals.length ∧
      file.numberOfLocalRelocations = image.locals.length ∧
      file.numberOfDataRelocations = image.pointers.length ∧
      file.numberOfExternalSymbols = image.externalSymbols := by
  obtain ⟨_, _, _, _, hexternalField, hlocalField, hpointerField, hsymbolField⟩ :=
    Image.fields_of_holds (holds_header hb)
  have hread : ∀ {offset : Nat}, offset + 2 ≤ sizeofModuleHeader →
      file.memory.readHalf (0 + offset) = file.half offset := readHalf_eq file.holds_memory
  refine ⟨?_, ?_, ?_, ?_⟩
  · exact (hread (by decide)).symm.trans (hexternalField.readHalf hexternals)
  · exact (hread (by decide)).symm.trans (hlocalField.readHalf hlocals)
  · exact (hread (by decide)).symm.trans (hpointerField.readHalf hpointers)
  · exact (hread (by decide)).symm.trans (hsymbolField.readHalf hsymbols)

end Contents

section Image

def ofImage (image : Image) : ModuleFile where
  bytes := image.bytes
  whole := by
    have htables := image.length_tables
    rw [Image.length_bytes, Image.codeOffset_eq]
    omega
  cookie_eq := rfl

theorem sizes_ofImage {image : Image} (h : image.Fits) :
    (ofImage image).codeSize = image.code.length ∧ (ofImage image).dataSize = image.data.length ∧
      (ofImage image).bssSize = image.bssSize := by
  have hb : image.bytes = image.header ++ ((image.entries.flatMap Image.word ++
      image.symbols.flatMap Image.symbolRecord) ++ (Image.padding image.tables.length ++
        (image.code ++ image.data))) := List.append_assoc ..
  exact @sizes_of_header (ofImage image) image _ hb h.code h.data h.bss

end Image

end ModuleFile

end Msos
