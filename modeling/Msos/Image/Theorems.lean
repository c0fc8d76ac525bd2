import Msos.Image

namespace Msos.Image

open Msos.Library Msos.Library.Memory
open DynamicLinker ModuleHeader

-- An image where the loader can read it.
structure Stored (memory : Memory) (address : Nat) (image : Image) : Prop where
  holds : Holds memory address image.bytes
  fits : image.Fits
  below : address + image.bytes.length < 2 ^ 32

variable {memory other : Memory} {address : Nat} {image : Image}

theorem Stored.of_agree (h : Stored memory address image)
    (ha : Agree memory other address image.bytes.length) : Stored other address image :=
  ⟨h.holds.of_agree ha, h.fits, h.below⟩

section Header

theorem Stored.header (h : Stored memory address image) : Holds memory address image.header := by
  have htables := (holds_append.mp h.holds).1
  exact (holds_append.mp htables).1

-- The header field by field
theorem fields_of_holds (h : Holds memory address image.header) :
    Holds memory address expectedCookie ∧
      Holds memory (address + 4) (encode 4 image.code.length) ∧
      Holds memory (address + 8) (encode 4 image.data.length) ∧
      Holds memory (address + 12) (encode 4 image.bssSize) ∧
      Holds memory (address + 16) (encode 2 image.externals.length) ∧
      Holds memory (address + 18) (encode 2 image.locals.length) ∧
      Holds memory (address + 20) (encode 2 image.pointers.length) ∧
      Holds memory (address + 22) (encode 2 image.externalSymbols) := by
  have hcookie : expectedCookie.length = 4 := rfl
  simp only [Image.header, holds_append, List.length_append, length_encode, hcookie] at h
  simpa only [and_assoc] using h

theorem Stored.fields (h : Stored memory address image) :
    Holds memory address expectedCookie ∧
      Holds memory (address + 4) (encode 4 image.code.length) ∧
      Holds memory (address + 8) (encode 4 image.data.length) ∧
      Holds memory (address + 12) (encode 4 image.bssSize) ∧
      Holds memory (address + 16) (encode 2 image.externals.length) ∧
      Holds memory (address + 18) (encode 2 image.locals.length) ∧
      Holds memory (address + 20) (encode 2 image.pointers.length) ∧
      Holds memory (address + 22) (encode 2 image.externalSymbols) := fields_of_holds h.header

theorem Stored.cookie (h : Stored memory address image) :
    cookie memory address = expectedCookie := h.fields.1

theorem Stored.codeSize (h : Stored memory address image) :
    codeSize memory address = image.code.length := h.fields.2.1.readWord h.fits.code

theorem Stored.dataSize (h : Stored memory address image) :
    dataSize memory address = image.data.length := h.fields.2.2.1.readWord h.fits.data

theorem Stored.bssSize (h : Stored memory address image) :
    ModuleHeader.bssSize memory address = image.bssSize := h.fields.2.2.2.1.readWord h.fits.bss

theorem Stored.numberOfExternalRelocations (h : Stored memory address image) :
    numberOfExternalRelocations memory address = image.externals.length :=
  h.fields.2.2.2.2.1.readHalf h.fits.externals

theorem Stored.numberOfLocalRelocations (h : Stored memory address image) :
    numberOfLocalRelocations memory address = image.locals.length :=
  h.fields.2.2.2.2.2.1.readHalf h.fits.locals

theorem Stored.numberOfDataRelocations (h : Stored memory address image) :
    numberOfDataRelocations memory address = image.pointers.length :=
  h.fields.2.2.2.2.2.2.1.readHalf h.fits.pointers

theorem Stored.numberOfRelocations (h : Stored memory address image) :
    ModuleHeader.numberOfRelocations memory address = image.numberOfRelocations := by
  rw [ModuleHeader.numberOfRelocations, h.numberOfExternalRelocations, h.numberOfLocalRelocations,
    h.numberOfDataRelocations, Image.numberOfRelocations]

theorem Stored.numberOfSymbols (h : Stored memory address image) :
    numberOfSymbols memory address = image.externalSymbols + numberOfExportedSymbols := by
  have hexternal : numberOfExternalSymbols memory address = image.externalSymbols :=
    h.fields.2.2.2.2.2.2.2.readHalf h.fits.symbols
  rw [DynamicLinker.numberOfSymbols, hexternal]

end Header

section Layout

theorem codeOffset_eq (image : Image) : image.codeOffset = image.tables.length +
    if image.tables.length % 16 ≠ 0 then 16 - image.tables.length % 16 else 0 := aligned_eq _

theorem Stored.relocationSectionAddress (h : Stored memory address image) :
    relocationSectionAddress address = address + sizeofModuleHeader := by
  have hbelow := h.below
  have hbytes := length_bytes image
  have hcode := codeOffset_eq image
  have htables := length_tables image
  exact Nat.mod_eq_of_lt (by omega)

theorem Stored.symbolSectionAddress (h : Stored memory address image) :
    symbolSectionAddress memory address =
      address + sizeofModuleHeader + sizeofRelocation * image.numberOfRelocations := by
  have hbelow := h.below
  have hbytes := length_bytes image
  have hcode := codeOffset_eq image
  have htables := length_tables image
  rw [DynamicLinker.symbolSectionAddress, h.relocationSectionAddress, h.numberOfRelocations]
  exact Nat.mod_eq_of_lt (by omega)

theorem Stored.codeAddress (h : Stored memory address image) :
    codeAddress memory address = wrap (address + image.loadedOffset (address % 16)) := by
  have hbelow := h.below
  have hbytes := length_bytes image
  have hcode := codeOffset_eq image
  have htables := length_tables image
  have hsymbols := h.fits.symbols_le
  simp only [DynamicLinker.codeAddress, h.symbolSectionAddress, h.numberOfSymbols, wrap,
    loadedOffset, aligned_eq, numberOfExportedSymbols, sizeofSymbol] at htables ⊢
  split <;> split <;> omega

theorem Stored.dataAddress (h : Stored memory address image) :
    dataAddress memory address =
      wrap (address + image.loadedOffset (address % 16) + image.code.length) := by
  rw [DynamicLinker.dataAddress, h.codeAddress, h.codeSize, wrap, wrap, wrap, Nat.mod_add_mod]

theorem Stored.contents (h : Stored memory address image) :
    Holds memory (address + image.codeOffset) (image.code ++ image.data) := by
  have hrest := (holds_append.mp (holds_append.mp h.holds).2).2
  rwa [Nat.add_assoc] at hrest

theorem Stored.code (h : Stored memory address image) :
    Holds memory (address + image.codeOffset) image.code := (holds_append.mp h.contents).1

end Layout

section Tables

theorem Stored.tables (h : Stored memory address image) :
    Holds memory (address + sizeofModuleHeader) (image.entries.flatMap word) ∧
      Holds memory (address + sizeofModuleHeader + sizeofRelocation * image.numberOfRelocations)
        (image.symbols.flatMap symbolRecord) := by
  have htables := (holds_append.mp (holds_append.mp h.holds).1).2
  rw [length_header, holds_append, length_flatMap_record length_word, length_entries] at htables
  exact htables

-- The entry at a position of the relocation section
theorem Stored.relocation (h : Stored memory address image) {k : Nat}
    (hk : k < image.entries.length) :
    Relocation.index memory (address + sizeofModuleHeader + sizeofRelocation * k) =
        (image.entries[k]).1 ∧
      Relocation.offset memory (address + sizeofModuleHeader + sizeofRelocation * k) =
        (image.entries[k]).2 := by
  obtain ⟨hindex, hoffset⟩ := holds_append.mp (h.tables.1.record length_word hk)
  have hfits := h.fits.entry _ (List.getElem_mem hk)
  rw [length_encode] at hoffset
  exact ⟨hindex.readWord hfits.1, hoffset.readWord hfits.2⟩

theorem Stored.symbolCode (h : Stored memory address image) {k : Nat}
    (hk : k < image.symbols.length) :
    Symbol.code memory (address + sizeofModuleHeader +
      sizeofRelocation * image.numberOfRelocations + sizeofSymbol * k) = (image.symbols[k]).code := by
  have hrecord := h.tables.2.record length_symbolRecord hk
  rw [symbolRecord, holds_append] at hrecord
  have hcode := hrecord.2
  simp only [List.length_append, length_encode] at hcode
  exact hcode.readWord (h.fits.symbol _ (List.getElem_mem hk)).2.2

-- An external relocation leads to the symbol that it names.
theorem Stored.external (h : Stored memory address image) {k : Nat}
    (hk : k < image.externals.length) :
    Relocation.index memory (address + sizeofModuleHeader + sizeofRelocation * k) =
        (image.externals[k]).1 ∧
      Symbol.code memory (Relocation.symbol memory
        (address + sizeofModuleHeader + sizeofRelocation * k)) =
          (image.symbols[(image.externals[k]).2]?.map ModuleSymbol.code).getD 0 := by
  have hbelow := h.below
  have hbytes := length_bytes image
  have hcode := codeOffset_eq image
  have htables := length_tables image
  have hke : k < image.externalEntries.length := by rwa [length_externalEntries]
  have hlength : k < image.entries.length := by
    rw [length_entries, Image.numberOfRelocations]
    omega
  have hentry : image.entries[k] = ((image.externals[k]).1,
      (image.numberOfRelocations - k) * sizeofRelocation + sizeofSymbol * (image.externals[k]).2) := by
    have hfirst : image.entries[k] = image.externalEntries[k] := by
      simp only [entries, List.append_assoc]
      exact List.getElem_append_left hke
    rw [hfirst]
    simp [externalEntries]
  obtain ⟨hindex, hoffset⟩ := h.relocation hlength
  rw [hentry] at hindex hoffset
  have hposition := h.fits.external _ (List.getElem_mem hk)
  have hnumber : k < image.numberOfRelocations := by rwa [length_entries] at hlength
  simp only [sizeofRelocation, sizeofSymbol, sizeofModuleHeader] at htables hoffset
  have hsymbol : Relocation.symbol memory (address + sizeofModuleHeader + sizeofRelocation * k) =
      address + sizeofModuleHeader + sizeofRelocation * image.numberOfRelocations +
        sizeofSymbol * (image.externals[k]).2 := by
    simp only [Relocation.symbol, sizeofModuleHeader, sizeofRelocation, sizeofSymbol, hoffset]
    exact (Nat.mod_eq_of_lt (by omega)).trans (by omega)
  refine ⟨hindex, ?_⟩
  rw [hsymbol, h.symbolCode hposition, List.getElem?_eq_getElem hposition]
  rfl

end Tables

end Msos.Image
