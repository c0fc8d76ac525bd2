import Msos.ModuleFile
import Msos.Scripts.GenerateBinary.Writing

namespace Msos.Scripts

open Msos.Library Msos.Library.Memory

section Definitions

variable (api : Name → Option Nat) (sections : ModuleSections) (symbols : Dict Name Symbol)
  (relocations : List Relocation)

-- A file as generate_module writes it, whatever its relocations are against
structure Emitted (extracted : Extracted) (patched : List UInt8) (localEntries : List (Int × Int))
    (file : ModuleFile) : Prop where
  generated : Generated api sections symbols relocations extracted patched
  localEntries_eq : extracted.locals.mapM
    (localEntry sections.indices sections.code.data.length) = .ok localEntries
  bytes_eq : file.bytes = fileTables api sections symbols relocations extracted localEntries ++
    (padding (fileTables api sections symbols relocations extracted localEntries).length ++
      (patched ++ sections.data.data))

end Definitions

variable {api : Name → Option Nat} {sections : ModuleSections} {symbols : Dict Name Symbol}
  {relocations : List Relocation} {extracted : Extracted} {patched bytes : List UInt8}
  {localEntries : List (Int × Int)}

theorem emitted_of_ok (h : generateImage api sections symbols relocations = .ok bytes) :
    ∃ extracted patched localEntries file, file.bytes = bytes ∧
      Emitted api sections symbols relocations extracted patched localEntries file := by
  obtain ⟨extracted, patched, hg, localEntries, he, rfl⟩ := generateImage_eq_ok h
  have htables := @fileTables_eq api sections symbols relocations extracted patched localEntries hg
  refine ⟨extracted, patched, localEntries, ⟨_, ?_, ?_⟩, rfl, hg, he, ?_⟩
  · rw [htables]
    simp only [List.length_append, Image.length_header]
    omega
  · rw [htables]
    rfl
  · simp only [List.append_assoc]

section Counts

variable {file : ModuleFile}
  (h : Emitted api sections symbols relocations extracted patched localEntries file)
include h

theorem Emitted.tables_eq : fileTables api sections symbols relocations extracted localEntries =
    (imageOf api sections symbols relocations extracted patched).header ++
      ((relocationTable sections symbols relocations extracted localEntries).flatMap Image.word ++
        (symbolTable api sections symbols).flatMap Image.symbolRecord) := fileTables_eq h.generated

theorem Emitted.header_eq : ∃ rest, file.bytes =
    (imageOf api sections symbols relocations extracted patched).header ++ rest := by
  rw [h.bytes_eq, h.tables_eq, List.append_assoc]
  exact ⟨_, rfl⟩

theorem Emitted.length_localEntries : localEntries.length = extracted.locals.length :=
  Fallible.length_of_mapM h.localEntries_eq

theorem Emitted.sizes : file.codeSize = patched.length ∧
    file.dataSize = sections.data.data.length ∧ file.bssSize = sections.bss.size := by
  obtain ⟨rest, hb⟩ := h.header_eq
  obtain ⟨hcode, hdata, hbss⟩ := h.generated.sizes
  refine ModuleFile.sizes_of_header hb ?_ hdata hbss
  simpa only [imageOf, length_patchOffsets h.generated.patchOffsets_eq] using hcode

theorem Emitted.counts :
    file.numberOfExternalRelocations = (unique extracted.externals).length ∧
      file.numberOfLocalRelocations = extracted.locals.length ∧
      file.numberOfDataRelocations =
        (dataRelocations sections symbols relocations extracted).length ∧
      file.numberOfExternalSymbols = (externalSymbols sections symbols).length := by
  obtain ⟨rest, hb⟩ := h.header_eq
  obtain ⟨hexternals, hlocals, hpointers, hsymbols⟩ := h.generated.counts
  have hcounts := ModuleFile.counts_of_header hb
    (by simpa only [imageOf, List.length_map] using hexternals)
    (by simpa only [imageOf, List.length_map] using hlocals)
    (by simpa only [imageOf, List.length_map] using hpointers) hsymbols
  simpa only [imageOf, List.length_map] using hcounts

theorem Emitted.length_relocationTable :
    (relocationTable sections symbols relocations extracted localEntries).length =
      file.numberOfRelocations := by
  obtain ⟨hexternals, hlocals, hpointers, _⟩ := h.counts
  have hentries := h.length_localEntries
  rw [relocationTable, List.length_append, List.length_append, List.length_map, List.length_map,
    List.length_map, externalTable, externalEntries, List.length_map, List.length_zipIdx,
    ModuleFile.numberOfRelocations]
  omega

-- The symbols end the tables.
theorem Emitted.length_tables :
    (fileTables api sections symbols relocations extracted localEntries).length =
      file.symbolOffset (symbolTable api sections symbols).length := by
  have hlength := h.length_relocationTable
  rw [h.tables_eq, List.length_append, List.length_append, Image.length_header,
    length_flatMap_record Image.length_word, length_flatMap_record Image.length_symbolRecord,
    hlength, ModuleFile.symbolOffset, ModuleFile.relocationOffset, Nat.add_assoc]

theorem Emitted.length_bytes : file.bytes.length =
    Image.aligned (file.symbolOffset (symbolTable api sections symbols).length) +
      (patched.length + sections.data.data.length) := by
  have htables := h.length_tables
  rw [h.bytes_eq, List.length_append, List.length_append, List.length_append, htables,
    Image.aligned, Nat.add_assoc]
  rfl

theorem Emitted.symbol_le {k : Nat} (hk : k < (symbolTable api sections symbols).length) :
    file.symbolOffset k + sizeofSymbol ≤ file.bytes.length := by
  have htable : file.symbolOffset k + sizeofSymbol ≤
      file.symbolOffset (symbolTable api sections symbols).length := by
    simp only [ModuleFile.symbolOffset, sizeofSymbol]
    omega
  rw [h.length_bytes, Image.aligned]
  omega

-- The code and the data behind the padding
theorem Emitted.getElem?_contents (i : Nat) :
    file.bytes[Image.aligned (file.symbolOffset (symbolTable api sections symbols).length) + i]? =
      (patched ++ sections.data.data)[i]? := by
  have htables := h.length_tables
  have hpadding : padding (file.symbolOffset (symbolTable api sections symbols).length) =
    Image.padding (file.symbolOffset (symbolTable api sections symbols).length) := rfl
  rw [h.bytes_eq, List.getElem?_append_right (by rw [htables, Image.aligned]; omega),
    List.getElem?_append_right (by rw [htables, hpadding, Image.aligned]; omega)]
  refine congrArg (fun index => (patched ++ sections.data.data)[index]?) ?_
  rw [htables, hpadding, Image.aligned]
  omega

end Counts

section Contents

variable {file : ModuleFile} {memory : Memory} {address : Nat}
  (h : Emitted api sections symbols relocations extracted patched localEntries file)
  (hm : Holds memory address file.bytes)
include h hm

theorem Emitted.holds_tables :
    Holds memory (address + sizeofModuleHeader)
        ((relocationTable sections symbols relocations extracted localEntries).flatMap Image.word) ∧
      Holds memory (address + file.symbolOffset 0)
        ((symbolTable api sections symbols).flatMap Image.symbolRecord) := by
  have hlength := h.length_relocationTable
  rw [h.bytes_eq, h.tables_eq, holds_append, holds_append, holds_append, Image.length_header,
    length_flatMap_record Image.length_word, hlength] at hm
  obtain ⟨⟨_, hrelocations, hsymbols⟩, _⟩ := hm
  refine ⟨hrelocations, ?_⟩
  rwa [ModuleFile.symbolOffset, ModuleFile.relocationOffset, Nat.mul_zero, Nat.add_zero,
    ← Nat.add_assoc]

theorem Emitted.holds_symbol {k : Nat} (hk : k < (symbolTable api sections symbols).length) :
    Holds memory (address + file.symbolOffset k)
      (Image.symbolRecord (symbolTable api sections symbols)[k]) := by
  have hrecord := (h.holds_tables hm).2.record Image.length_symbolRecord hk
  rwa [ModuleFile.symbolOffset, Nat.mul_zero, Nat.add_zero, Nat.add_assoc] at hrecord

end Contents

section Entries

variable {file : ModuleFile}
  (h : Emitted api sections symbols relocations extracted patched localEntries file)
include h

-- The words of the entry at a position
theorem Emitted.entry {k : Nat} {entry : Nat × Nat}
    (he : (relocationTable sections symbols relocations extracted localEntries)[k]? = some entry) :
    file.word (ModuleFile.relocationOffset k) = entry.1 ∧
      file.word (ModuleFile.relocationOffset k + 4) = entry.2 := by
  obtain ⟨hk, rfl⟩ := List.getElem?_eq_some_iff.mp he
  have hlength := h.length_bytes
  have hcount := h.length_relocationTable
  have hlt := relocationTable_lt h.generated h.localEntries_eq (List.getElem_mem hk)
  have hroom : ModuleFile.relocationOffset k + 8 ≤ file.bytes.length := by
    rw [hlength, Image.aligned]
    simp only [ModuleFile.symbolOffset, ModuleFile.relocationOffset, sizeofRelocation]
    omega
  have hrecord := (h.holds_tables file.holds_memory).1.record Image.length_word hk
  rw [Nat.zero_add, Image.word, holds_append, length_encode] at hrecord
  exact ⟨file.word_of_holds (by omega) hrecord.1 hlt.1,
    file.word_of_holds (by omega) hrecord.2 hlt.2⟩

end Entries

end Msos.Scripts
