import Msos.Module.Layout

namespace Msos.Module

open Msos.Library Msos.Library.Memory Msos.Library.Fallible
open Scripts ElfParser ModuleFile

section Definitions

variable (api : Name → Option Nat) (sections : ModuleSections) (symbols : Dict Name Symbol)
  (extracted : Extracted) (file : ModuleFile)

-- The external relocation at a position leads to the symbol of its name, whose
-- record is there.
def LeadsToSymbol (k : Nat) : Prop :=
  ∃ external, (unique extracted.externals)[k]? = some external ∧
    ∃ j symbol, (externalSymbols sections symbols)[j]? = some symbol ∧
      symbol.name = external.name ∧
      relocationOffset k + file.word (relocationOffset k + 4) =
        file.symbolOffset ((exportedSymbols sections symbols).length + j) ∧
      (file.bytes.drop (file.symbolOffset ((exportedSymbols sections symbols).length + j))).take
        sizeofSymbol = Image.symbolRecord (externalRecord api sections.code.data.length symbol)

-- The entries lead to their symbols, and each slot that the code can reach is
-- the one of an entry, within the table that the loader allocates.
structure WellFormedEntries : Prop where
  leads : ∀ k < file.numberOfExternalRelocations, LeadsToSymbol api sections symbols extracted file k
  stored : ∀ index ∈ file.lotIndices, index < file.slots
  patched : ∀ patch ∈ patches extracted, patch.2 < file.slots
  distinct : file.lotIndices.Nodup
  filled : ∀ patch ∈ patches extracted, ∃ index ∈ file.lotIndices, (index : Int) = patch.2

end Definitions

variable {api : Name → Option Nat} {sections : ModuleSections} {symbols : Dict Name Symbol}
  {relocations : List Relocation} {extracted : Extracted} {patched : List UInt8}
  {localEntries : List (Int × Int)} {file : ModuleFile}

section Slots

theorem map_range_length {α β : Type*} {list : List α} {f : Nat → β} {g : α → β}
    (h : ∀ k a, list[k]? = some a → f k = g a) : (List.range list.length).map f = list.map g := by
  apply List.ext_getElem
  · rw [List.length_map, List.length_map, List.length_range]
  · intro k _ hk
    rw [List.length_map] at hk
    rw [List.getElem_map, List.getElem_map, List.getElem_range]
    exact h k _ (List.getElem?_eq_getElem hk)

theorem length_externalTable : ((externalTable sections symbols relocations extracted).map
    natEntry).length = (unique extracted.externals).length := by
  rw [List.length_map, externalTable, externalEntries, List.length_map, List.length_zipIdx]

variable (hx : Allots (processedSymbols symbols) relocations extracted)
  (h : Emitted api sections symbols relocations extracted patched localEntries file)
include h

-- The entry of an external relocation, whose offset counts every relocation
theorem external_entry {k : Nat} {external : NamedRelocation}
    (he : (unique extracted.externals)[k]? = some external) :
    file.word (relocationOffset k) = external.index.toNat ∧
      file.word (relocationOffset k + 4) =
        (numberOfEntries sections symbols relocations extracted - k) * sizeofRelocation +
          sizeofSymbol * ((exportedSymbols sections symbols).length +
            position (externalSymbols sections symbols) external.name) := by
  obtain ⟨hk, _⟩ := List.getElem?_eq_some_iff.mp he
  have htable := @natEntry_externalEntries (externalSymbols sections symbols)
    (unique extracted.externals) (numberOfEntries sections symbols relocations extracted)
    (exportedSymbols sections symbols).length (by unfold numberOfEntries; omega)
  have hget : (relocationTable sections symbols relocations extracted localEntries)[k]? =
      some (external.index.toNat,
        (numberOfEntries sections symbols relocations extracted - k) * sizeofRelocation +
          sizeofSymbol * ((exportedSymbols sections symbols).length +
            position (externalSymbols sections symbols) external.name)) := by
    rw [relocationTable, List.append_assoc,
      List.getElem?_append_left (by rwa [length_externalTable]), externalTable, htable,
      List.getElem?_map, List.getElem?_zipIdx, he]
    simp
  exact h.entry hget

include hx

theorem local_entry {k : Nat} {local_ : LocalRelocation} (he : extracted.locals[k]? = some local_) :
    file.word (relocationOffset (file.numberOfExternalRelocations + k)) >>> 1 =
      local_.index.toNat := by
  obtain ⟨hk, _⟩ := List.getElem?_eq_some_iff.mp he
  have hwords := localWords_eq h.generated (fun local_ hm => hx.index_nonneg
    (List.mem_append_right _ (List.mem_map_of_mem hm))) h.localEntries_eq
  have hget : (relocationTable sections symbols relocations extracted localEntries)[
      file.numberOfExternalRelocations + k]? =
        some (localWord sections.indices sections.code.data.length local_) := by
    rw [relocationTable, List.append_assoc, h.counts.1,
      List.getElem?_append_right (by rw [length_externalTable]; omega), length_externalTable,
      Nat.add_sub_cancel_left, hwords, List.getElem?_append_left (by rwa [List.length_map]),
      List.getElem?_map, he]
    rfl
  rw [(h.entry hget).1, localWord_slot]

-- The entries are for the slots that the two lists are numbered with.
theorem lotIndices_eq : file.lotIndices = (slotIndices extracted).map Int.toNat := by
  rw [ModuleFile.lotIndices, slotIndices, List.map_append, List.map_map, List.map_map, h.counts.1,
    h.counts.2.1]
  congr 1
  · exact map_range_length fun k external he => (external_entry h he).1
  · refine map_range_length fun k local_ he => ?_
    rw [← h.counts.1]
    exact local_entry hx h he

-- All numbers that are given out: the slots of the entries, and the one of main
theorem numbers_perm : ((slotIndices extracted ++
    (unique extracted.exporteds).map NamedRelocation.index).Perm
      ((List.range (file.slots + (unique extracted.exporteds).length)).map Int.ofNat)) := by
  obtain ⟨count, _, hp⟩ := hx.numbered
  have hlength := hp.length_eq
  simp only [slotIndices, List.length_append, List.length_map, List.length_range] at hlength
  rw [ModuleFile.slots, h.counts.1, h.counts.2.1, hlength]
  exact hp

end Slots

section Main

-- Each patch is one of the numbers of the entries.
theorem patch_mem (hx : Allots (processedSymbols symbols) relocations extracted)
    (hnone : extracted.exporteds = []) {patch : Nat × Int} (hm : patch ∈ patches extracted) :
    patch.2 ∈ slotIndices extracted := by
  rcases mem_patches.mp hm with ⟨local_, hl, rfl⟩ | ⟨external, he, rfl⟩ | ⟨exported, he, _⟩
  · exact List.mem_append_right _ (List.mem_map_of_mem hl)
  · obtain ⟨first, hf, hname⟩ := hasRelocation_unique_iff.mpr ⟨external, he, rfl⟩
    have hindex := hx.shared first (mem_of_mem_unique hf) external he hname
    rw [← hindex]
    exact List.mem_append_left _ (List.mem_map_of_mem hf)
  · rw [hnone] at he
    exact absurd he List.not_mem_nil

theorem record_of_emitted
    (h : Emitted api sections symbols relocations extracted patched localEntries file) {j : Nat}
    {symbol : ImageSymbol} (hj : (externalSymbols sections symbols)[j]? = some symbol) :
    (file.bytes.drop (file.symbolOffset ((exportedSymbols sections symbols).length + j))).take
      sizeofSymbol = Image.symbolRecord (externalRecord api sections.code.data.length symbol) := by
  have hget : (symbolTable api sections symbols)[(exportedSymbols sections symbols).length + j]? =
      some (externalRecord api sections.code.data.length symbol) := by
    have hexported : ((exportedSymbols sections symbols).map
        (exportedRecord api sections.code.data.length)).length =
          (exportedSymbols sections symbols).length := List.length_map ..
    rw [symbolTable, records, List.getElem?_append_right (by omega), hexported,
      Nat.add_sub_cancel_left, List.getElem?_map, hj]
    rfl
  obtain ⟨hk, hsymbol⟩ := List.getElem?_eq_some_iff.mp hget
  have hrecord := h.holds_symbol file.holds_memory hk
  have hroom := h.symbol_le hk
  rw [hsymbol, Holds, Image.length_symbolRecord] at hrecord
  rw [← hrecord]
  exact (file.holds_memory.slice hroom).symm

variable (hx : Allots (processedSymbols symbols) relocations extracted)
  (h : Emitted api sections symbols relocations extracted patched localEntries file)
include hx h

-- With main among the numbers, the last one is beyond the slots of the entries.
theorem not_wellFormedEntries (hne : extracted.exporteds ≠ []) :
    ¬WellFormedEntries api sections symbols extracted file := by
  intro hw
  have hpos : 0 < (unique extracted.exporteds).length := by
    obtain ⟨exported, hm⟩ := List.exists_mem_of_ne_nil _ hne
    obtain ⟨first, hf, _⟩ := hasRelocation_unique_iff.mpr ⟨exported, hm, rfl⟩
    exact List.length_pos_of_mem hf
  have hlast : (file.slots : Int) ∈ slotIndices extracted ++
      (unique extracted.exporteds).map NamedRelocation.index := by
    refine (numbers_perm hx h).mem_iff.mpr (List.mem_map.mpr ⟨file.slots, ?_, rfl⟩)
    exact List.mem_range.mpr (by omega)
  rcases List.mem_append.mp hlast with hm | hm
  · have hstored := hw.stored file.slots (by
      rw [lotIndices_eq hx h]
      exact List.mem_map.mpr ⟨_, hm, Int.toNat_natCast _⟩)
    omega
  · obtain ⟨exported, hu, he⟩ := List.mem_map.mp hm
    have hpatched := hw.patched (exported.offset, exported.index)
      (mem_patches.mpr (Or.inr (Or.inr ⟨exported, mem_of_mem_unique hu, rfl⟩)))
    dsimp only at hpatched
    omega

variable (hnone : extracted.exporteds = [])
include hnone

theorem slots_perm_of_none : (slotIndices extracted).Perm
    ((List.range file.slots).map Int.ofNat) := by
  have hp := numbers_perm hx h
  rw [hnone] at hp
  simpa [unique] using hp

theorem lotIndices_perm : file.lotIndices.Perm (List.range file.slots) := by
  have hp := (slots_perm_of_none hx h hnone).map Int.toNat
  have hrange : ((List.range file.slots).map Int.ofNat).map Int.toNat = List.range file.slots := by
    rw [List.map_map]
    exact List.map_id _
  rw [hrange] at hp
  rw [lotIndices_eq hx h]
  exact hp

theorem leadsToSymbol {k : Nat} (hk : k < file.numberOfExternalRelocations) :
    LeadsToSymbol api sections symbols extracted file k := by
  rw [h.counts.1] at hk
  have he := List.getElem?_eq_getElem hk
  obtain ⟨found, hfound, hname⟩ := position_spec (@external_found sections _ _ _
    (hx.externals _ (mem_of_mem_unique (List.getElem_mem hk))))
  refine ⟨_, he, _, found, hfound, hname, ?_, ?_⟩
  · have htotal : numberOfEntries sections symbols relocations extracted =
        file.numberOfRelocations := by
      rw [ModuleFile.numberOfRelocations, h.counts.1, h.counts.2.1, h.counts.2.2.1, numberOfEntries,
        hnone]
      simp only [unique, List.foldl_nil, List.length_nil]
      omega
    have hle : k < file.numberOfRelocations := by
      rw [ModuleFile.numberOfRelocations, h.counts.1]
      omega
    rw [(external_entry h he).2, htotal]
    simp only [relocationOffset, ModuleFile.symbolOffset, sizeofRelocation]
    omega
  · exact record_of_emitted h hfound

theorem wellFormedEntries : WellFormedEntries api sections symbols extracted file := by
  have hperm := lotIndices_perm hx h hnone
  have hslots := slots_perm_of_none hx h hnone
  refine ⟨fun k hk => leadsToSymbol hx h hnone hk, ?_, ?_, ?_, ?_⟩
  · exact fun index hm => List.mem_range.mp (hperm.mem_iff.mp hm)
  · intro patch hm
    obtain ⟨slot, hslot, he⟩ := List.mem_map.mp (hslots.mem_iff.mp (patch_mem hx hnone hm))
    have hlt := List.mem_range.mp hslot
    rw [← he]
    exact Int.ofNat_lt.mpr hlt
  · exact hperm.nodup_iff.mpr List.nodup_range
  · intro patch hm
    have hnumber := patch_mem hx hnone hm
    refine ⟨patch.2.toNat, ?_, Int.toNat_of_nonneg (hx.index_nonneg hnumber)⟩
    rw [lotIndices_eq hx h]
    exact List.mem_map_of_mem hnumber

end Main

section Condition

variable {objcopy : ElfFile → Name → ElfFile} {elf : ElfFile} {bytes : List UInt8}

-- The entries are well formed when no relocation is against the main of the
-- module: that one is counted and numbered, and has no entry.
theorem wellFormedEntries_iff (hs : moduleSections elf = .ok sections)
    (hr : getRelocations (changeVisibilityOfWrappedSymbols objcopy elf) = .ok relocations)
    (hx : extractRelocations
      (processedSymbols (getSymbols (changeVisibilityOfWrappedSymbols objcopy elf)))
        relocations = .ok extracted)
    (hg : generateModule objcopy api elf = .ok bytes) :
    ∃ file : ModuleFile, file.bytes = bytes ∧
      (WellFormedEntries api sections
          (getSymbols (changeVisibilityOfWrappedSymbols objcopy elf)) extracted file ↔
        ∀ relocation ∈ relocations, ¬AgainstMain
          (processedSymbols (getSymbols (changeVisibilityOfWrappedSymbols objcopy elf)))
            relocation) := by
  obtain ⟨patched, localEntries, file, hbytes, -, he⟩ := emitted_of_generateModule hs hr hx hg
  have ha := allots_of_ok hx
  refine ⟨file, hbytes, ?_⟩
  rw [← ha.exporteds]
  constructor
  · intro hw
    by_contra hne
    exact not_wellFormedEntries ha he hne hw
  · exact wellFormedEntries ha he

end Condition

section Address

theorem wellFormedEntries_iff_printer : ∃ file : ModuleFile, file.bytes = fileOf printerElf ∧
    (WellFormedEntries libraryApi (sectionsOf printerElf) (symbolsOfFile printerElf)
        (extractedOf printerElf) file ↔
      ∀ relocation ∈ relocationsOfFile printerElf,
        ¬AgainstMain (processedSymbols (symbolsOfFile printerElf)) relocation) :=
  wellFormedEntries_iff (show moduleSections printerElf = .ok (sectionsOf printerElf) from rfl)
    (show getRelocations (changeVisibilityOfWrappedSymbols keepVisibility printerElf) =
      .ok (relocationsOfFile printerElf) by decide +kernel)
    (show extractRelocations (processedSymbols (symbolsOfFile printerElf))
      (relocationsOfFile printerElf) = .ok (extractedOf printerElf) from rfl)
    (show generateModule keepVisibility libraryApi printerElf = .ok (fileOf printerElf) by
      decide +kernel)

-- A module whose code takes the address of main before it refers to puts
def addressElf : ElfFile where
  sections := [⟨[], 0, []⟩, ⟨".text".toList, 0, List.replicate 12 0⟩, ⟨".data".toList, 12, []⟩,
    ⟨".bss".toList, 12, []⟩]
  symbols := [nullSymbol, ⟨main, .func, .global_, .default_, 0, .at 1⟩,
    ⟨"puts".toList, .noType, .global_, .default_, 0, .undef⟩]
  relocations := [⟨4, .gotBrel, 1⟩, ⟨8, .gotBrel, 2⟩]

def addressFile : ModuleFile where
  bytes := fileOf addressElf
  whole := by decide +kernel
  cookie_eq := by decide +kernel

-- Of the two slots one is allocated, and puts has the other one. Its entry
-- leads to a place eight bytes behind its symbol.
theorem address_not_wellFormed :
    moduleSections addressElf = .ok (sectionsOf addressElf) ∧
      extractRelocations (processedSymbols (symbolsOfFile addressElf))
        (relocationsOfFile addressElf) = .ok (extractedOf addressElf) ∧
      generateModule keepVisibility libraryApi addressElf = .ok addressFile.bytes ∧
      addressFile.slots = 1 ∧ addressFile.lotIndices = [1] ∧
      relocationOffset 0 + addressFile.word (relocationOffset 0 + 4) =
        addressFile.symbolOffset 1 + 8 ∧
      ¬WellFormedEntries libraryApi (sectionsOf addressElf) (symbolsOfFile addressElf)
        (extractedOf addressElf) addressFile := by
  refine ⟨rfl, rfl, by decide +kernel, by decide +kernel, by decide +kernel, by decide +kernel,
    fun h => ?_⟩
  have hstored := h.stored 1 (by decide +kernel)
  revert hstored
  decide +kernel

end Address

end Msos.Module
