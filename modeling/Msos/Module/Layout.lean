import Msos.DynamicLinker.Placing
import Msos.Module.Pointers
import Msos.Scripts.GenerateBinary.Emitting

namespace Msos.Module

open Msos.Library Msos.Library.Memory Msos.Library.Fallible
open Scripts ElfParser DynamicLinker ModuleHeader

section Scan

variable (memory : Memory)

-- The entries that the scan for a symbol is over, by their addresses
def scanned (header : Nat) : List Nat :=
  (List.range (numberOfSymbols memory header)).map fun k =>
    wrap (symbolSectionAddress memory header + sizeofSymbol * k)

theorem findSymbol_eq_find? (code address count : Nat) (h : wrap address = address) :
    findSymbol memory code address count =
      ((List.range count).map fun k => wrap (address + sizeofSymbol * k)).find? fun symbol =>
        Symbol.code memory symbol = code := by
  induction count generalizing address with
  | zero => rfl
  | succ count ih =>
      have hnext : ((List.range count).map fun k => wrap (address + sizeofSymbol * (k + 1))) =
          (List.range count).map fun k => wrap (wrap (address + sizeofSymbol) + sizeofSymbol * k) := by
        apply List.map_congr_left
        intro k _
        rw [wrap, wrap, wrap, Nat.mod_add_mod, Nat.mul_succ]
        congr 1
        omega
      rw [findSymbol, List.range_succ_eq_map, List.map_cons, List.map_map, Nat.mul_zero,
        Nat.add_zero, h, List.find?_cons]
      by_cases hc : Symbol.code memory address = code
      · rw [if_pos hc, decide_eq_true hc]
      · rw [if_neg hc, decide_eq_false hc, ih _ (wrap_wrap _), ← hnext]
        rfl

-- The scan for a code is a search through these entries.
theorem findSymbol_scanned (code header : Nat) :
    findSymbol memory code (symbolSectionAddress memory header) (numberOfSymbols memory header) =
      (scanned memory header).find? fun symbol => Symbol.code memory symbol = code :=
  findSymbol_eq_find? memory code _ _ (wrap_wrap _)

end Scan

section Definitions

variable (api : Name → Option Nat) (sections : ModuleSections) (symbols : Dict Name Symbol)

-- The loader takes the sections from where the generator has put them, and
-- scans the symbols that it has written.
structure LayoutAgrees (patched : List UInt8) (load : Load) : Prop where
  text : load.placed.bytes load.text (codeSize load.memory load.header) = patched
  data : load.placed.bytes load.allocations.data (dataSize load.memory load.header) =
    sections.data.data
  bss : load.placed.bytes (load.allocations.data + dataSize load.memory load.header)
    (bssSize load.memory load.header) = List.replicate sections.bss.size 0
  scan : List.Forall₂ (fun address symbol =>
      Holds load.memory address (Image.symbolRecord symbol))
    (scanned load.memory load.header) (symbolTable api sections symbols)

end Definitions

section Agreement

variable {api : Name → Option Nat} {sections : ModuleSections} {symbols : Dict Name Symbol}
  {relocations : List Relocation} {extracted : Extracted} {patched : List UInt8}
  {localEntries : List (Int × Int)} {file : ModuleFile} {load : Load}

theorem length_symbolTable : (symbolTable api sections symbols).length =
    (exportedSymbols sections symbols).length + (externalSymbols sections symbols).length := by
  rw [symbolTable, records, List.length_append, List.length_map, List.length_map]

variable (h : Emitted api sections symbols relocations extracted patched localEntries file)
include h

theorem numberOfSymbols_of_emitted :
    file.numberOfSymbols = (externalSymbols sections symbols).length + 1 := by
  rw [ModuleFile.numberOfSymbols, h.counts.2.2.2]
  rfl

theorem length_scanned (hv : load.Valid file.bytes) : (scanned load.memory load.header).length =
    (externalSymbols sections symbols).length + 1 := by
  rw [scanned, List.length_map, List.length_range, ModuleFile.numberOfSymbols_of_holds hv.holds,
    numberOfSymbols_of_emitted h]

section One

variable (hone : (exportedSymbols sections symbols).length = 1)
include hone

theorem numberOfSymbols_of_one :
    file.numberOfSymbols = (symbolTable api sections symbols).length := by
  rw [numberOfSymbols_of_emitted h, length_symbolTable, hone, Nat.add_comm]

-- At an aligned address the loader looks for the code where it is.
theorem codeOffset_of_one (ha : load.header % 16 = 0) : file.codeOffset (load.header % 16) =
    Image.aligned (file.symbolOffset (symbolTable api sections symbols).length) := by
  rw [ModuleFile.codeOffset, ha, Nat.zero_add, Nat.sub_zero, numberOfSymbols_of_one h hone]

theorem code_of_one (hv : load.Valid file.bytes) (ha : load.header % 16 = 0) {i : Nat}
    (hi : i < patched.length) :
    file.bytes[wrap (file.codeOffset (load.header % 16)) + i]? = some patched[i] := by
  have hbelow := hv.below
  have hlength := h.length_bytes
  have hoffset : wrap (file.codeOffset (load.header % 16)) =
      Image.aligned (file.symbolOffset (symbolTable api sections symbols).length) := by
    rw [codeOffset_of_one h hone ha]
    exact Nat.mod_eq_of_lt (by omega)
  rw [hoffset, h.getElem?_contents, List.getElem?_append_left hi, List.getElem?_eq_getElem hi]

theorem data_of_one (hv : load.Valid file.bytes) (ha : load.header % 16 = 0) {i : Nat}
    (hi : i < sections.data.data.length) :
    file.bytes[wrap (file.dataOffset (load.header % 16)) + i]? = some sections.data.data[i] := by
  have hbelow := hv.below
  have hlength := h.length_bytes
  have hoffset : wrap (file.dataOffset (load.header % 16)) =
      Image.aligned (file.symbolOffset (symbolTable api sections symbols).length) +
        patched.length := by
    rw [ModuleFile.dataOffset, codeOffset_of_one h hone ha, h.sizes.1]
    exact Nat.mod_eq_of_lt (by omega)
  rw [hoffset, Nat.add_assoc, h.getElem?_contents, List.getElem?_append_right (by omega),
    Nat.add_sub_cancel_left, List.getElem?_eq_getElem hi]

theorem scanned_of_one (hv : load.Valid file.bytes) :
    List.Forall₂ (fun address symbol => Holds load.memory address (Image.symbolRecord symbol))
      (scanned load.memory load.header) (symbolTable api sections symbols) := by
  have hbelow := hv.below
  have hnumber := numberOfSymbols_of_one h hone
  have hscanned := length_scanned h hv
  rw [← numberOfSymbols_of_emitted h, hnumber] at hscanned
  refine List.forall₂_iff_get.mpr ⟨hscanned, fun k hk hk' => ?_⟩
  have hrecord := h.holds_symbol hv.holds hk'
  have hplace := h.symbol_le hk'
  have haddress : (scanned load.memory load.header).get ⟨k, hk⟩ =
      load.header + file.symbolOffset k := by
    rw [List.get_eq_getElem]
    simp only [scanned, List.getElem_map, List.getElem_range,
      ModuleFile.symbolSectionAddress_of_holds hv.holds]
    rw [wrap, wrap, Nat.mod_add_mod, ModuleFile.symbolOffset, ModuleFile.symbolOffset, Nat.mul_zero,
      Nat.add_zero, Nat.add_assoc]
    simp only [ModuleFile.symbolOffset, sizeofSymbol] at hplace ⊢
    exact Nat.mod_eq_of_lt (by omega)
  rw [haddress]
  exact hrecord

theorem layoutAgrees_of_one (hv : load.Valid file.bytes) (ha : load.header % 16 = 0) :
    LayoutAgrees api sections symbols patched load := by
  obtain ⟨hcode, hdata, hbss⟩ := h.sizes
  refine ⟨?_, ?_, ?_, scanned_of_one h hone hv⟩
  · rw [ModuleFile.codeSize_of_holds hv.holds, hcode]
    apply List.ext_getElem
    · rw [length_bytes]
    · intro i _ hi
      rw [getElem_bytes, hv.placed_text (by omega) (code_of_one h hone hv ha hi)]
  · rw [ModuleFile.dataSize_of_holds hv.holds, hdata]
    apply List.ext_getElem
    · rw [length_bytes]
    · intro i _ hi
      rw [getElem_bytes, hv.placed_data (by omega) (data_of_one h hone hv ha hi)]
  · rw [ModuleFile.dataSize_of_holds hv.holds, ModuleFile.bssSize_of_holds hv.holds, ← hbss]
    apply List.ext_getElem
    · rw [length_bytes, List.length_replicate]
    · intro i hi _
      rw [length_bytes] at hi
      rw [getElem_bytes, hv.placed_bss hi, List.getElem_replicate]

end One

end Agreement

section Condition

variable {objcopy : ElfFile → Name → ElfFile} {api : Name → Option Nat} {elf : ElfFile}
  {sections : ModuleSections} {relocations : List Relocation} {extracted : Extracted}
  {patched file : List UInt8} {load : Load}

theorem emitted_of_generateModule (hs : moduleSections elf = .ok sections)
    (hr : getRelocations (changeVisibilityOfWrappedSymbols objcopy elf) = .ok relocations)
    (hx : extractRelocations
      (processedSymbols (getSymbols (changeVisibilityOfWrappedSymbols objcopy elf)))
        relocations = .ok extracted)
    (hg : generateModule objcopy api elf = .ok file) :
    ∃ patched localEntries moduleFile, moduleFile.bytes = file ∧
      patchOffsets sections.code.data extracted = .ok patched ∧
        Emitted api sections (getSymbols (changeVisibilityOfWrappedSymbols objcopy elf)) relocations
          extracted patched localEntries moduleFile := by
  obtain ⟨found, hf, hg⟩ := generateModule_eq_ok hs hg
  obtain rfl := Except.ok.inj (hf.symm.trans hr)
  obtain ⟨other, patched, localEntries, moduleFile, hbytes, he⟩ := emitted_of_ok hg
  obtain rfl := Except.ok.inj (he.generated.extractRelocations_eq.symm.trans hx)
  exact ⟨patched, localEntries, moduleFile, hbytes, he.generated.patchOffsets_eq, he⟩

-- The loader finds the sections of a module when it exports one symbol, as the
-- header assumes.
theorem layoutAgrees_iff (hs : moduleSections elf = .ok sections)
    (hr : getRelocations (changeVisibilityOfWrappedSymbols objcopy elf) = .ok relocations)
    (hx : extractRelocations
      (processedSymbols (getSymbols (changeVisibilityOfWrappedSymbols objcopy elf)))
        relocations = .ok extracted)
    (hp : patchOffsets sections.code.data extracted = .ok patched)
    (hg : generateModule objcopy api elf = .ok file) (hv : load.Valid file)
    (ha : load.header % 16 = 0) :
    LayoutAgrees api sections (getSymbols (changeVisibilityOfWrappedSymbols objcopy elf)) patched
        load ↔
      (exportedSymbols sections
        (getSymbols (changeVisibilityOfWrappedSymbols objcopy elf))).length = 1 := by
  obtain ⟨other, localEntries, moduleFile, rfl, ho, he⟩ := emitted_of_generateModule hs hr hx hg
  obtain rfl := Except.ok.inj (ho.symm.trans hp)
  refine ⟨fun hl => ?_, fun hone => layoutAgrees_of_one he hone hv ha⟩
  have hlength := hl.scan.length_eq
  rw [length_scanned he hv, length_symbolTable] at hlength
  omega

end Condition

section Hidden

def extractedOf (elf : ElfFile) : Extracted :=
  (extractRelocations (processedSymbols (symbolsOfFile elf)) (relocationsOfFile elf)).toOption.getD
    Extracted.empty

def patchedOf (elf : ElfFile) : List UInt8 :=
  (patchOffsets (sectionsOf elf).code.data (extractedOf elf)).toOption.getD []

theorem layoutAgrees_printer :
    LayoutAgrees libraryApi (sectionsOf printerElf) (symbolsOfFile printerElf)
      (patchedOf printerElf) (loadOf printerElf) :=
  (layoutAgrees_iff (show moduleSections printerElf = .ok (sectionsOf printerElf) from rfl)
    (show getRelocations (changeVisibilityOfWrappedSymbols keepVisibility printerElf) =
      .ok (relocationsOfFile printerElf) by decide +kernel)
    (show extractRelocations (processedSymbols (symbolsOfFile printerElf))
      (relocationsOfFile printerElf) = .ok (extractedOf printerElf) from rfl)
    (show patchOffsets (sectionsOf printerElf).code.data (extractedOf printerElf) =
      .ok (patchedOf printerElf) by decide +kernel)
    (show generateModule keepVisibility libraryApi printerElf = .ok (fileOf printerElf) by
      decide +kernel)
    (by decide +kernel) (by decide)).mpr (by decide +kernel)

-- A module with a function of its own only, which exports nothing
def hiddenElf : ElfFile where
  sections := [⟨[], 0, []⟩, ⟨".text".toList, 0, [1, 2, 3, 4, 5, 6, 7, 8]⟩, ⟨".data".toList, 8, []⟩,
    ⟨".bss".toList, 8, []⟩]
  symbols := [nullSymbol, ⟨"format".toList, .func, .local_, .default_, 0, .at 1⟩]
  relocations := []

-- The loader counts the symbol that is missing, and passes over the code.
theorem hidden_misplaced :
    moduleSections hiddenElf = .ok (sectionsOf hiddenElf) ∧
      extractRelocations (processedSymbols (symbolsOfFile hiddenElf))
        (relocationsOfFile hiddenElf) = .ok (extractedOf hiddenElf) ∧
      patchOffsets (sectionsOf hiddenElf).code.data (extractedOf hiddenElf) =
        .ok (patchedOf hiddenElf) ∧
      generateModule keepVisibility libraryApi hiddenElf = .ok (fileOf hiddenElf) ∧
      (loadOf hiddenElf).Valid (fileOf hiddenElf) ∧ (loadOf hiddenElf).header % 16 = 0 ∧
      ¬LayoutAgrees libraryApi (sectionsOf hiddenElf) (symbolsOfFile hiddenElf)
        (patchedOf hiddenElf) (loadOf hiddenElf) := by
  refine ⟨rfl, rfl, by decide +kernel, by decide +kernel, by decide +kernel, rfl,
    fun h => ?_⟩
  have htext := h.text
  revert htext
  decide +kernel

end Hidden

end Msos.Module
