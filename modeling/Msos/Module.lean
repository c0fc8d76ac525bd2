import Msos.DynamicLinker.Loading
import Msos.Scripts.GenerateBinary.Writing

namespace Msos.Module

open Msos.Library Msos.Library.Fallible Scripts ElfParser

section Definitions

-- The entries that get_relocations returns, with their symbols.
def Against (elf : ElfFile) (entry : RelocationEntry) (symbol : Symbol) : Prop :=
  entry ∈ elf.relocations ∧ entry.symbol ≠ 0 ∧ elf.symbols[entry.symbol]? = some symbol

-- A module with main as its only exported symbol, which no relocation of the
-- lookup table is against, and with distinct names. A symbol without a name
-- goes by the name of its section.
structure WellFormed (elf : ElfFile) (sections : ModuleSections) : Prop where
  distinct : ∀ symbol ∈ elf.symbols, ∀ other ∈ elf.symbols, isProcessed other →
    symbolName elf symbol = .ok other.name → symbol = other
  main : ∃ symbol ∈ elf.symbols, isProcessed symbol ∧ symbol.name = main ∧
    symbol.sectionIndex = .at sections.indices.code
  onlyMain : ∀ symbol ∈ elf.symbols, isProcessed symbol → localization symbol = .exported →
    symbol.name = Scripts.main
  notExported : ∀ entry ∈ elf.relocations, entry.type = .gotBrel → entry.symbol ≠ 0 →
    ∀ symbol ∈ elf.symbols[entry.symbol]?, localization symbol ≠ .exported

def isPointed (symbol : Symbol) : Prop := symbol.type = .object ∨ symbol.type = .func

instance (symbol : Symbol) : Decidable (isPointed symbol) := inferInstanceAs (Decidable (_ ∨ _))

-- The environment has every external symbol of the module.
def Provides (api : Name → Option Nat) (symbols : Dict Name Symbol) (entries : List SymbolEntry) :
    Prop :=
  ∀ symbol ∈ processedSymbols symbols, localization symbol = .external →
    ∀ code ∈ api symbol.name, ∃ entry ∈ entries, entry.code = code

instance (api : Name → Option Nat) (symbols : Dict Name Symbol) (entries : List SymbolEntry) :
    Decidable (Provides api symbols entries) :=
  inferInstanceAs (Decidable (∀ symbol ∈ processedSymbols symbols, _))

-- Where a place in a section of the module comes to lie
def sectionAddress (sections : ModuleSections) (text data : Nat) (sectionIndex : SectionIndex)
    (value : Nat) : Option Nat :=
  if sectionIndex = .at sections.indices.code then some (wrap (text + value))
  else if InData sections.indices sections.code.size sectionIndex value then
    some (wrap (data + (value - sections.code.size)))
  else none

-- The run-time address of a symbol
def runtimeAddress (api : Name → Option Nat) (sections : ModuleSections)
    (entries : List SymbolEntry) (text data : Nat) (symbol : Symbol) : Option Nat :=
  if localization symbol = .external then
    ((api symbol.name).bind (DynamicLinker.findEntry entries)).map fun entry => wrap entry.address
  else sectionAddress sections text data symbol.sectionIndex symbol.value

end Definitions

section Parser

variable {elf : ElfFile} {relocations : List Relocation} {relocation : Relocation}
  {entry : RelocationEntry} {symbol : Symbol}

theorem getRelocation_eq_ok : getRelocation elf entry = .ok relocation ↔
    ∃ symbol, elf.symbols[entry.symbol]? = some symbol ∧ ∃ name, symbolName elf symbol = .ok name ∧
      (⟨entry.offset, entry.type, name, symbol.value, symbol.sectionIndex⟩ : Relocation) =
        relocation := by
  unfold getRelocation
  cases elf.symbols[entry.symbol]? with
  | none => simp
  | some symbol => simp [map_eq_ok]

theorem mem_getRelocations (h : getRelocations elf = .ok relocations) :
    relocation ∈ relocations → ∃ entry symbol, Against elf entry symbol ∧
      symbolName elf symbol = .ok relocation.symbolName ∧
        relocation = ⟨entry.offset, entry.type, relocation.symbolName, symbol.value,
          symbol.sectionIndex⟩ := by
  intro hm
  obtain ⟨entry, he, hr⟩ := exists_of_mem_mapM h hm
  obtain ⟨symbol, hs, name, hn, rfl⟩ := getRelocation_eq_ok.mp hr
  obtain ⟨hmem, hne⟩ := List.mem_filter.mp he
  exact ⟨entry, symbol, ⟨hmem, by simpa using hne, hs⟩, hn, rfl⟩

theorem mem_getRelocations_of_against (h : getRelocations elf = .ok relocations)
    (ha : Against elf entry symbol) : ∃ relocation ∈ relocations,
      symbolName elf symbol = .ok relocation.symbolName ∧
        relocation = ⟨entry.offset, entry.type, relocation.symbolName, symbol.value,
          symbol.sectionIndex⟩ := by
  obtain ⟨hm, hne, hs⟩ := ha
  obtain ⟨relocation, hr, he⟩ :=
    exists_of_mapM h (List.mem_filter.mpr ⟨hm, by simpa using hne⟩)
  obtain ⟨found, hf, name, hn, rfl⟩ := getRelocation_eq_ok.mp he
  obtain rfl := Option.some.inj (hf.symm.trans hs)
  exact ⟨_, hr, hn, rfl⟩

theorem mem_getSymbols {name : Name} (h : (name, symbol) ∈ (getSymbols elf).items) :
    symbol ∈ elf.symbols ∧ symbol.name = name := by
  obtain ⟨found, hf, he⟩ := List.mem_map.mp (Dict.mem_of_mem_ofList h)
  rw [Prod.mk.injEq] at he
  rw [← he.2]
  exact ⟨hf, he.1⟩

theorem mem_processedSymbols (h : symbol ∈ processedSymbols (getSymbols elf)) :
    symbol ∈ elf.symbols ∧ isProcessed symbol := by
  obtain ⟨hm, hp⟩ := List.mem_filter.mp h
  obtain ⟨item, hi, rfl⟩ := List.mem_map.mp hm
  exact ⟨(mem_getSymbols hi).1, by simpa using hp⟩

theorem processedSymbols_nodup : ((processedSymbols (getSymbols elf)).map Symbol.name).Nodup := by
  have hkeys : (getSymbols elf).items.map Prod.fst =
      ((getSymbols elf).items.map Prod.snd).map Symbol.name := by
    rw [List.map_map]
    apply List.map_congr_left
    intro item hm
    exact (mem_getSymbols hm).2.symm
  have hnodup := (getSymbols elf).keys_nodup
  rw [hkeys] at hnodup
  exact hnodup.sublist (List.filter_sublist.map _)

theorem findProcessed_eq_some {name : Name}
    (h : findProcessed (processedSymbols (getSymbols elf)) name = some symbol) :
    symbol ∈ elf.symbols ∧ isProcessed symbol ∧ symbol.name = name := by
  have hmem := mem_processedSymbols (List.mem_of_find?_eq_some h)
  exact ⟨hmem.1, hmem.2, by simpa using List.find?_some h⟩

end Parser

section Symbols

variable {elf : ElfFile} {sections : ModuleSections} (h : WellFormed elf sections)
include h

-- With distinct names nothing is lost when the symbols are put by name.
theorem WellFormed.mem_processedSymbols {symbol : Symbol} (hm : symbol ∈ elf.symbols)
    (hp : isProcessed symbol) : symbol ∈ processedSymbols (getSymbols elf) := by
  obtain ⟨found, hf⟩ := Dict.exists_mem_ofList
    (List.mem_map_of_mem (f := fun symbol : Symbol => (symbol.name, symbol)) hm)
  obtain ⟨hfound, hname⟩ := mem_getSymbols hf
  have hsymbolname : symbolName elf found = .ok symbol.name := by
    rw [symbolName, hname, if_pos hp.1]
  have heq := h.distinct found hfound symbol hm hp hsymbolname
  rw [heq] at hf
  exact List.mem_filter.mpr ⟨List.mem_map_of_mem (f := Prod.snd) hf, by simpa using hp⟩

-- The symbol that is found by its name is the one the relocation is against.
theorem WellFormed.got {relocations : List Relocation} (hr : getRelocations elf = .ok relocations)
    {relocation : Relocation} (hm : relocation ∈ relocations) {symbol : Symbol}
    (hg : Got (processedSymbols (getSymbols elf)) relocation symbol) :
    isProcessed symbol ∧ ∃ entry, Against elf entry symbol ∧
      relocation = ⟨entry.offset, .gotBrel, symbol.name, symbol.value, symbol.sectionIndex⟩ ∧
        entry.type = .gotBrel := by
  obtain ⟨entry, against, ha, hn, he⟩ := mem_getRelocations hr hm
  obtain ⟨hs, hp, hname⟩ := findProcessed_eq_some hg.2
  rw [← hname] at hn
  have hagainst : against ∈ elf.symbols := List.mem_of_getElem? ha.2.2
  obtain rfl := h.distinct against hagainst symbol hs hp hn
  have htype : entry.type = .gotBrel := by
    have hgot := hg.1
    rw [he] at hgot
    exact hgot
  refine ⟨hp, entry, ha, ?_, htype⟩
  rw [he, htype, ← hname]

theorem WellFormed.got_ne_exported {relocations : List Relocation}
    (hr : getRelocations elf = .ok relocations) : ∀ relocation ∈ relocations, ∀ symbol,
      Got (processedSymbols (getSymbols elf)) relocation symbol →
        localization symbol ≠ .exported := by
  intro relocation hm symbol hg
  obtain ⟨_, entry, ha, _, ht⟩ := h.got hr hm hg
  exact h.notExported entry ha.1 ht ha.2.1 symbol ha.2.2

theorem WellFormed.exported_length :
    (exportedSymbols sections (getSymbols elf)).length = 1 := by
  obtain ⟨symbol, hm, hp, hn, hi⟩ := h.main
  have hexported : localization symbol = .exported := by
    rw [localization, if_pos (Or.inl hn), hi, if_neg (by simp)]
  have hmem : symbol ∈ (processedSymbols (getSymbols elf)).filter fun symbol =>
      localization symbol = .exported :=
    List.mem_filter.mpr ⟨h.mem_processedSymbols hm hp, by simpa using hexported⟩
  have hall : ∀ name ∈ ((processedSymbols (getSymbols elf)).filter fun symbol =>
      localization symbol = .exported).map Symbol.name, name = Scripts.main := by
    intro name hname
    obtain ⟨other, ho, rfl⟩ := List.mem_map.mp hname
    obtain ⟨ho, hl⟩ := List.mem_filter.mp ho
    obtain ⟨hother, hprocessed⟩ := Module.mem_processedSymbols ho
    exact h.onlyMain other hother hprocessed (by simpa using hl)
  have hnodup : (((processedSymbols (getSymbols elf)).filter fun symbol =>
      localization symbol = .exported).map Symbol.name).Nodup :=
    (@processedSymbols_nodup elf).sublist (List.filter_sublist.map _)
  have hle := List.nodup_iff_count_le_one.mp hnodup Scripts.main
  rw [List.count_eq_length.mpr fun name hname => (hall name hname).symm, List.length_map] at hle
  have hpos := List.length_pos_of_mem hmem
  rw [exportedSymbols, symbolsOf, List.length_map]
  omega

end Symbols

section Generated

variable {objcopy : ElfFile → Name → ElfFile} {api : Name → Option Nat} {elf : ElfFile}
  {sections : ModuleSections} {file : List UInt8}

theorem generateModule_eq_ok (hs : moduleSections elf = .ok sections)
    (hg : generateModule objcopy api elf = .ok file) :
    ∃ relocations, getRelocations (changeVisibilityOfWrappedSymbols objcopy elf) = .ok relocations ∧
      generateImage api sections (getSymbols (changeVisibilityOfWrappedSymbols objcopy elf))
        relocations = .ok file := by
  obtain ⟨found, hf, hg⟩ := bind_eq_ok.mp hg
  obtain rfl := Except.ok.inj (hf.symm.trans hs)
  exact bind_eq_ok.mp hg

end Generated

end Msos.Module
