import Msos.Module.LookupTable
import Msos.Scripts.GenerateApi

namespace Msos.Module

open Msos.Library Scripts ElfParser GenerateApi DynamicLinker ModuleHeader

section Environments

variable {parse : Name → Option (List Cursor)} {description : Description} {api : Api}
  {exports : List (Name × Nat)}

-- An Environment of one SymbolAddress for each enumerator, with the address of
-- what the enumerator is named after.
def environment (address : Name → Nat) (exports : List (Name × Nat)) : List SymbolEntry :=
  exports.map fun item => ⟨item.2, address item.1⟩

-- A code belongs to one name, so an entry that has it is the one of the name.
theorem address_of_findEntry {address : Name → Nat}
    (hcodes : ((enumerators description api).map Prod.snd).Nodup)
    (hexports : ∀ item ∈ exports, item ∈ enumerators description api) {name : Name} {code : Nat}
    {entry : SymbolEntry} (hm : (name, code) ∈ enumerators description api)
    (h : findEntry (environment address exports) code = some entry) :
    entry.address = address name := by
  have hcode : entry.code = code := by simpa using List.find?_some h
  obtain ⟨item, hitem, rfl⟩ := List.mem_map.mp (List.mem_of_find?_eq_some h)
  have hsame : item = (name, code) :=
    List.inj_on_of_nodup_map hcodes (hexports item hitem) hm hcode
  rw [hsame]

theorem mem_environment (address : Name → Nat) {name : Name} {code : Nat}
    (hm : (name, code) ∈ exports) :
    (⟨code, address name⟩ : SymbolEntry) ∈ environment address exports :=
  List.mem_map.mpr ⟨(name, code), hm, rfl⟩

end Environments

section Named

variable {elf : ElfFile} {sections : ModuleSections} {load : Load}

-- The word of the relocation is the offset of a slot of the lookup table, and
-- the slot holds an address.
def LeadsTo (load : Load) (module : LoadedModule) (memory : Memory) (entry : RelocationEntry)
    (address : Nat) : Prop :=
  ∃ text ∈ module.text, ∃ i < numberOfExternalRelocations load.memory load.header +
      numberOfLocalRelocations load.memory load.header,
    memory.readWord (text + entry.offset) = 4 * i ∧
      memory.readWord (module.lot + 4 * i) = wrap address

-- From the names to the addresses: with codes of generate_api, a module that
-- generate_module makes reaches what its external symbols are named after,
-- wherever its image and its sections lie.
theorem leadsTo_named {parse : Name → Option (List Cursor)} {description : Description} {api : Api}
    {exports : List (Name × Nat)} {address : Name → Nat}
    {objcopy : ElfFile → Name → ElfFile} {file : List UInt8}
    (hapi : generateApi parse description = .ok api) (hapart : RangesApart description)
    (hnames : ((enumerators description api).map Prod.fst).Nodup)
    (hexports : ∀ item ∈ exports, item ∈ enumerators description api)
    (hs : moduleSections elf = .ok sections)
    (hg : generateModule objcopy api.generatedSymbols.get? elf = .ok file)
    (hw : WellFormed (changeVisibilityOfWrappedSymbols objcopy elf) sections)
    (hn : HasNoPointers (changeVisibilityOfWrappedSymbols objcopy elf)) (hv : load.Valid file)
    (haligned : load.header % 16 = 0) (hentries : load.entries = environment address exports)
    (himports : ∀ symbol ∈ processedSymbols (getSymbols (changeVisibilityOfWrappedSymbols objcopy
      elf)), localization symbol = .external → symbol.name ∈ exports.map Prod.fst)
    (linker : DynamicLinker) :
    ∃ module memory, load.Returns linker module memory ∧
      ∀ entry symbol, Against (changeVisibilityOfWrappedSymbols objcopy elf) entry symbol →
        entry.type = .gotBrel → Undisturbed (changeVisibilityOfWrappedSymbols objcopy elf) entry →
          localization symbol = .external →
            LeadsTo load module memory entry (address symbol.name) := by
  have hcodes := codes_nodup_of_apart hapart hapi
  have hp : Provides api.generatedSymbols.get? (getSymbols (changeVisibilityOfWrappedSymbols
      objcopy elf)) load.entries := by
    intro symbol hm hl code hcode
    obtain ⟨⟨name, found⟩, hitem, rfl⟩ := List.mem_map.mp (himports symbol hm hl)
    have hget := (get?_generatedSymbols hapi hnames).mpr (hexports _ hitem)
    obtain rfl := Option.some.inj (hget.symm.trans hcode)
    exact ⟨_, by rw [hentries]; exact mem_environment address hitem, rfl⟩
  obtain ⟨relocations, hr, hg⟩ := generateModule_eq_ok hs hg
  obtain ⟨extracted, patched, hx, hgenerated, hfits, rfl⟩ :=
    generated_of_ok (hw.got_ne_exported hr) hg
  have hlaid := hv.laid hfits
  have hslots := @slotted_imageOf api.generatedSymbols.get? sections _ _ _ patched hx
  have hinside : ∀ entry ∈ (imageOf api.generatedSymbols.get? sections (getSymbols
      (changeVisibilityOfWrappedSymbols objcopy elf)) relocations extracted patched).dataTable,
        4 * entry.1 + 4 ≤ sections.data.data.length := by
    intro entry hm
    rw [dataTable_eq_nil hr hn] at hm
    exact absurd hm List.not_mem_nil
  obtain ⟨start, hreturns⟩ := hlaid.returns hslots (resolved hx hgenerated hp) hinside linker
  refine ⟨_, _, hreturns, fun entry symbol ha ht hu hl => ?_⟩
  obtain ⟨i, hi, hword, hslot⟩ := resolves hw hr hx hgenerated hlaid haligned hinside hp ha ht hu
  refine ⟨load.text, rfl, i, ?_, hword, ?_⟩
  · rw [hlaid.stored.numberOfExternalRelocations, hlaid.stored.numberOfLocalRelocations]
    exact hi
  · rw [runtimeAddress, if_pos hl, hentries] at hslot
    obtain ⟨found, hfound, hword⟩ := Option.map_eq_some_iff.mp hslot.symm
    obtain ⟨code, hcode, hentry⟩ := Option.bind_eq_some_iff.mp hfound
    have hlisted := (get?_generatedSymbols hapi hnames).mp hcode
    have haddress := address_of_findEntry hcodes hexports hlisted hentry
    rw [← haddress]
    exact hword.symm

-- The description of a library with one generated header, and of the symbols
-- that a spawned module is linked with.
def headers : Name → Option (List Cursor) := fun name =>
  if name = "stdio.h".toList then
    some [⟨.functionDecl, "printf".toList, true⟩, ⟨.varDecl, "environ".toList, false⟩,
      ⟨.functionDecl, "puts".toList, true⟩]
  else none

def libraries : Description where
  libs := [("exported".toList, [(main, 1), ("undefined".toList, 2)])]
  generate := [("libc".toList, ⟨["stdio.h".toList], 100, 200⟩)]

def headerApi : Api :=
  (generateApi headers libraries).toOption.getD ⟨[], Dict.ofList []⟩

def symbolAddress : Name → Nat := fun name =>
  if name = "puts".toList then 0x08000101 else 0x08000201

def codesOf : List (Name × Nat) := [("printf".toList, 100), ("puts".toList, 101)]

def linked : Load where
  memory := Memory.store (fun _ => 0) 0x08010000
    ((generateModule keepVisibility headerApi.generatedSymbols.get? printerElf).toOption.getD [])
  header := 0x08010000
  mode := loadingModeCopyText
  entries := environment symbolAddress codesOf
  allocations := ⟨0x20004000, 0x20004100, 0x20004200, 0x20004300⟩

theorem leadsTo_named_printer :
    ∃ module memory, linked.Returns DynamicLinker.new module memory ∧
      ∀ entry symbol,
        Against (changeVisibilityOfWrappedSymbols keepVisibility printerElf) entry symbol →
          entry.type = .gotBrel →
            Undisturbed (changeVisibilityOfWrappedSymbols keepVisibility printerElf) entry →
              localization symbol = .external →
                LeadsTo linked module memory entry (symbolAddress symbol.name) :=
  @leadsTo_named printerElf _ linked headers libraries headerApi codesOf symbolAddress
    keepVisibility ((generateModule keepVisibility headerApi.generatedSymbols.get?
      printerElf).toOption.getD [])
    (show generateApi headers libraries = .ok headerApi from rfl)
    ⟨by decide, by decide, by decide⟩ (by decide) (by decide)
    (show moduleSections printerElf = .ok (sectionsOf printerElf) from rfl)
    (by decide +kernel) ⟨by decide, by decide, by decide, by decide⟩ (by decide)
    (by decide +kernel) (by decide) rfl (by decide) DynamicLinker.new

end Named

end Msos.Module
