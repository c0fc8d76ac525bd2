import Msos.Module

namespace Msos.Module

open Msos.Library Msos.Library.Memory Msos.Library.Fallible
open Scripts ElfParser DynamicLinker ModuleHeader

section Slots

variable {api : Name → Option Nat} {sections : ModuleSections} {symbols : Dict Name Symbol}
  {relocations : List Relocation} {extracted : Extracted} {patched : List UInt8}

theorem localWord_slot (indices : SectionIndices) (codeLength : Nat) (local_ : LocalRelocation) :
    (localWord indices codeLength local_).1 >>> 1 = local_.index.toNat := by
  rw [Nat.shiftRight_eq_div_pow, localWord]
  split
  · dsimp only
    omega
  · dsimp only
    omega

theorem slots_imageOf (hx : Extracts (processedSymbols symbols) relocations extracted) :
    ((imageOf api sections symbols relocations extracted patched).slots : Int) =
      extracted.index := by
  obtain ⟨count, hc, hp⟩ := hx.numbered
  have hlength := hp.length_eq
  rw [slotIndices, List.length_append, List.length_map, List.length_map, List.length_map,
    List.length_range] at hlength
  rw [Image.slots, imageOf, List.length_map, List.length_map, hlength, hc]

-- The relocations of a module take every slot of its lookup table once.
theorem slots_perm (hx : Extracts (processedSymbols symbols) relocations extracted) :
    ((imageOf api sections symbols relocations extracted patched).externals.map Prod.fst ++
      (imageOf api sections symbols relocations extracted patched).locals.map
        fun local_ => local_.1 >>> 1).Perm
          (List.range (imageOf api sections symbols relocations extracted patched).slots) := by
  have hlist : (imageOf api sections symbols relocations extracted patched).externals.map Prod.fst ++
      (imageOf api sections symbols relocations extracted patched).locals.map
        (fun local_ => local_.1 >>> 1) = (slotIndices extracted).map Int.toNat := by
    rw [slotIndices, List.map_append, List.map_map, List.map_map, imageOf, List.map_map, List.map_map]
    congr 1
    apply List.map_congr_left
    intro local_ _
    exact localWord_slot ..
  have hslots := @slots_imageOf api sections symbols relocations extracted patched hx
  obtain ⟨count, hc, hp⟩ := hx.numbered
  have hcount : (imageOf api sections symbols relocations extracted patched).slots = count := by
    omega
  have hrange : ((List.range count).map Int.ofNat).map Int.toNat = List.range count := by
    rw [List.map_map]
    exact List.map_id _
  rw [hlist, hcount, ← hrange]
  exact hp.map _

theorem slotted_imageOf (hx : Extracts (processedSymbols symbols) relocations extracted) :
    (imageOf api sections symbols relocations extracted patched).Slotted := by
  have hp := @slots_perm api sections symbols relocations extracted patched hx
  constructor
  · intro external hm
    exact List.mem_range.mp (hp.mem_iff.mp (List.mem_append_left _ (List.mem_map_of_mem hm)))
  · intro local_ hm
    exact List.mem_range.mp (hp.mem_iff.mp (List.mem_append_right _
      (List.mem_map_of_mem (f := fun local_ : Nat × Nat => local_.1 >>> 1) hm)))

theorem writes_nodup (hx : Extracts (processedSymbols symbols) relocations extracted)
    (entries : List SymbolEntry) (text data : Nat) :
    (((imageOf api sections symbols relocations extracted patched).externalWrites entries ++
      (imageOf api sections symbols relocations extracted patched).localWrites text data).map
        Prod.fst).Nodup := by
  have hp := @slots_perm api sections symbols relocations extracted patched hx
  have hlist : ((imageOf api sections symbols relocations extracted patched).externalWrites entries ++
      (imageOf api sections symbols relocations extracted patched).localWrites text data).map
        Prod.fst =
      (imageOf api sections symbols relocations extracted patched).externals.map Prod.fst ++
        (imageOf api sections symbols relocations extracted patched).locals.map
          fun local_ => local_.1 >>> 1 := by
    rw [List.map_append, Image.externalWrites, Image.localWrites, List.map_map, List.map_map]
    rfl
  rw [hlist]
  exact hp.nodup_iff.mpr List.nodup_range

theorem length_symbols_imageOf : (imageOf api sections symbols relocations extracted
    patched).symbols.length = (exportedSymbols sections symbols).length +
      (imageOf api sections symbols relocations extracted patched).externalSymbols := by
  rw [imageOf, Scripts.records, List.length_append, List.length_map, List.length_map]

-- An external relocation leads to the code of the symbol with its name.
theorem symbolCode_imageOf (hx : Extracts (processedSymbols symbols) relocations extracted)
    {external : NamedRelocation} (hm : external ∈ extracted.externals) :
    (imageOf api sections symbols relocations extracted patched).symbolCode
      ((exportedSymbols sections symbols).length +
        position (externalSymbols sections symbols) external.name) =
          (api external.name).getD 0 := by
  obtain ⟨found, hf, hn⟩ := position_spec (@external_found sections _ _ _ (hx.externals _ hm))
  have hget : (imageOf api sections symbols relocations extracted patched).symbols[
      (exportedSymbols sections symbols).length +
        position (externalSymbols sections symbols) external.name]? =
          some (externalRecord api sections.code.data.length found) := by
    have hlength : ((exportedSymbols sections symbols).map
        (exportedRecord api sections.code.data.length)).length =
          (exportedSymbols sections symbols).length := List.length_map ..
    rw [imageOf, Scripts.records, List.getElem?_append_right (by omega), hlength,
      Nat.add_sub_cancel_left, List.getElem?_map, hf]
    rfl
  rw [Image.symbolCode, hget, ← hn]
  rfl

end Slots

section Definitions

-- No other relocation of the lookup table hits the word, unless it is against
-- the same symbol at the same place.
def Undisturbed (elf : ElfFile) (entry : RelocationEntry) : Prop :=
  ∀ other ∈ elf.relocations, other.type = .gotBrel → other.symbol ≠ 0 →
    other.offset = entry.offset ∧ other.symbol = entry.symbol ∨
      entry.offset + 4 ≤ other.offset ∨ other.offset + 4 ≤ entry.offset

-- No relocation is kept as a pointer in the data.
def HasNoPointers (elf : ElfFile) : Prop :=
  ∀ entry ∈ elf.relocations, entry.type = .abs32 → entry.symbol ≠ 0 →
    ∀ symbol ∈ elf.symbols[entry.symbol]?, ∀ other ∈ elf.symbols,
      symbolName elf symbol = .ok other.name → ¬isPointed other

instance (elf : ElfFile) : Decidable (HasNoPointers elf) :=
  inferInstanceAs (Decidable (∀ entry ∈ elf.relocations, _))

end Definitions

section Contents

variable {api : Name → Option Nat} {sections : ModuleSections} {symbols : Dict Name Symbol}
  {relocations : List Relocation} {extracted : Extracted} {patched : List UInt8}

theorem mem_localWrites {local_ : LocalRelocation} (hm : local_ ∈ extracted.locals)
    (text data : Nat) :
    (local_.index.toNat, if local_.sectionIndex = .at sections.indices.code then
        wrap (text + local_.symbolValue)
      else wrap (data + (local_.symbolValue - sections.code.data.length))) ∈
        (imageOf api sections symbols relocations extracted patched).localWrites
          text data := by
  refine List.mem_map.mpr ⟨localWord sections.indices sections.code.data.length local_,
    List.mem_map_of_mem hm, ?_⟩
  rw [localWord_slot, localWord]
  split
  · have heven : 2 * local_.index.toNat &&& 1 = 0 := by
      rw [Nat.and_one_is_mod]
      omega
    simp [heven]
  · have hodd : (2 * local_.index.toNat + 1) &&& 1 = 1 := by
      rw [Nat.and_one_is_mod]
      omega
    simp [hodd]

variable (hx : Extracts (processedSymbols symbols) relocations extracted)
include hx

theorem mem_externalWrites {external : NamedRelocation} (hm : external ∈ extracted.externals)
    (entries : List SymbolEntry) :
    (external.index.toNat, ((findEntry entries ((api external.name).getD 0)).map
      SymbolEntry.address).getD 0) ∈ (imageOf api sections symbols relocations extracted
        patched).externalWrites entries := by
  obtain ⟨named, hu, hname⟩ := hasRelocation_unique_iff.mpr ⟨external, hm, rfl⟩
  have hnamed := mem_of_mem_unique hu
  have hindex := hx.shared named hnamed external hm hname
  have hcode := @symbolCode_imageOf api sections _ _ _ patched hx _ hnamed
  rw [← hindex, ← hname, ← hcode]
  exact List.mem_map.mpr ⟨_, List.mem_map_of_mem hu, rfl⟩

variable (hg : Generated api sections symbols relocations extracted patched)
include hg

theorem external_provided {entries : List SymbolEntry} (hp : Provides api symbols entries)
    {external : NamedRelocation} (hm : external ∈ extracted.externals) :
    ∃ code, api external.name = some code ∧ ∃ entry, findEntry entries code = some entry := by
  obtain ⟨relocation, _, symbol, hgot, hl, hname, _⟩ := hx.externals external hm
  obtain ⟨found, hfound, hfname⟩ := @external_found sections _ _ _ (hx.externals _ hm)
  obtain ⟨code, hcode⟩ := hg.coded found hfound
  have hsymbol : symbol.name = external.name := by
    rw [hname]
    simpa using List.find?_some hgot.2
  rw [hfname] at hcode
  obtain ⟨provided, hprovided, hpcode⟩ := hp symbol (List.mem_of_find?_eq_some hgot.2) hl code
    (by rw [hsymbol]; exact hcode)
  refine ⟨code, hcode, Option.isSome_iff_exists.mp ?_⟩
  rw [findEntry, List.find?_isSome]
  exact ⟨provided, hprovided, by simpa using hpcode⟩

theorem resolved {entries : List SymbolEntry} (hp : Provides api symbols entries) :
    ∀ external ∈ (imageOf api sections symbols relocations extracted patched).externals,
      (findEntry entries ((imageOf api sections symbols relocations extracted
        patched).symbolCode external.2)).isSome := by
  intro external hm
  obtain ⟨named, hn, rfl⟩ := List.mem_map.mp hm
  have hnamed := mem_of_mem_unique hn
  obtain ⟨code, hcode, entry, hentry⟩ := external_provided hx hg hp hnamed
  rw [symbolCode_imageOf hx hnamed, hcode, Option.getD_some, hentry]
  rfl

-- The slot of a patch holds the address of the symbol that it is for.
theorem slot_written {entries : List SymbolEntry} (hp : Provides api symbols entries)
    {symbol : Symbol} {index : Int} (text data : Nat)
    (hs : (localization symbol = .external ∧ ∃ external ∈ extracted.externals,
        external.name = symbol.name ∧ external.index = index) ∨
      (localization symbol = .internal ∧ ∃ local_ ∈ extracted.locals,
        local_.symbolValue = symbol.value ∧ local_.sectionIndex = symbol.sectionIndex ∧
          local_.index = index)) :
    ∃ value, (index.toNat, value) ∈ (imageOf api sections symbols relocations extracted
        patched).externalWrites entries ++ (imageOf api sections symbols relocations
          extracted patched).localWrites text data ∧ 0 ≤ index ∧
      some (wrap value) = runtimeAddress api sections entries text data symbol := by
  rcases hs with ⟨hl, external, hm, hname, rfl⟩ | ⟨hl, local_, hm, hvalue, hsection, rfl⟩
  · obtain ⟨code, hcode, entry, hentry⟩ := external_provided hx hg hp hm
    have hnonneg : 0 ≤ external.index := by
      obtain ⟨named, hu, hn⟩ := hasRelocation_unique_iff.mpr ⟨external, hm, rfl⟩
      rw [← hx.shared named (mem_of_mem_unique hu) external hm hn]
      exact hx.index_nonneg (List.mem_append_left _ (List.mem_map_of_mem hu))
    refine ⟨_, List.mem_append_left _ (mem_externalWrites hx hm entries), hnonneg, ?_⟩
    rw [runtimeAddress, if_pos hl, ← hname, hcode, Option.bind_some, Option.getD_some, hentry]
    rfl
  · have hnonneg := hx.index_nonneg (List.mem_append_right _ (List.mem_map_of_mem hm))
    have hnot : localization symbol ≠ .external := by
      rw [hl]
      decide
    refine ⟨_, List.mem_append_right _ (mem_localWrites hm text data), hnonneg, ?_⟩
    rw [runtimeAddress, if_neg hnot, sectionAddress, ← hvalue, ← hsection]
    rcases locals_supported hg hx.local_nonneg hm with hc | hd
    · rw [if_pos hc, if_pos hc, wrap_wrap]
    · by_cases hc : local_.sectionIndex = .at sections.indices.code
      · rw [if_pos hc, if_pos hc, wrap_wrap]
      · rw [if_neg hc, if_neg hc, Section.size, if_pos hd, wrap_wrap]

end Contents

section Patches

variable {api : Name → Option Nat} {elf : ElfFile} {sections : ModuleSections}
  {relocations : List Relocation} {extracted : Extracted} {patched : List UInt8}

-- Each patch comes from a relocation of the lookup table.
theorem patch_source (hw : WellFormed elf sections) (hr : getRelocations elf = .ok relocations)
    (hx : Extracts (processedSymbols (getSymbols elf)) relocations extracted)
    {patch : Nat × Int} (hm : patch ∈ patches extracted) :
    ∃ entry symbol, Against elf entry symbol ∧ entry.type = .gotBrel ∧ entry.offset = patch.1 ∧
      ((localization symbol = .external ∧ ∃ external ∈ extracted.externals,
          external.name = symbol.name ∧ external.index = patch.2) ∨
        (localization symbol = .internal ∧ ∃ local_ ∈ extracted.locals,
          local_.symbolValue = symbol.value ∧ local_.sectionIndex = symbol.sectionIndex ∧
            local_.index = patch.2)) := by
  rcases mem_patches.mp hm with ⟨local_, hl, rfl⟩ | ⟨external, he, rfl⟩ | ⟨exported, he, _⟩
  · obtain ⟨relocation, hrel, symbol, hgot, hlocal, heq⟩ := hx.locals local_ hl
    obtain ⟨_, entry, ha, hrelocation, ht⟩ := hw.got hr hrel hgot
    rw [hrelocation] at heq
    exact ⟨entry, symbol, ha, ht, (congrArg LocalRelocation.offset heq).symm, Or.inr
      ⟨hlocal, local_, hl, congrArg LocalRelocation.symbolValue heq,
        congrArg LocalRelocation.sectionIndex heq, rfl⟩⟩
  · obtain ⟨relocation, hrel, symbol, hgot, hexternal, hname, hoffset⟩ := hx.externals external he
    obtain ⟨_, entry, ha, hrelocation, ht⟩ := hw.got hr hrel hgot
    rw [hrelocation] at hname hoffset
    exact ⟨entry, symbol, ha, ht, hoffset.symm, Or.inl ⟨hexternal, external, he, hname, rfl⟩⟩
  · rw [hx.exporteds] at he
    exact absurd he List.not_mem_nil

theorem dataTable_eq_nil (hr : getRelocations elf = .ok relocations) (hn : HasNoPointers elf) :
    (imageOf api sections (getSymbols elf) relocations extracted patched).dataTable = [] := by
  have hnone : dataRelocations sections (getSymbols elf) relocations extracted = [] := by
    apply List.filterMap_eq_nil_iff.mpr
    intro relocation hm
    obtain ⟨entry, symbol, ha, hname, he⟩ := mem_getRelocations hr hm
    unfold extractDataRelocation
    split
    · rename_i ht
      have htype : entry.type = .abs32 := by
        rw [he] at ht
        exact ht
      split
      · rename_i other ho
        obtain ⟨hother, honame⟩ := mem_getSymbols ((Dict.get?_eq_some_iff _).mp ho)
        rw [← honame] at hname
        exact if_neg (hn entry ha.1 htype ha.2.1 symbol ha.2.2 other hother hname)
      · rfl
    · rfl
  rw [Image.dataTable, imageOf, hnone]
  rfl

end Patches

section Load

variable {api : Name → Option Nat} {elf : ElfFile} {sections : ModuleSections}
  {relocations : List Relocation} {extracted : Extracted} {patched : List UInt8} {load : Load}
  {entry : RelocationEntry} {symbol : Symbol}

-- The word of a relocation leads through its slot to the symbol.
theorem resolves (hw : WellFormed elf sections) (hr : getRelocations elf = .ok relocations)
    (hx : Extracts (processedSymbols (getSymbols elf)) relocations extracted)
    (hg : Generated api sections (getSymbols elf) relocations extracted patched)
    (h : load.Laid (imageOf api sections (getSymbols elf) relocations extracted patched))
    (haligned : load.header % 16 = 0)
    (hinside : ∀ entry ∈ (imageOf api sections (getSymbols elf) relocations extracted
      patched).dataTable, 4 * entry.1 + 4 ≤ sections.data.data.length)
    (hp : Provides api (getSymbols elf) load.entries) (ha : Against elf entry symbol)
    (ht : entry.type = .gotBrel) (hu : Undisturbed elf entry) :
    ∃ i < (imageOf api sections (getSymbols elf) relocations extracted patched).slots,
      (load.relocated (imageOf api sections (getSymbols elf) relocations extracted
        patched)).readWord (load.text + entry.offset) = 4 * i ∧
      some ((load.relocated (imageOf api sections (getSymbols elf) relocations extracted
        patched)).readWord (load.allocations.lot + 4 * i)) =
          runtimeAddress api sections load.entries load.text load.allocations.data symbol := by
  have hslots := @slotted_imageOf api sections _ _ _ patched hx
  have hapart : ∀ patch ∈ patches extracted, patch.1 = entry.offset ∨
      entry.offset + 4 ≤ patch.1 ∨ patch.1 + 4 ≤ entry.offset := by
    intro patch hm
    obtain ⟨other, against, hother, hgot, hoffset, _⟩ := patch_source hw hr hx hm
    rw [← hoffset]
    exact (hu other hother.1 hgot hother.2.1).imp_left And.left
  obtain ⟨relocation, hrel, _, he⟩ := mem_getRelocations_of_against hr ha
  have hcovered := hx.covered relocation hrel (by rw [he]; exact ht)
  rw [show relocation.offset = entry.offset by rw [he]] at hcovered
  obtain ⟨patch, hm, hoffset, hinsidetext, hword⟩ :=
    wordAt_patchOffsets hg.patchOffsets_eq hapart hcovered
  obtain ⟨other, against, hother, hgot, hotheroffset, hsource⟩ := patch_source hw hr hx hm
  have hsame : against = symbol := by
    rcases hu other hother.1 hgot hother.2.1 with hsame | hapart
    · have hfirst := hother.2.2
      rw [hsame.2, ha.2.2] at hfirst
      exact (Option.some.inj hfirst).symm
    · omega
  rw [hsame] at hsource
  obtain ⟨value, hwrite, hnonneg, hvalue⟩ :=
    slot_written hx hg hp load.text load.allocations.data hsource
  have hslot : patch.2.toNat < (imageOf api sections (getSymbols elf) relocations extracted
      patched).slots := by
    rcases List.mem_append.mp hwrite with hwrite | hwrite
    · exact hslots.externalWrites_lt _ _ hwrite
    · exact hslots.localWrites_lt _ _ _ hwrite
  have hlength := length_patchOffsets hg.patchOffsets_eq
  have hone : (imageOf api sections (getSymbols elf) relocations extracted patched).symbols.length =
      (imageOf api sections (getSymbols elf) relocations extracted patched).externalSymbols + 1 := by
    rw [length_symbols_imageOf, hw.exported_length, Nat.add_comm]
  have htext := (h.text_relocated hinside haligned hone hslots).readWord_slice
    (show entry.offset + 4 ≤ patched.length by omega)
  have hlot := h.readWord_lot hinside (writes_nodup hx _ _ _) hwrite hslot
  refine ⟨patch.2.toNat, hslot, ?_, ?_⟩
  · rw [htext]
    change wordAt patched entry.offset = _
    omega
  · rw [hlot]
    exact hvalue

-- The word of the relocation is the offset of a slot of the lookup table, and
-- the slot holds the run-time address of the symbol.
def Resolves (api : Name → Option Nat) (sections : ModuleSections) (load : Load)
    (module : LoadedModule) (memory : Memory) (entry : RelocationEntry) (symbol : Symbol) : Prop :=
  ∃ text ∈ module.text, ∃ data ∈ module.data,
    ∃ i < numberOfExternalRelocations load.memory load.header +
        numberOfLocalRelocations load.memory load.header,
      memory.readWord (text + entry.offset) = 4 * i ∧
        some (memory.readWord (module.lot + 4 * i)) =
          runtimeAddress api sections load.entries text data symbol

theorem got_relocated {objcopy : ElfFile → Name → ElfFile} {file : List UInt8}
    (hs : moduleSections elf = .ok sections) (hg : generateModule objcopy api elf = .ok file)
    (hw : WellFormed (changeVisibilityOfWrappedSymbols objcopy elf) sections)
    (hn : HasNoPointers (changeVisibilityOfWrappedSymbols objcopy elf)) (hv : load.Valid file)
    (haligned : load.header % 16 = 0)
    (hp : Provides api (getSymbols (changeVisibilityOfWrappedSymbols objcopy elf)) load.entries)
    (linker : DynamicLinker) :
    ∃ module memory, load.Returns linker module memory ∧
      ∀ entry symbol, Against (changeVisibilityOfWrappedSymbols objcopy elf) entry symbol →
        entry.type = .gotBrel → Undisturbed (changeVisibilityOfWrappedSymbols objcopy elf) entry →
          Resolves api sections load module memory entry symbol := by
  obtain ⟨relocations, hr, hg⟩ := generateModule_eq_ok hs hg
  obtain ⟨extracted, patched, hx, hgenerated, hfits, rfl⟩ :=
    generated_of_ok (hw.got_ne_exported hr) hg
  have hlaid := hv.laid hfits
  have hslots := @slotted_imageOf api sections _ _ _ patched hx
  have hinside : ∀ entry ∈ (imageOf api sections (getSymbols (changeVisibilityOfWrappedSymbols
      objcopy elf)) relocations extracted patched).dataTable,
        4 * entry.1 + 4 ≤ sections.data.data.length := by
    intro entry hm
    rw [dataTable_eq_nil hr hn] at hm
    exact absurd hm List.not_mem_nil
  obtain ⟨start, hreturns⟩ := hlaid.returns hslots (resolved hx hgenerated hp) hinside linker
  refine ⟨_, _, hreturns, fun entry symbol ha ht hu => ?_⟩
  obtain ⟨i, hi, hword, hslot⟩ := resolves hw hr hx hgenerated hlaid haligned hinside hp ha ht hu
  refine ⟨load.text, rfl, load.allocations.data, rfl, i, ?_, hword, hslot⟩
  rw [hlaid.stored.numberOfExternalRelocations, hlaid.stored.numberOfLocalRelocations]
  exact hi

end Load

section Printer

def nullSymbol : Symbol := ⟨[], .noType, .local_, .default_, 0, .undef⟩

-- A module whose code refers to puts twice, to a function of its own and to a
-- variable.
def printerElf : ElfFile where
  sections := [⟨[], 0, []⟩, ⟨".text".toList, 0, List.replicate 20 0⟩,
    ⟨".data".toList, 20, [1, 2, 3, 4]⟩, ⟨".bss".toList, 24, []⟩]
  symbols := [nullSymbol, ⟨main, .func, .global_, .default_, 0, .at 1⟩,
    ⟨"format".toList, .func, .local_, .default_, 4, .at 1⟩,
    ⟨"count".toList, .object, .local_, .default_, 20, .at 2⟩,
    ⟨"puts".toList, .noType, .global_, .default_, 0, .undef⟩]
  relocations := [⟨4, .gotBrel, 4⟩, ⟨8, .gotBrel, 2⟩, ⟨12, .gotBrel, 4⟩, ⟨16, .gotBrel, 3⟩]

-- Two of its relocations on the same word
def overlappingElf : ElfFile :=
  { printerElf with relocations := [⟨4, .gotBrel, 2⟩, ⟨4, .gotBrel, 3⟩] }

def libraryApi : Name → Option Nat := fun name =>
  if name = main then some 1 else if name = "puts".toList then some 7 else none

def keepVisibility (elf : ElfFile) (_ : Name) : ElfFile := elf

def sectionsOf (elf : ElfFile) : ModuleSections :=
  (moduleSections elf).toOption.getD ⟨⟨0, 0, 0⟩, ⟨[], 0, []⟩, ⟨[], 0, []⟩, ⟨[], 0, []⟩⟩

def fileOf (elf : ElfFile) : List UInt8 :=
  (generateModule keepVisibility libraryApi elf).toOption.getD []

def loadOf (elf : ElfFile) : Load where
  memory := Memory.store (fun _ => 0) 0x08010000 (fileOf elf)
  header := 0x08010000
  mode := loadingModeCopyText
  entries := [⟨7, 0x08000101⟩]
  allocations := ⟨0x20004000, 0x20004100, 0x20004200, 0x20004300⟩

theorem got_relocated_printer :
    ∃ module memory, (loadOf printerElf).Returns DynamicLinker.new module memory ∧
      ∀ entry symbol,
        Against (changeVisibilityOfWrappedSymbols keepVisibility printerElf) entry symbol →
          entry.type = .gotBrel →
            Undisturbed (changeVisibilityOfWrappedSymbols keepVisibility printerElf) entry →
              Resolves libraryApi (sectionsOf printerElf) (loadOf printerElf) module memory entry
                symbol :=
  got_relocated (show moduleSections printerElf = .ok (sectionsOf printerElf) from rfl)
    (show generateModule keepVisibility libraryApi printerElf = .ok (fileOf printerElf) by
      decide +kernel)
    ⟨by decide, by decide, by decide, by decide⟩ (by decide)
    (by decide +kernel) (by decide) (by decide) DynamicLinker.new

-- The second patch replaces the first: the word leads to the variable and not
-- to the function.
theorem overlapping_not_resolved :
    moduleSections overlappingElf = .ok (sectionsOf overlappingElf) ∧
      generateModule keepVisibility libraryApi overlappingElf = .ok (fileOf overlappingElf) ∧
      WellFormed (changeVisibilityOfWrappedSymbols keepVisibility overlappingElf)
        (sectionsOf overlappingElf) ∧
      HasNoPointers (changeVisibilityOfWrappedSymbols keepVisibility overlappingElf) ∧
      (loadOf overlappingElf).Valid (fileOf overlappingElf) ∧
      (loadOf overlappingElf).header % 16 = 0 ∧
      Provides libraryApi (getSymbols (changeVisibilityOfWrappedSymbols keepVisibility
        overlappingElf)) (loadOf overlappingElf).entries ∧
      ¬∃ module memory, (loadOf overlappingElf).Returns DynamicLinker.new module memory ∧
        ∀ entry symbol,
          Against (changeVisibilityOfWrappedSymbols keepVisibility overlappingElf) entry symbol →
            entry.type = .gotBrel →
              Resolves libraryApi (sectionsOf overlappingElf) (loadOf overlappingElf) module memory
                entry symbol := by
  refine ⟨rfl, by decide +kernel, ⟨by decide, by decide, by decide, by decide⟩, by decide,
    by decide +kernel, by decide, by decide, ?_⟩
  rintro ⟨module, memory, ⟨pointer, hp, hm, rfl⟩, h⟩
  have hpointer : ((loadOf overlappingElf).outcome DynamicLinker.new).result = .ok 0x20004000 := by
    decide +kernel
  obtain rfl := Except.ok.inj (hpointer.symm.trans hp)
  have hmodule : ((loadOf overlappingElf).outcome DynamicLinker.new).linker.modules.get?
      0x20004000 =
        some ⟨0x08010000, some 0x20004100, some 0x20004200, 0x20004300, some 0x20004100⟩ := by
    decide +kernel
  obtain rfl := Option.some.inj (hmodule.symm.trans hm)
  obtain ⟨text, ht, data, hd, i, -, hword, hslot⟩ :=
    h ⟨4, .gotBrel, 2⟩ _ ⟨List.mem_cons_self, by decide, rfl⟩ rfl
  obtain rfl := Option.some.inj ht
  obtain rfl := Option.some.inj hd
  have hpatched : ((loadOf overlappingElf).outcome DynamicLinker.new).memory.readWord
      (0x20004100 + 4) = 4 := by decide +kernel
  obtain rfl : i = 1 := by
    have := hpatched.symm.trans hword
    omega
  revert hslot
  decide +kernel

end Printer

end Msos.Module
