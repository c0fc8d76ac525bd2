import Msos.Module.LookupTable
import Msos.Module.Numbering

namespace Msos.Module

open Msos.Library Msos.Library.Memory
open Scripts ElfParser DynamicLinker ModuleHeader

section Definitions

-- A word of the data that holds the address of an object or a function
structure Pointer where
  offset : Nat
  value : Nat
  sectionIndex : SectionIndex
deriving DecidableEq, Repr

-- The pointers of a module, by the symbols that its relocations are against.
def pointerOf (elf : ElfFile) (entry : RelocationEntry) : Option Pointer :=
  if entry.type = .abs32 ∧ entry.symbol ≠ 0 then
    (elf.symbols[entry.symbol]?).bind fun symbol =>
      if isPointed symbol then some ⟨entry.offset, symbol.value, symbol.sectionIndex⟩ else none
  else none

def pointers (elf : ElfFile) : List Pointer := elf.relocations.filterMap (pointerOf elf)

-- The relocations that the generator keeps: it looks up the type by the name of the
-- symbol, which a later symbol may have as well.
def isKept (symbols : Dict Name Symbol) (relocation : Relocation) : Prop :=
  relocation.infoType = .abs32 ∧ ∃ symbol ∈ symbols.get? relocation.symbolName, isPointed symbol

instance (symbols : Dict Name Symbol) (relocation : Relocation) :
    Decidable (isKept symbols relocation) := inferInstanceAs (Decidable (_ ∧ ∃ symbol ∈ _, _))

def kept (symbols : Dict Name Symbol) (relocations : List Relocation) : List Relocation :=
  relocations.filter fun relocation => isKept symbols relocation

-- The word of the data that lies at an offset
def wordOf (sections : ModuleSections) (offset : Nat) : Nat := (offset - sections.code.size) / 4

def IsWord (sections : ModuleSections) (offset : Nat) : Prop :=
  sections.code.size ≤ offset ∧ (offset - sections.code.size) % 4 = 0 ∧
    offset + 4 ≤ sections.code.size + sections.data.size

instance (sections : ModuleSections) (offset : Nat) : Decidable (IsWord sections offset) :=
  inferInstanceAs (Decidable (_ ∧ _ ∧ _))

-- The table of the relocations that are kept; the words count from the end of the
-- lookup table.
def pointerWords (symbols : Dict Name Symbol) (sections : ModuleSections)
    (relocations : List Relocation) : List (Nat × Nat) :=
  (kept symbols relocations).map fun relocation =>
    (wordOf sections relocation.offset + slotCount symbols relocations, relocation.symbolValue)

-- Each pointer lies in a word of the data and points into the module, and nothing is
-- kept but for words of the data.
structure InWords (elf : ElfFile) (symbols : Dict Name Symbol) (sections : ModuleSections)
    (relocations : List Relocation) : Prop where
  placed : ∀ pointer ∈ pointers elf, IsWord sections pointer.offset
  supported : ∀ pointer ∈ pointers elf, pointer.sectionIndex = .at sections.indices.code ∨
    InData sections.indices sections.code.size pointer.sectionIndex pointer.value
  kept : ∀ relocation ∈ kept symbols relocations, IsWord sections relocation.offset

-- The word that the loader writes for the k-th of its data relocations; it
-- looks for them behind the external ones.
def target (load : Load) (data k : Nat) : Nat :=
  wrap (data + 4 * Relocation.index load.memory
    (wrap (relocationSectionAddress load.header +
      sizeofRelocation * numberOfExternalRelocations load.memory load.header) +
        sizeofRelocation * k))

-- A byte of the data that no pointer lies on
def Outside (elf : ElfFile) (sections : ModuleSections) (i : Nat) : Prop :=
  ∀ pointer ∈ pointers elf,
    i < pointer.offset - sections.code.size ∨ pointer.offset - sections.code.size + 4 ≤ i

-- The loaded data: each pointer holds the run-time address of its symbol, the
-- other bytes are those of the file, and nothing is written outside.
structure PointersRelocated (elf : ElfFile) (sections : ModuleSections) (load : Load)
    (text data : Nat) (memory : Memory) : Prop where
  pointer : ∀ pointer ∈ pointers elf,
    some (memory.readWord (data + (pointer.offset - sections.code.size))) =
      sectionAddress sections text data pointer.sectionIndex pointer.value
  others : ∀ i < sections.data.size, Outside elf sections i →
    sections.data.data[i]? = some (memory (data + i))
  inside : ∀ k < numberOfDataRelocations load.memory load.header,
    data ≤ target load data k ∧ target load data k + 4 ≤ data + sections.data.size

-- Every load of the file from an address with a residue relocates the pointers.
def RelocatesPointers (api : Name → Option Nat) (elf : ElfFile) (symbols : Dict Name Symbol)
    (sections : ModuleSections) (file : List UInt8) (residue : Nat) : Prop :=
  ∀ load : Load, load.Valid file → load.header % 16 = residue →
    Provides api symbols load.entries → ∀ linker : DynamicLinker,
      ∃ start memory, load.Returns linker (load.record start) memory ∧
        PointersRelocated elf sections load load.text load.allocations.data memory

-- The entries that the loader takes for the data relocations: as many as have been
-- kept, from the first local relocation on.
def processedTable (symbols : Dict Name Symbol) (sections : ModuleSections)
    (relocations : List Relocation) : List (Nat × Nat) :=
  (localWords symbols sections [] relocations ++ pointerWords symbols sections relocations).take
    (kept symbols relocations).length

-- Where in a file at an address with a residue the loader looks for the data; it
-- aligns the address, and counts one exported symbol.
def dataOffset (symbols : Dict Name Symbol) (sections : ModuleSections)
    (relocations : List Relocation) (residue : Nat) : Nat :=
  Image.aligned (residue + (sizeofModuleHeader +
    sizeofRelocation * (slotCount symbols relocations + (kept symbols relocations).length) +
      sizeofSymbol * ((externalSymbols sections symbols).length + numberOfExportedSymbols))) -
        residue + sections.code.size

-- The bytes that the loader takes for the data are those, and the entries
-- happen to be right: all are for words with a pointer, and the last one for
-- each pointer has the offset of its symbol in the data.
structure Coincides (elf : ElfFile) (symbols : Dict Name Symbol) (sections : ModuleSections)
    (relocations : List Relocation) (file : List UInt8) (residue : Nat) : Prop where
  bytes : ∀ i < sections.data.size, Outside elf sections i →
    file[dataOffset symbols sections relocations residue + i]? = sections.data.data[i]?
  words : ∀ entry ∈ processedTable symbols sections relocations,
    ∃ pointer ∈ pointers elf, wordOf sections pointer.offset = entry.1
  offsets : ∀ pointer ∈ pointers elf, pointer.sectionIndex ≠ .at sections.indices.code ∧
    lastWrite (processedTable symbols sections relocations) (wordOf sections pointer.offset) =
      some (wrap (pointer.value - sections.code.size))

-- What the image of a module says, without the state of the generator
structure Written (api : Name → Option Nat) (symbols : Dict Name Symbol)
    (sections : ModuleSections) (relocations : List Relocation) (image : Image) : Prop where
  fits : image.Fits
  slotted : image.Slotted
  slots : image.slots = slotCount symbols relocations
  locals : image.locals = localWords symbols sections [] relocations
  pointers : image.pointers = pointerWords symbols sections relocations
  code : image.code.length = sections.code.size
  data : image.data = sections.data.data
  bss : image.bssSize = sections.bss.size
  externalSymbols : image.externalSymbols = (externalSymbols sections symbols).length
  length_symbols : image.symbols.length =
    (exportedSymbols sections symbols).length + image.externalSymbols
  resolved : ∀ entries, Provides api symbols entries → ∀ external ∈ image.externals,
    (findEntry entries (image.symbolCode external.2)).isSome

end Definitions

section Table

variable {api : Name → Option Nat} {symbols : Dict Name Symbol} {sections : ModuleSections}
  {relocations : List Relocation} {extracted : Extracted} {patched : List UInt8}

theorem IsWord.wordOf_eq {offset : Nat} (h : IsWord sections offset) :
    offset - sections.code.size = 4 * wordOf sections offset ∧
      4 * wordOf sections offset + 4 ≤ sections.data.size := by
  obtain ⟨hl, hmod, hu⟩ := h
  rw [wordOf]
  omega

theorem dataRelocations_eq (codeLength : Nat) (index : Int) :
    extractDataRelocations symbols codeLength index relocations =
      (kept symbols relocations).map fun relocation =>
        ⟨relocation.symbolValue, ((relocation.offset : Int) - codeLength).tdiv 4 + index⟩ := by
  rw [extractDataRelocations, kept, ← List.filterMap_eq_map, List.filterMap_filter]
  apply List.filterMap_congr
  intro relocation _
  unfold extractDataRelocation
  by_cases ht : relocation.infoType = .abs32
  · cases hs : symbols.get? relocation.symbolName with
    | none => simp [isKept, ht, hs]
    | some symbol => simp [isKept, isPointed, ht, hs]
  · simp [isKept, ht]

theorem pointers_imageOf (hn : Numbered symbols sections relocations extracted)
    (hk : ∀ relocation ∈ kept symbols relocations, IsWord sections relocation.offset) :
    (imageOf api sections symbols relocations extracted patched).pointers =
      pointerWords symbols sections relocations := by
  rw [imageOf]
  dsimp only
  rw [dataRelocations, dataRelocations_eq, List.map_map, pointerWords]
  apply List.map_congr_left
  intro relocation hm
  obtain ⟨hl, hmod, hu⟩ := hk relocation hm
  have hoffset : ((relocation.offset : Int) - sections.code.data.length).tdiv 4 =
      wordOf sections relocation.offset := by
    have hnat : (relocation.offset : Int) - sections.code.data.length =
        ((relocation.offset - sections.code.size : Nat) : Int) := by
      rw [Section.size] at hl ⊢
      omega
    rw [hnat, wordOf]
    rfl
  simp only [Function.comp_apply, dataEntry, natEntry, hoffset, hn.index, Prod.mk.injEq]
  omega

theorem written_of_ok {file : List UInt8}
    (hk : ∀ relocation ∈ kept symbols relocations, IsWord sections relocation.offset)
    (hexported : ∀ relocation ∈ relocations, localizationOf symbols relocation ≠ some .exported)
    (h : generateImage api sections symbols relocations = .ok file) :
    ∃ image, Written api symbols sections relocations image ∧ file = image.bytes := by
  have hgot : ∀ relocation ∈ relocations, ∀ symbol,
      Got (processedSymbols symbols) relocation symbol → localization symbol ≠ .exported := by
    intro relocation hm symbol hgot hl
    exact hexported relocation hm ((localizationOf_got hgot).trans (congrArg some hl))
  obtain ⟨extracted, patched, hx, hg, hf, rfl⟩ := generated_of_ok hgot h
  have hn := @numbered_of_ok _ sections _ _ hexported hg.extractRelocations_eq
  have hslots : (imageOf api sections symbols relocations extracted patched).slots =
      slotCount symbols relocations := by
    have hindex := @slots_imageOf api sections _ _ _ patched hx
    rw [hn.index] at hindex
    exact Int.ofNat_inj.mp hindex
  exact ⟨_, ⟨hf, slotted_imageOf hx, hslots, hn.locals, pointers_imageOf hn hk,
    length_patchOffsets hg.patchOffsets_eq, rfl, rfl, rfl, length_symbols_imageOf,
    fun entries hp => resolved hx hg hp⟩, rfl⟩

end Table

section Image

variable {api : Name → Option Nat} {symbols : Dict Name Symbol} {sections : ModuleSections}
  {relocations : List Relocation} {image : Image}
  (h : Written api symbols sections relocations image)
include h

theorem Written.size : image.data.length = sections.data.size := by
  rw [h.data, Section.size]

theorem Written.dataTable : image.dataTable = processedTable symbols sections relocations := by
  rw [Image.dataTable, h.locals, h.pointers, processedTable, pointerWords, List.length_map]

theorem Written.loadedByte (residue i : Nat) : image.loadedByte residue i =
    image.bytes[dataOffset symbols sections relocations residue + i]? := by
  have hnumber : image.numberOfRelocations =
      slotCount symbols relocations + (Module.kept symbols relocations).length := by
    rw [← h.slots, Image.slots, Image.numberOfRelocations, h.pointers, pointerWords,
      List.length_map]
  rw [Image.loadedByte, Image.loadedOffset, hnumber, dataOffset, h.code, h.externalSymbols]

end Image

section Target

variable {load : Load} {image : Image}

theorem target_eq (h : load.Laid image) {k : Nat} (hk : k < image.dataTable.length) :
    target load load.allocations.data k =
      wrap (load.allocations.data + 4 * (image.dataTable[k]).1) := by
  have hkp : k < image.pointers.length := by rwa [Image.length_dataTable] at hk
  have hk' : k < (image.locals ++ image.pointers).length := by
    rw [List.length_append]
    omega
  have hentry : image.dataTable[k] = (image.locals ++ image.pointers)[k] := List.getElem_take ..
  rw [target, h.localsAddress, (Load.later_relocation h.stored hk').1, hentry]

-- A word that lies in the data lies where its index says.
theorem inside_iff {data size index : Nat} (hd : data + size < 2 ^ 32) (hi : 4 * index < 2 ^ 32) :
    data ≤ wrap (data + 4 * index) ∧ wrap (data + 4 * index) + 4 ≤ data + size ↔
      4 * index + 4 ≤ size := by
  rw [wrap]
  omega

end Target

section Sufficient

variable {api : Name → Option Nat} {elf : ElfFile} {symbols : Dict Name Symbol}
  {sections : ModuleSections} {relocations : List Relocation} {image : Image} {residue : Nat}

theorem InWords.inside (hi : InWords elf symbols sections relocations)
    (hw : ∀ entry ∈ processedTable symbols sections relocations,
      ∃ pointer ∈ pointers elf, wordOf sections pointer.offset = entry.1) :
    ∀ entry ∈ processedTable symbols sections relocations,
      4 * entry.1 + 4 ≤ sections.data.size := by
  intro entry hm
  obtain ⟨pointer, hp, he⟩ := hw entry hm
  have hword := (hi.placed _ hp).wordOf_eq.2
  rwa [he] at hword

theorem InWords.outside (hi : InWords elf symbols sections relocations)
    (hw : ∀ entry ∈ processedTable symbols sections relocations,
      ∃ pointer ∈ pointers elf, wordOf sections pointer.offset = entry.1)
    {i : Nat} (ho : Outside elf sections i) :
    ∀ entry ∈ processedTable symbols sections relocations,
      i < 4 * entry.1 ∨ 4 * entry.1 + 4 ≤ i := by
  intro entry hm
  obtain ⟨pointer, hp, he⟩ := hw entry hm
  have hentry := ho pointer hp
  rwa [(hi.placed _ hp).wordOf_eq.1, he] at hentry

theorem wrap_add_wrap (base offset : Nat) : wrap (base + wrap offset) = wrap (base + offset) := by
  rw [wrap, wrap, wrap]
  omega

variable (h : Written api symbols sections relocations image)
include h

theorem Written.returns {load : Load} (hl : load.Laid image)
    (hp : Provides api symbols load.entries)
    (hinside : ∀ entry ∈ processedTable symbols sections relocations,
      4 * entry.1 + 4 ≤ sections.data.size) (linker : DynamicLinker) :
    ∃ start, load.Returns linker (load.record start) (load.relocated image) := by
  refine hl.returns h.slotted (h.resolved _ hp) ?_ linker
  rw [h.dataTable, h.size]
  exact hinside

theorem Coincides.pointersRelocated (hc : Coincides elf symbols sections relocations image.bytes residue)
    (hi : InWords elf symbols sections relocations) {load : Load} (hl : load.Laid image)
    (hresidue : load.header % 16 = residue) :
    PointersRelocated elf sections load load.text load.allocations.data
      (load.relocated image) := by
  have hsize := h.size
  have hinside := hi.inside hc.words
  refine ⟨fun pointer hm => ?_, fun i hlt hout => ?_, fun k hk => ?_⟩
  · obtain ⟨hoffset, hword⟩ := (hi.placed _ hm).wordOf_eq
    obtain ⟨hsection, hlast⟩ := hc.offsets pointer hm
    have hread := hl.readWord_data h.slotted (hword.trans_eq hsize.symm)
    rw [h.dataTable, hlast] at hread
    rw [hoffset, hread, sectionAddress, if_neg hsection,
      if_pos ((hi.supported pointer hm).resolve_left hsection)]
    exact congrArg some (wrap_add_wrap _ _)
  · have hlt' : i < image.data.length := hlt.trans_eq hsize.symm
    have hbyte := hl.data_byte h.slotted hlt' (by
      rw [h.dataTable]
      exact hi.outside hc.words hout)
    have hsome : sections.data.data[i]? = some sections.data.data[i] :=
      List.getElem?_eq_getElem hlt
    have hloaded := hc.bytes i hlt hout
    rw [← h.loadedByte, hsome, ← hresidue] at hloaded
    rw [hbyte, hl.placed_byte hlt' hloaded]
    exact hsome
  · rw [hl.stored.numberOfDataRelocations, ← Image.length_dataTable] at hk
    have hdata := hl.data_lt
    have hentry : 4 * (image.dataTable[k]).1 + 4 ≤ sections.data.size :=
      hinside _ (by rw [← h.dataTable]; exact List.getElem_mem hk)
    rw [target_eq hl hk, inside_iff (by omega) (by omega)]
    exact hentry

theorem Coincides.relocatesPointers (hc : Coincides elf symbols sections relocations image.bytes residue)
    (hi : InWords elf symbols sections relocations) :
    RelocatesPointers api elf symbols sections image.bytes residue := by
  intro load hv hresidue hp linker
  have hlaid := hv.laid h.fits
  obtain ⟨start, hreturns⟩ := h.returns hlaid hp (hi.inside hc.words) linker
  exact ⟨start, _, hreturns, hc.pointersRelocated h hi hlaid hresidue⟩

-- Without pointers there is nothing to go wrong at an aligned address, as long as
-- main is all that the module exports.
theorem coincides_of_none (hp : pointers elf = []) (hk : kept symbols relocations = [])
    (hone : (exportedSymbols sections symbols).length = 1) :
    Coincides elf symbols sections relocations image.bytes 0 := by
  have hnone : ∀ pointer, pointer ∉ pointers elf := by
    rw [hp]
    exact fun _ => List.not_mem_nil
  refine ⟨fun i _ _ => ?_, ?_, fun pointer hm => absurd hm (hnone pointer)⟩
  · rw [← h.loadedByte, ← h.data]
    refine Image.loadedByte_eq _ ?_ i
    rw [h.length_symbols, hone, Nat.add_comm]
  · rw [processedTable, hk, List.length_nil, List.take_zero]
    exact fun entry hm => absurd hm List.not_mem_nil

end Sufficient

section Loads

def roundUp (size : Nat) : Nat := (size + 15) / 16 * 16

-- A load from the second line of a memory of equal bytes, with the text and the
-- data moved by a shift
def loadAt (image : Image) (entries : List SymbolEntry) (residue : Nat) (byte : UInt8)
    (shift : Nat) : Load where
  memory := Memory.store (fun _ => byte) (16 + residue) image.bytes
  header := 16 + residue
  mode := loadingModeCopyText
  entries := entries
  allocations :=
    { modules := 16
      text := 80 + roundUp image.bytes.length + shift
      data := 80 + roundUp image.bytes.length + roundUp image.code.length + 2 * shift
      lot := 112 + roundUp image.bytes.length + roundUp image.code.length +
        roundUp (image.data.length + image.bssSize) }

variable {image : Image} {entries : List SymbolEntry} {residue : Nat} {byte : UInt8} {shift : Nat}

theorem text_loadAt : (loadAt image entries residue byte shift).text =
    80 + roundUp image.bytes.length + shift :=
  Load.text_of_copies (show copiesText loadingModeCopyText by decide)

theorem loadAt_valid (hf : image.Fits) (hroom : image.bytes.length + image.code.length +
      image.data.length + image.bssSize + 2 ^ 20 < 2 ^ 32) (hresidue : residue < 16)
    (hshift : shift ≤ 16) : (loadAt image entries residue byte shift).Valid image.bytes := by
  have hs : Image.Stored (loadAt image entries residue byte shift).memory
      (loadAt image entries residue byte shift).header image :=
    ⟨holds_store _ _, hf, by simp only [loadAt]; omega⟩
  have hc : copiesText (loadAt image entries residue byte shift).mode :=
    show copiesText loadingModeCopyText by decide
  have hexternals := hf.externals
  have hlocals := hf.locals
  refine ⟨hs.holds, ?_, ?_, ?_⟩ <;>
    simp only [Load.allocated, hc, ite_true, List.singleton_append, List.forall_mem_cons,
      List.pairwise_cons, List.not_mem_nil, IsEmpty.forall_iff, implies_true, and_true, hs.codeSize,
      hs.dataSize, hs.bssSize, hs.numberOfExternalRelocations, hs.numberOfLocalRelocations,
      List.Pairwise.nil, Apart] <;>
    simp only [loadAt, roundUp]
  · omega
  · omega
  · omega

-- Beyond the end of the file the loader reads the byte of the memory.
theorem placed_loadAt (h : (loadAt image entries residue byte shift).Laid image)
    (hresidue : residue < 16) (hroom : image.bytes.length + 2 ^ 20 < 2 ^ 32) {i : Nat}
    (hi : i < image.data.length) :
    (loadAt image entries residue byte shift).placed
      ((loadAt image entries residue byte shift).allocations.data + i) =
        (image.loadedByte residue i).getD byte := by
  have hbytes := Image.length_bytes image
  have hoffset := Image.loadedOffset_le image h.stored.fits.symbols_le residue
  have hc : copiesText (loadAt image entries residue byte shift).mode :=
    show copiesText loadingModeCopyText by decide
  have hmod : (loadAt image entries residue byte shift).header % 16 = residue := by
    simp only [loadAt]
    omega
  have hsource : dataAddress (loadAt image entries residue byte shift).memory
      (loadAt image entries residue byte shift).header =
        16 + residue + (image.loadedOffset residue + image.code.length) := by
    rw [h.stored.dataAddress, hmod]
    exact (Nat.mod_eq_of_lt (by simp only [loadAt]; omega)).trans (Nat.add_assoc ..)
  have hbefore : 16 + residue + (image.loadedOffset residue + image.code.length) + i <
      (loadAt image entries residue byte shift).allocations.text := by
    simp only [loadAt, roundUp]
    omega
  have hbelow : 16 + residue ≤
      16 + residue + (image.loadedOffset residue + image.code.length) + i := by omega
  rw [h.placed_data hi, hsource, h.withText_eq hc, store_of_lt _ _ hbefore]
  simp only [loadAt, store, hbelow, ite_true, List.getD_eq_getElem?_getD, Image.loadedByte]
  rw [Nat.add_assoc, Nat.add_sub_cancel_left]

end Loads

section Necessary

variable {api : Name → Option Nat} {elf : ElfFile} {symbols : Dict Name Symbol}
  {sections : ModuleSections} {relocations : List Relocation} {image : Image}

-- An environment with every code of the interface that the module can ask for
def entriesOf (api : Name → Option Nat) (symbols : Dict Name Symbol) : List SymbolEntry :=
  (processedSymbols symbols).filterMap fun symbol => (api symbol.name).map fun code => ⟨code, 0⟩

theorem provides_entriesOf : Provides api symbols (entriesOf api symbols) := by
  intro symbol hm _ code hcode
  refine ⟨⟨code, 0⟩, List.mem_filterMap.mpr ⟨symbol, hm, ?_⟩, rfl⟩
  rw [Option.mem_def.mp hcode]
  rfl

-- What the property says about the memory of one load
structure Observed (elf : ElfFile) (symbols : Dict Name Symbol) (sections : ModuleSections)
    (relocations : List Relocation) (loaded : Memory) (text data : Nat) : Prop where
  written : ∀ pointer ∈ pointers elf,
    sectionAddress sections text data pointer.sectionIndex pointer.value = some
      (match lastWrite (processedTable symbols sections relocations) (wordOf sections pointer.offset) with
      | some offset => wrap (data + offset)
      | none => loaded.readWord (4 * wordOf sections pointer.offset))
  overwritten : ∀ i offset, 4 * i + 4 ≤ sections.data.size →
    lastWrite (processedTable symbols sections relocations) i = some offset →
      (∀ pointer ∈ pointers elf, wordOf sections pointer.offset ≠ i) →
        wordAt sections.data.data (4 * i) = wrap (data + offset)
  kept : ∀ i < sections.data.size, Outside elf sections i →
    (∀ entry ∈ processedTable symbols sections relocations,
      i < 4 * entry.1 ∨ 4 * entry.1 + 4 ≤ i) → sections.data.data[i]? = some (loaded i)

section Load

variable {load : Load} (h : Written api symbols sections relocations image)
  (hi : InWords elf symbols sections relocations)
include h hi

theorem Written.entry_lt (hroom : sections.data.size + 2 ^ 20 < 2 ^ 32) {entry : Nat × Nat}
    (hm : entry ∈ processedTable symbols sections relocations) :
    4 * entry.1 < 2 ^ 32 ∧ entry.2 < 2 ^ 32 := by
  rw [← h.dataTable] at hm
  have hexternals := h.fits.externals
  have hlocals := h.fits.locals
  have hlater := List.mem_of_mem_take hm
  have hentry := (h.fits.entry entry (by
    rw [Image.entries, List.append_assoc]
    exact List.mem_append_right _ hlater)).2
  have hslots : image.slots = image.externals.length + image.locals.length := rfl
  refine ⟨?_, hentry⟩
  rcases List.mem_append.mp hlater with hm | hm
  · have hslot := h.slotted.2 _ hm
    rw [Nat.shiftRight_eq_div_pow] at hslot
    omega
  · rw [h.pointers] at hm
    obtain ⟨relocation, hp, he⟩ := List.mem_map.mp hm
    have hword := (hi.kept _ hp).wordOf_eq.2
    have hcount := h.slots
    rw [← he]
    dsimp only
    omega

variable (hl : load.Laid image)
include hl

theorem inside_of_relocated (hroom : sections.data.size + 2 ^ 20 < 2 ^ 32)
    {text : Nat} {memory : Memory}
    (hr : PointersRelocated elf sections load text load.allocations.data memory) :
    ∀ entry ∈ processedTable symbols sections relocations,
      4 * entry.1 + 4 ≤ sections.data.size := by
  intro entry hm
  have hdata := hl.data_lt
  have hsize := h.size
  have hindex := (h.entry_lt hi hroom hm).1
  rw [← h.dataTable] at hm
  obtain ⟨k, hk, rfl⟩ := List.mem_iff_getElem.mp hm
  have hin := hr.inside k (by
    rw [hl.stored.numberOfDataRelocations, ← Image.length_dataTable]
    exact hk)
  rw [target_eq hl hk] at hin
  exact (inside_iff (by omega) hindex).mp hin

theorem observed_of_relocated {loaded : Memory}
    (hloaded : ∀ i < sections.data.size, load.placed (load.allocations.data + i) = loaded i)
    (hr : PointersRelocated elf sections load load.text load.allocations.data
      (load.relocated image)) :
    Observed elf symbols sections relocations loaded load.text load.allocations.data := by
  have hsize := h.size
  have hword : ∀ i, 4 * i + 4 ≤ sections.data.size →
      (load.relocated image).readWord (load.allocations.data + 4 * i) =
        match lastWrite (processedTable symbols sections relocations) i with
        | some offset => wrap (load.allocations.data + offset)
        | none => loaded.readWord (4 * i) := by
    intro i hle
    have hplaced : load.placed.readWord (load.allocations.data + 4 * i) =
        loaded.readWord (4 * i) := by
      rw [Memory.readWord, Memory.readWord, Memory.bytes, Memory.bytes]
      refine congrArg Memory.decode (List.map_congr_left ?_)
      intro b hb
      have hlt := List.mem_range.mp hb
      rw [Nat.add_assoc]
      exact hloaded _ (by omega)
    rw [← h.dataTable, ← hplaced]
    exact hl.readWord_data h.slotted (by omega)
  refine ⟨fun pointer hm => ?_, fun i offset hle hlast hnone => ?_, fun i hlt hout hoff => ?_⟩
  · obtain ⟨hoffset, hle⟩ := (hi.placed _ hm).wordOf_eq
    rw [← hr.pointer pointer hm, hoffset, hword _ hle]
  · have hread := hword i hle
    rw [hlast] at hread
    refine Eq.trans ?_ hread
    refine (readWord_of_bytes fun b hb => ?_).symm
    have hbyte := hr.others (4 * i + b) (by omega) fun pointer hm => by
      have hne := hnone pointer hm
      have hoffset := (hi.placed _ hm).wordOf_eq.1
      omega
    rw [hbyte, Nat.add_assoc]
  · rw [hr.others i hlt hout, hl.data_byte h.slotted (by omega) (by rwa [h.dataTable]),
      hloaded i hlt]

end Load

theorem wrap_inj {base first second : Nat} (hf : first < 2 ^ 32) (hs : second < 2 ^ 32)
    (h : wrap (base + first) = wrap (base + second)) : first = second := by
  rw [wrap, wrap] at h
  omega

theorem wrap_add_ne {base shift offset : Nat} (hp : 0 < shift) (hs : shift < 2 ^ 32) :
    wrap (base + offset) ≠ wrap (base + shift + offset) := by
  rw [wrap, wrap]
  omega

theorem wrap_moved_ne {text data value offset : Nat}
    (h : wrap (text + value) = wrap (data + offset)) :
    wrap (text + 16 + value) ≠ wrap (data + 32 + offset) := by
  rw [wrap, wrap] at h ⊢
  omega

-- Two loads at different distances tell a coincidence from a relocation.
theorem words_of_observed {loaded : Memory} {text data : Nat}
    (hinside : ∀ entry ∈ processedTable symbols sections relocations,
      4 * entry.1 + 4 ≤ sections.data.size)
    (hfirst : Observed elf symbols sections relocations loaded text data)
    (hsecond : Observed elf symbols sections relocations loaded (text + 16) (data + 32)) :
    ∀ entry ∈ processedTable symbols sections relocations,
      ∃ pointer ∈ pointers elf, wordOf sections pointer.offset = entry.1 := by
  intro entry hm
  by_contra hnone
  have hne : ∀ pointer ∈ pointers elf, wordOf sections pointer.offset ≠ entry.1 :=
    fun pointer hp he => hnone ⟨pointer, hp, he⟩
  obtain ⟨offset, hlast⟩ : ∃ offset,
      lastWrite (processedTable symbols sections relocations) entry.1 = some offset := by
    cases hl : lastWrite (processedTable symbols sections relocations) entry.1 with
    | some offset => exact ⟨offset, rfl⟩
    | none => exact absurd rfl (lastWrite_eq_none_iff.mp hl entry hm)
  have hone := hfirst.overwritten _ _ (hinside entry hm) hlast hne
  have htwo := hsecond.overwritten _ _ (hinside entry hm) hlast hne
  exact wrap_add_ne (by omega) (by omega) (hone.symm.trans htwo)

theorem offsets_of_observed (hi : InWords elf symbols sections relocations) {loaded : Memory}
    {text data : Nat}
    (hoffset : ∀ entry ∈ processedTable symbols sections relocations, entry.2 < 2 ^ 32)
    (hfirst : Observed elf symbols sections relocations loaded text data)
    (hsecond : Observed elf symbols sections relocations loaded (text + 16) (data + 32)) :
    ∀ pointer ∈ pointers elf,
      pointer.sectionIndex ≠ .at sections.indices.code ∧
        lastWrite (processedTable symbols sections relocations) (wordOf sections pointer.offset) =
          some (wrap (pointer.value - sections.code.size)) := by
  intro pointer hm
  have hone := hfirst.written pointer hm
  have htwo := hsecond.written pointer hm
  rw [sectionAddress] at hone htwo
  by_cases hs : pointer.sectionIndex = .at sections.indices.code
  · rw [if_pos hs, Option.some.injEq] at hone htwo
    exfalso
    cases hl : lastWrite (processedTable symbols sections relocations)
        (wordOf sections pointer.offset) with
    | none =>
        rw [hl] at hone htwo
        exact wrap_add_ne (by omega) (by omega) (hone.trans htwo.symm)
    | some offset =>
        rw [hl] at hone htwo
        exact wrap_moved_ne hone htwo
  · have hd := (hi.supported pointer hm).resolve_left hs
    rw [if_neg hs, if_pos hd, Option.some.injEq] at hone htwo
    refine ⟨hs, ?_⟩
    cases hl : lastWrite (processedTable symbols sections relocations)
        (wordOf sections pointer.offset) with
    | none =>
        rw [hl] at hone htwo
        exact absurd (hone.trans htwo.symm) (wrap_add_ne (by omega) (by omega))
    | some offset =>
        have hlt := hoffset _ (mem_of_lastWrite hl)
        have hwrapped : wrap (pointer.value - sections.code.size) < 2 ^ 32 :=
          Nat.mod_lt _ (by decide)
        rw [hl, ← wrap_add_wrap] at hone
        exact congrArg some (wrap_inj hwrapped hlt hone).symm

theorem coincides_of_relocatesPointers (h : Written api symbols sections relocations image)
    (hi : InWords elf symbols sections relocations)
    (hroom : image.bytes.length + sections.code.size + sections.data.size + sections.bss.size +
      2 ^ 20 < 2 ^ 32) {residue : Nat} (hresidue : residue < 16)
    (hr : RelocatesPointers api elf symbols sections image.bytes residue) :
    Coincides elf symbols sections relocations image.bytes residue := by
  have hsmall : sections.data.size + 2 ^ 20 < 2 ^ 32 := by omega
  have hobserved : ∀ byte shift, shift ≤ 16 →
      (∀ entry ∈ processedTable symbols sections relocations,
        4 * entry.1 + 4 ≤ sections.data.size) ∧
      Observed elf symbols sections relocations (fun i => (image.loadedByte residue i).getD byte)
        (loadAt image (entriesOf api symbols) residue byte shift).text
        (loadAt image (entriesOf api symbols) residue byte shift).allocations.data := by
    intro byte shift hshift
    have hsize := h.size
    have hvalid := @loadAt_valid _ (entriesOf api symbols) residue byte shift h.fits (by
      rw [h.code, h.size, h.bss]
      exact hroom) hresidue hshift
    have hlaid := hvalid.laid h.fits
    obtain ⟨start, memory, ⟨_, _, _, hmemory⟩, hrelocated⟩ :=
      hr _ hvalid (by simp only [loadAt]; omega) provides_entriesOf DynamicLinker.new
    have hinside := inside_of_relocated h hi hlaid hsmall hrelocated
    obtain ⟨_, _, _, _, hfinal⟩ := h.returns hlaid provides_entriesOf hinside DynamicLinker.new
    rw [← hmemory, hfinal] at hrelocated
    exact ⟨hinside, observed_of_relocated h hi hlaid
      (fun i hlt => placed_loadAt hlaid hresidue (by omega) (by omega)) hrelocated⟩
  obtain ⟨hinside, hfirst⟩ := hobserved 0 0 (by omega)
  obtain ⟨-, hsecond⟩ := hobserved 0 16 (by omega)
  obtain ⟨-, hother⟩ := hobserved 1 0 (by omega)
  rw [text_loadAt] at hfirst hsecond
  have hwords := words_of_observed hinside hfirst hsecond
  refine ⟨fun i hlt hout => ?_, hwords, offsets_of_observed hi ?_ hfirst hsecond⟩
  · have hzero := hfirst.kept i hlt hout (hi.outside hwords hout)
    have hone := hother.kept i hlt hout (hi.outside hwords hout)
    rw [← h.loadedByte]
    cases hb : image.loadedByte residue i with
    | some byte =>
        rw [hzero, hb]
        rfl
    | none =>
        simp only [hb, Option.getD_none] at hzero hone
        rw [hzero] at hone
        exact absurd (Option.some.inj hone) (by decide)
  · intro entry hm
    exact (h.entry_lt hi hsmall hm).2

end Necessary

section Condition

variable {objcopy : ElfFile → Name → ElfFile} {api : Name → Option Nat} {elf : ElfFile}
  {sections : ModuleSections} {relocations : List Relocation} {file : List UInt8}

-- The data relocations are right in every load exactly when the table that is
-- read in their place happens to be.
theorem relocatesPointers_iff (hs : moduleSections elf = .ok sections)
    (hr : getRelocations (changeVisibilityOfWrappedSymbols objcopy elf) = .ok relocations)
    (hg : generateModule objcopy api elf = .ok file)
    (hexported : ∀ relocation ∈ relocations, localizationOf
      (getSymbols (changeVisibilityOfWrappedSymbols objcopy elf)) relocation ≠ some .exported)
    (hi : InWords (changeVisibilityOfWrappedSymbols objcopy elf)
      (getSymbols (changeVisibilityOfWrappedSymbols objcopy elf)) sections relocations)
    (hroom : file.length + sections.code.size + sections.data.size + sections.bss.size + 2 ^ 20 <
      2 ^ 32) {residue : Nat} (hresidue : residue < 16) :
    RelocatesPointers api (changeVisibilityOfWrappedSymbols objcopy elf)
        (getSymbols (changeVisibilityOfWrappedSymbols objcopy elf)) sections file residue ↔
      Coincides (changeVisibilityOfWrappedSymbols objcopy elf)
        (getSymbols (changeVisibilityOfWrappedSymbols objcopy elf)) sections relocations file
          residue := by
  obtain ⟨found, hf, hg⟩ := generateModule_eq_ok hs hg
  obtain rfl := Except.ok.inj (hf.symm.trans hr)
  obtain ⟨image, hw, rfl⟩ := written_of_ok hi.kept hexported hg
  constructor
  · exact coincides_of_relocatesPointers hw hi hroom hresidue
  · exact fun hc => hc.relocatesPointers hw hi

end Condition

section Counter

-- A module with a variable and a pointer to it, which its code uses as well.
def counterElf : ElfFile where
  sections := [⟨[], 0, []⟩, ⟨".text".toList, 0, List.replicate 8 0⟩,
    ⟨".data".toList, 8, [0, 0, 0, 0, 5, 0, 0, 0]⟩, ⟨".bss".toList, 16, []⟩]
  symbols := [nullSymbol, ⟨main, .func, .global_, .default_, 0, .at 1⟩,
    ⟨"counter".toList, .object, .local_, .default_, 12, .at 2⟩]
  relocations := [⟨4, .gotBrel, 2⟩, ⟨8, .abs32, 2⟩]

def wrappedFile (elf : ElfFile) : ElfFile := changeVisibilityOfWrappedSymbols keepVisibility elf

def symbolsOfFile (elf : ElfFile) : Dict Name Symbol := getSymbols (wrappedFile elf)

def relocationsOfFile (elf : ElfFile) : List Relocation :=
  (getRelocations (wrappedFile elf)).toOption.getD []

theorem relocatesPointers_iff_counter :
    RelocatesPointers libraryApi (wrappedFile counterElf) (symbolsOfFile counterElf)
        (sectionsOf counterElf) (fileOf counterElf) 0 ↔
      Coincides (wrappedFile counterElf) (symbolsOfFile counterElf) (sectionsOf counterElf)
        (relocationsOfFile counterElf) (fileOf counterElf) 0 :=
  relocatesPointers_iff (show moduleSections counterElf = .ok (sectionsOf counterElf) from rfl)
    (show getRelocations (wrappedFile counterElf) = .ok (relocationsOfFile counterElf) by
      decide +kernel)
    (show generateModule keepVisibility libraryApi counterElf = .ok (fileOf counterElf) by
      decide +kernel)
    (by decide +kernel) ⟨by decide +kernel, by decide +kernel, by decide +kernel⟩
    (by decide +kernel) (by decide)

-- The entry of the local relocation is taken for the one of the pointer: the
-- address goes to the variable, and the pointer stays null.
theorem counter_not_relocated :
    moduleSections counterElf = .ok (sectionsOf counterElf) ∧
      getRelocations (wrappedFile counterElf) = .ok (relocationsOfFile counterElf) ∧
      generateModule keepVisibility libraryApi counterElf = .ok (fileOf counterElf) ∧
      InWords (wrappedFile counterElf) (symbolsOfFile counterElf) (sectionsOf counterElf)
        (relocationsOfFile counterElf) ∧
      ¬RelocatesPointers libraryApi (wrappedFile counterElf) (symbolsOfFile counterElf)
        (sectionsOf counterElf) (fileOf counterElf) 0 := by
  refine ⟨rfl, by decide +kernel, by decide +kernel,
    ⟨by decide +kernel, by decide +kernel, by decide +kernel⟩, fun h => ?_⟩
  have hvalid : (loadOf counterElf).Valid (fileOf counterElf) := by
    decide +kernel
  obtain ⟨start, memory, ⟨_, _, _, rfl⟩, hrelocated⟩ :=
    h (loadOf counterElf) hvalid (by decide) (by decide +kernel) DynamicLinker.new
  have hpointer := hrelocated.pointer ⟨8, 12, .at 2⟩ (by decide +kernel)
  revert hpointer
  decide +kernel

-- The variable shares its name with a label behind it: the type is looked up at the
-- label, and the pointer is not kept.
def sharedNameElf : ElfFile :=
  { counterElf with
    symbols := counterElf.symbols ++ [⟨"counter".toList, .noType, .local_, .default_, 0, .at 1⟩] }

example : ¬Coincides (wrappedFile sharedNameElf) (symbolsOfFile sharedNameElf)
    (sectionsOf sharedNameElf) (relocationsOfFile sharedNameElf) (fileOf sharedNameElf) 0 := by
  intro h
  have hlast := (h.offsets ⟨8, 12, .at 2⟩ (by decide +kernel)).2
  revert hlast
  decide +kernel

end Counter

end Msos.Module
