import Msos.Image
import Msos.Scripts.GenerateBinary.Extraction
import Msos.Scripts.GenerateBinary.Patching

namespace Msos.Scripts

open Msos.Library Msos.Library.Fallible

section Packing

theorem pack_eq_ok {fields : List (Nat × Int)} {bytes : List UInt8} (h : pack fields = .ok bytes) :
    (∀ field ∈ fields, 0 ≤ field.2 ∧ field.2 < 256 ^ field.1) ∧
      bytes = fields.flatMap fun field => Memory.encode field.1 field.2.toNat := by
  unfold pack at h
  split at h
  · rename_i hf
    exact ⟨hf, (Except.ok.inj h).symm⟩
  · cases h

-- Both numbers of an entry fit into a word.
def IsEntry (entry : Int × Int) : Prop :=
  (0 ≤ entry.1 ∧ entry.1 < 2 ^ 32) ∧ 0 ≤ entry.2 ∧ entry.2 < 2 ^ 32

def natEntry (entry : Int × Int) : Nat × Nat := (entry.1.toNat, entry.2.toNat)

theorem packEntries_eq_ok {entries : List (Int × Int)} {bytes : List UInt8}
    (h : packEntries entries = .ok bytes) :
    (∀ entry ∈ entries, IsEntry entry) ∧ bytes = (entries.map natEntry).flatMap Image.word := by
  obtain ⟨hf, rfl⟩ := pack_eq_ok h
  constructor
  · intro entry hm
    have hfirst := hf (4, entry.1) (List.mem_flatMap.mpr ⟨entry, hm, by simp⟩)
    have hsecond := hf (4, entry.2) (List.mem_flatMap.mpr ⟨entry, hm, by simp⟩)
    norm_num at hfirst hsecond
    exact ⟨hfirst, hsecond⟩
  · rw [List.flatMap_assoc, List.flatMap_map]
    apply List.flatMap_congr
    intro entry _
    simp [Image.word, natEntry]

def moduleSymbol (codeLength : Nat) (symbol : ImageSymbol) (code : Nat) : ModuleSymbol where
  section_ := symbol.section_
  value := if symbol.section_ = 1 then symbol.value - codeLength else symbol.value
  code := code

def FitsSymbol (symbol : ModuleSymbol) : Prop :=
  symbol.section_ < 2 ^ 16 ∧ symbol.value < 2 ^ 32 ∧ symbol.code < 2 ^ 32

theorem packSymbol_eq_ok {codeLength : Nat} {symbol : ImageSymbol} {code : Nat}
    {bytes : List UInt8} (h : packSymbol codeLength symbol code = .ok bytes) :
    FitsSymbol (moduleSymbol codeLength symbol code) ∧
      bytes = Image.symbolRecord (moduleSymbol codeLength symbol code) := by
  obtain ⟨hf, rfl⟩ := pack_eq_ok h
  simp only [List.forall_mem_cons, List.not_mem_nil, IsEmpty.forall_iff, implies_true, and_true]
    at hf
  obtain ⟨-, hsection, hvalue, hcode⟩ := hf
  norm_num at hsection hvalue hcode
  by_cases hd : symbol.section_ = 1
  · simp only [hd, ite_true] at hvalue
    refine ⟨⟨?_, ?_, ?_⟩, ?_⟩
    · simp only [moduleSymbol]
      omega
    · simp only [moduleSymbol, hd, ite_true]
      omega
    · simp only [moduleSymbol]
      omega
    · have hnat : ((symbol.value : Int) - codeLength).toNat = symbol.value - codeLength := by omega
      simp [Image.symbolRecord, moduleSymbol, hd, hnat, sizeofImageSymbol]
  · simp only [hd, ite_false] at hvalue
    refine ⟨⟨?_, ?_, ?_⟩, ?_⟩
    · simp only [moduleSymbol]
      omega
    · simp only [moduleSymbol, hd, ite_false]
      omega
    · simp only [moduleSymbol]
      omega
    · simp [Image.symbolRecord, moduleSymbol, hd, sizeofImageSymbol]

theorem findSymbolCode_eq_ok {api : Name → Option Nat} {name : Name} {code : Nat}
    (h : findSymbolCode api name = .ok code) : api name = some code := by
  unfold findSymbolCode at h
  split at h
  · rename_i found hf
    rw [hf, Except.ok.inj h]
  · cases h

def exportedRecord (api : Name → Option Nat) (codeLength : Nat) (symbol : ImageSymbol) :
    ModuleSymbol :=
  moduleSymbol codeLength symbol
    ((api (if symbol.name = main then main else "undefined".toList)).getD 0)

def externalRecord (api : Name → Option Nat) (codeLength : Nat) (symbol : ImageSymbol) :
    ModuleSymbol :=
  moduleSymbol codeLength symbol ((api symbol.name).getD 0)

variable {api : Name → Option Nat} {codeLength : Nat}

theorem packExportedSymbol_eq_ok {symbol : ImageSymbol} {bytes : List UInt8}
    (h : packExportedSymbol api codeLength symbol = .ok bytes) :
    FitsSymbol (exportedRecord api codeLength symbol) ∧
      bytes = Image.symbolRecord (exportedRecord api codeLength symbol) := by
  obtain ⟨code, hc, h⟩ := bind_eq_ok.mp h
  rw [exportedRecord, findSymbolCode_eq_ok hc]
  exact packSymbol_eq_ok h

theorem packExternalSymbol_eq_ok {symbol : ImageSymbol} {bytes : List UInt8}
    (h : packExternalSymbol api codeLength symbol = .ok bytes) :
    FitsSymbol (externalRecord api codeLength symbol) ∧
      bytes = Image.symbolRecord (externalRecord api codeLength symbol) := by
  obtain ⟨code, hc, h⟩ := bind_eq_ok.mp h
  rw [externalRecord, findSymbolCode_eq_ok hc]
  exact packSymbol_eq_ok h

-- The symbols of the image, the exported ones first
def records (api : Name → Option Nat) (codeLength : Nat) (exporteds externals : List ImageSymbol) :
    List ModuleSymbol :=
  exporteds.map (exportedRecord api codeLength) ++ externals.map (externalRecord api codeLength)

theorem packSymbols_eq_ok {exporteds externals : List ImageSymbol} {bytes : List UInt8}
    (h : packSymbols api codeLength exporteds externals = .ok bytes) :
    (∀ symbol ∈ records api codeLength exporteds externals, FitsSymbol symbol) ∧
      (∀ symbol ∈ externals, ∃ code, api symbol.name = some code) ∧
        bytes = (records api codeLength exporteds externals).flatMap Image.symbolRecord := by
  obtain ⟨exported, he, h⟩ := bind_eq_ok.mp h
  obtain ⟨external, hx, h⟩ := bind_eq_ok.mp h
  obtain rfl := Except.ok.inj h
  have hexported : exported = exporteds.map (Image.symbolRecord ∘ exportedRecord api codeLength) := by
    have hmap := map_of_mapM he (g := id) fun symbol _ bytes _ hb => (packExportedSymbol_eq_ok hb).2
    rwa [List.map_id] at hmap
  have hexternal : external = externals.map (Image.symbolRecord ∘ externalRecord api codeLength) := by
    have hmap := map_of_mapM hx (g := id) fun symbol _ bytes _ hb => (packExternalSymbol_eq_ok hb).2
    rwa [List.map_id] at hmap
  refine ⟨?_, ?_, ?_⟩
  · intro symbol hm
    rcases List.mem_append.mp hm with hm | hm
    · obtain ⟨source, hs, rfl⟩ := List.mem_map.mp hm
      obtain ⟨bytes, _, hb⟩ := exists_of_mapM he hs
      exact (packExportedSymbol_eq_ok hb).1
    · obtain ⟨source, hs, rfl⟩ := List.mem_map.mp hm
      obtain ⟨bytes, _, hb⟩ := exists_of_mapM hx hs
      exact (packExternalSymbol_eq_ok hb).1
  · intro symbol hm
    obtain ⟨bytes, _, hb⟩ := exists_of_mapM hx hm
    obtain ⟨code, hc, _⟩ := bind_eq_ok.mp hb
    exact ⟨code, findSymbolCode_eq_ok hc⟩
  · rw [hexported, hexternal, records, List.flatMap_append, List.flatMap_map, List.flatMap_map]
    rfl

end Packing

section Tables

def position (externals : List ImageSymbol) (name : Name) : Nat :=
  (externals.takeWhile fun symbol => symbol.name ≠ name).length

theorem position_spec {externals : List ImageSymbol} {name : Name}
    (h : ∃ symbol ∈ externals, symbol.name = name) :
    ∃ symbol, externals[position externals name]? = some symbol ∧ symbol.name = name := by
  induction externals with
  | nil => simp at h
  | cons first rest ih =>
      by_cases hf : first.name = name
      · exact ⟨first, by simp [position, hf], hf⟩
      · obtain ⟨symbol, hm, hn⟩ := h
        rcases List.mem_cons.mp hm with rfl | hm
        · exact absurd hn hf
        · obtain ⟨found, hg, he⟩ := ih ⟨symbol, hm, hn⟩
          refine ⟨found, ?_, he⟩
          have hp : position (first :: rest) name = position rest name + 1 := by
            simp [position, hf]
          rw [hp, List.getElem?_cons_succ]
          exact hg

-- The words of a local relocation, as the loader reads them
def localWord (indices : SectionIndices) (codeLength : Nat) (local_ : LocalRelocation) : Nat × Nat :=
  if local_.sectionIndex = .at indices.code then (2 * local_.index.toNat, local_.symbolValue)
  else (2 * local_.index.toNat + 1, local_.symbolValue - codeLength)

def InData (indices : SectionIndices) (codeLength : Nat) (sectionIndex : SectionIndex) (value : Nat) :
    Prop :=
  (sectionIndex = .at indices.data ∨ sectionIndex = .at indices.bss) ∧ codeLength ≤ value

instance (indices : SectionIndices) (codeLength : Nat) (sectionIndex : SectionIndex) (value : Nat) :
    Decidable (InData indices codeLength sectionIndex value) :=
  inferInstanceAs (Decidable (_ ∧ _))

theorem localEntry_eq_ok {indices : SectionIndices} {codeLength : Nat} {local_ : LocalRelocation}
    {entry : Int × Int} (h : localEntry indices codeLength local_ = .ok entry) (he : IsEntry entry)
    (hi : 0 ≤ local_.index) :
    natEntry entry = localWord indices codeLength local_ ∧
      (local_.sectionIndex = .at indices.code ∨
        InData indices codeLength local_.sectionIndex local_.symbolValue) := by
  unfold localEntry at h
  split at h
  · rename_i hc
    obtain rfl := Except.ok.inj h
    refine ⟨?_, Or.inl hc⟩
    simp only [natEntry, localWord, hc, ite_true, Int.toNat_natCast, Prod.mk.injEq, and_true]
    omega
  · rename_i hc
    split at h
    · rename_i hd
      obtain rfl := Except.ok.inj h
      have hvalue := he.2.1
      dsimp only at hvalue
      refine ⟨?_, Or.inr ⟨hd, by omega⟩⟩
      simp only [natEntry, localWord, hc, ite_false, Prod.mk.injEq]
      omega
    · cases h

variable (api : Name → Option Nat) (sections : ModuleSections) (symbols : Dict Name Symbol)
  (relocations : List Relocation)

abbrev exportedSymbols : List ImageSymbol :=
  symbolsOf sections.indices (processedSymbols symbols) .exported

abbrev externalSymbols : List ImageSymbol :=
  symbolsOf sections.indices (processedSymbols symbols) .external

abbrev dataRelocations (extracted : Extracted) : List DataRelocation :=
  extractDataRelocations symbols sections.code.data.length extracted.index relocations

abbrev numberOfEntries (extracted : Extracted) : Nat :=
  (dataRelocations sections symbols relocations extracted).length + extracted.locals.length +
    (unique extracted.externals).length + (unique extracted.exporteds).length

abbrev externalTable (extracted : Extracted) : List (Int × Int) :=
  externalEntries (numberOfEntries sections symbols relocations extracted)
    (sizeofImageSymbol * (exportedSymbols sections symbols).length)
    (externalSymbols sections symbols) (unique extracted.externals)

-- The module file by its contents
def imageOf (extracted : Extracted) (patched : List UInt8) : Image where
  code := patched
  data := sections.data.data
  bssSize := sections.bss.size
  externals := (unique extracted.externals).map fun external => (external.index.toNat,
    (exportedSymbols sections symbols).length +
      position (externalSymbols sections symbols) external.name)
  locals := extracted.locals.map (localWord sections.indices sections.code.data.length)
  pointers := (dataRelocations sections symbols relocations extracted).map fun relocation =>
    natEntry (dataEntry relocation)
  symbols := records api sections.code.data.length (exportedSymbols sections symbols)
    (externalSymbols sections symbols)
  externalSymbols := (externalSymbols sections symbols).length

-- What generate_module has computed when it returns
structure Generated (extracted : Extracted) (patched : List UInt8) : Prop where
  extractRelocations_eq : extractRelocations (processedSymbols symbols) relocations = .ok extracted
  patchOffsets_eq : patchOffsets sections.code.data extracted = .ok patched
  sizes : sections.code.data.length < 2 ^ 32 ∧ sections.data.size < 2 ^ 32 ∧
    sections.bss.size < 2 ^ 32
  counts : (unique extracted.externals).length < 2 ^ 16 ∧ extracted.locals.length < 2 ^ 16 ∧
    (dataRelocations sections symbols relocations extracted).length < 2 ^ 16 ∧
      (externalSymbols sections symbols).length < 2 ^ 16
  externals : ∀ entry ∈ externalTable sections symbols relocations extracted, IsEntry entry
  locals : ∃ entries, extracted.locals.mapM
      (localEntry sections.indices sections.code.data.length) = .ok entries ∧
    ∀ entry ∈ entries, IsEntry entry
  pointers : ∀ entry ∈ (dataRelocations sections symbols relocations extracted).map dataEntry,
    IsEntry entry
  records : ∀ symbol ∈ records api sections.code.data.length (exportedSymbols sections symbols)
    (externalSymbols sections symbols), FitsSymbol symbol
  coded : ∀ symbol ∈ externalSymbols sections symbols, ∃ code, api symbol.name = some code

variable {api sections symbols relocations} {extracted : Extracted} {patched bytes : List UInt8}

theorem natEntry_externalEntries {externals : List ImageSymbol} {used : List NamedRelocation}
    {total exportedCount : Nat} (hl : used.length ≤ total) :
    (externalEntries total (sizeofImageSymbol * exportedCount) externals used).map natEntry =
      used.zipIdx.map fun (external, i) => (external.index.toNat, (total - i) * sizeofRelocation +
        sizeofSymbol * (exportedCount + position externals external.name)) := by
  rw [externalEntries, List.map_map]
  apply List.map_congr_left
  rintro ⟨external, i⟩ hm
  have hi := List.snd_lt_of_mem_zipIdx hm
  dsimp only at hi
  simp only [Function.comp_apply, natEntry, symbolOffset, sizeofImageSymbol, sizeofImageRelocation,
    sizeofRelocation, sizeofSymbol, Prod.mk.injEq, true_and, position]
  omega

theorem natEntry_externalTable (hexported : extracted.exporteds = []) :
    (externalTable sections symbols relocations extracted).map natEntry =
      (imageOf api sections symbols relocations extracted patched).externalEntries := by
  have hnone : (unique extracted.exporteds).length = 0 := by
    rw [hexported]
    rfl
  rw [externalTable, natEntry_externalEntries (by unfold numberOfEntries; omega),
    Image.externalEntries, imageOf, List.zipIdx_map, List.map_map]
  apply List.map_congr_left
  rintro ⟨external, i⟩ hm
  have hi := List.snd_lt_of_mem_zipIdx hm
  dsimp only at hi
  simp only [Function.comp_apply, Image.numberOfRelocations, List.length_map, Prod.map, id,
    Prod.mk.injEq, true_and, numberOfEntries, hnone]
  congr 3
  omega

theorem external_found {external : NamedRelocation}
    (h : ∃ relocation ∈ relocations, ∃ symbol, Got (processedSymbols symbols) relocation symbol ∧
      localization symbol = .external ∧ external.name = relocation.symbolName ∧
        external.offset = relocation.offset) :
    ∃ symbol ∈ externalSymbols sections symbols, symbol.name = external.name := by
  obtain ⟨relocation, _, symbol, ⟨_, hf⟩, hl, hn, _⟩ := h
  have hname : symbol.name = relocation.symbolName := by simpa using List.find?_some hf
  refine ⟨⟨symbol.name, imageSection sections.indices symbol.sectionIndex, symbol.value⟩, ?_, ?_⟩
  · exact List.mem_map.mpr ⟨symbol, List.mem_filter.mpr
      ⟨List.mem_of_find?_eq_some hf, by simpa using hl⟩, rfl⟩
  · exact hname.trans hn.symm

theorem nonneg_of_numbered {indices : List Int} {count : Nat}
    (hp : indices.Perm ((List.range count).map Int.ofNat)) {index : Int} (hm : index ∈ indices) :
    0 ≤ index := by
  obtain ⟨slot, _, hslot⟩ := List.mem_map.mp (hp.mem_iff.mp hm)
  rw [← hslot]
  exact Int.natCast_nonneg slot

theorem Allots.index_nonneg {processed : List Symbol}
    (h : Allots processed relocations extracted) {index : Int}
    (hm : index ∈ slotIndices extracted) : 0 ≤ index := by
  obtain ⟨count, _, hp⟩ := h.numbered
  exact nonneg_of_numbered hp (List.mem_append_left _ hm)

theorem Extracts.index_nonneg {processed : List Symbol}
    (h : Extracts processed relocations extracted) {index : Int}
    (hm : index ∈ slotIndices extracted) : 0 ≤ index := by
  obtain ⟨count, _, hp⟩ := h.numbered
  exact nonneg_of_numbered hp hm

theorem Extracts.local_nonneg {processed : List Symbol}
    (h : Extracts processed relocations extracted) :
    ∀ local_ ∈ extracted.locals, 0 ≤ local_.index :=
  fun _ hm => h.index_nonneg (List.mem_append_right _ (List.mem_map_of_mem hm))

def encodeFields (fields : List (Nat × Int)) : List UInt8 :=
  fields.flatMap fun field => Memory.encode field.1 field.2.toNat

-- The file in front of its padding, piece by piece
def fileTables (api : Name → Option Nat) (sections : ModuleSections) (symbols : Dict Name Symbol)
    (relocations : List Relocation) (extracted : Extracted) (localEntries : List (Int × Int)) :
    List UInt8 :=
  cookie ++
    encodeFields [(4, sections.code.data.length), (4, sections.data.size), (4, sections.bss.size)] ++
    encodeFields [(2, (unique extracted.externals).length), (2, extracted.locals.length),
      (2, (dataRelocations sections symbols relocations extracted).length),
      (2, (externalSymbols sections symbols).length)] ++
    ((externalTable sections symbols relocations extracted).map natEntry).flatMap Image.word ++
    (localEntries.map natEntry).flatMap Image.word ++
    (((dataRelocations sections symbols relocations extracted).map dataEntry).map
      natEntry).flatMap Image.word ++
    (records api sections.code.data.length (exportedSymbols sections symbols)
      (externalSymbols sections symbols)).flatMap Image.symbolRecord

theorem generateImage_eq_ok (h : generateImage api sections symbols relocations = .ok bytes) :
    ∃ extracted patched, Generated api sections symbols relocations extracted patched ∧
      ∃ localEntries, extracted.locals.mapM
          (localEntry sections.indices sections.code.data.length) = .ok localEntries ∧
        bytes = fileTables api sections symbols relocations extracted localEntries ++
          padding (fileTables api sections symbols relocations extracted localEntries).length ++
            patched ++ sections.data.data := by
  unfold generateImage at h
  obtain ⟨extracted, hx, h⟩ := bind_eq_ok.mp h
  obtain ⟨sizes, hsizes, h⟩ := bind_eq_ok.mp h
  obtain ⟨patched, hpatched, h⟩ := bind_eq_ok.mp h
  obtain ⟨counts, hcounts, h⟩ := bind_eq_ok.mp h
  obtain ⟨external, hexternal, h⟩ := bind_eq_ok.mp h
  obtain ⟨localEntries, hentries, h⟩ := bind_eq_ok.mp h
  obtain ⟨local_, hlocal, h⟩ := bind_eq_ok.mp h
  obtain ⟨data, hdata, h⟩ := bind_eq_ok.mp h
  obtain ⟨symbol, hsymbols, h⟩ := bind_eq_ok.mp h
  obtain ⟨hsizesfit, rfl⟩ := pack_eq_ok hsizes
  obtain ⟨hcountsfit, rfl⟩ := pack_eq_ok hcounts
  obtain ⟨hexternalfit, rfl⟩ := packEntries_eq_ok hexternal
  obtain ⟨hlocalfit, rfl⟩ := packEntries_eq_ok hlocal
  obtain ⟨hdatafit, rfl⟩ := packEntries_eq_ok hdata
  obtain ⟨hsymbolsfit, hcoded, rfl⟩ := packSymbols_eq_ok hsymbols
  simp only [List.forall_mem_cons, List.not_mem_nil, IsEmpty.forall_iff, implies_true, and_true]
    at hsizesfit hcountsfit
  norm_num at hsizesfit hcountsfit
  refine ⟨extracted, patched, ⟨hx, hpatched, ?_, ?_, hexternalfit,
    ⟨localEntries, hentries, hlocalfit⟩, hdatafit, hsymbolsfit, hcoded⟩,
    localEntries, hentries, (Except.ok.inj h).symm⟩
  · omega
  · omega

-- The entries of the three relocation tables, in the order of the file
def relocationTable (sections : ModuleSections) (symbols : Dict Name Symbol)
    (relocations : List Relocation) (extracted : Extracted) (localEntries : List (Int × Int)) :
    List (Nat × Nat) :=
  (externalTable sections symbols relocations extracted).map natEntry ++
    localEntries.map natEntry ++
      (dataRelocations sections symbols relocations extracted).map fun relocation =>
        natEntry (dataEntry relocation)

abbrev symbolTable (api : Name → Option Nat) (sections : ModuleSections)
    (symbols : Dict Name Symbol) : List ModuleSymbol :=
  records api sections.code.data.length (exportedSymbols sections symbols)
    (externalSymbols sections symbols)

section Files

variable {localEntries : List (Int × Int)}
  (h : Generated api sections symbols relocations extracted patched)
include h

theorem fileTables_eq : fileTables api sections symbols relocations extracted localEntries =
    (imageOf api sections symbols relocations extracted patched).header ++
      ((relocationTable sections symbols relocations extracted localEntries).flatMap Image.word ++
        (symbolTable api sections symbols).flatMap Image.symbolRecord) := by
  have hlength := length_patchOffsets h.patchOffsets_eq
  rw [fileTables, relocationTable, List.flatMap_append, List.flatMap_append, List.map_map]
  simp only [imageOf, Image.header, encodeFields, List.flatMap_cons, List.flatMap_nil,
    List.length_map, Int.toNat_natCast, hlength, List.append_assoc, List.append_nil]
  rfl

theorem relocationTable_lt
    (he : extracted.locals.mapM (localEntry sections.indices sections.code.data.length) =
      .ok localEntries) {entry : Nat × Nat}
    (hm : entry ∈ relocationTable sections symbols relocations extracted localEntries) :
    entry.1 < 2 ^ 32 ∧ entry.2 < 2 ^ 32 := by
  have hfits : ∃ source, IsEntry source ∧ natEntry source = entry := by
    obtain ⟨other, ho, hlocals⟩ := h.locals
    obtain rfl := Except.ok.inj (ho.symm.trans he)
    rw [relocationTable, List.mem_append, List.mem_append] at hm
    rcases hm with (hm | hm) | hm
    · obtain ⟨source, hs, heq⟩ := List.mem_map.mp hm
      exact ⟨source, h.externals source hs, heq⟩
    · obtain ⟨source, hs, heq⟩ := List.mem_map.mp hm
      exact ⟨source, hlocals source hs, heq⟩
    · obtain ⟨relocation, hs, heq⟩ := List.mem_map.mp hm
      exact ⟨dataEntry relocation, h.pointers _ (List.mem_map_of_mem hs), heq⟩
  obtain ⟨source, hsource, rfl⟩ := hfits
  simp only [IsEntry] at hsource
  simp only [natEntry]
  omega

end Files

section Locals

variable (h : Generated api sections symbols relocations extracted patched)
  (hnonneg : ∀ local_ ∈ extracted.locals, 0 ≤ local_.index)
include h hnonneg

theorem localWords_eq {entries : List (Int × Int)}
    (he : extracted.locals.mapM (localEntry sections.indices sections.code.data.length) =
      .ok entries) :
    entries.map natEntry =
      extracted.locals.map (localWord sections.indices sections.code.data.length) := by
  obtain ⟨other, ho, hfit⟩ := h.locals
  obtain rfl := Except.ok.inj (ho.symm.trans he)
  apply map_of_mapM he
  intro local_ hm entry hmem heq
  exact (localEntry_eq_ok heq (hfit entry hmem) (hnonneg local_ hm)).1

theorem locals_supported {local_ : LocalRelocation} (hm : local_ ∈ extracted.locals) :
    local_.sectionIndex = .at sections.indices.code ∨
      InData sections.indices sections.code.data.length local_.sectionIndex local_.symbolValue := by
  obtain ⟨entries, he, hfit⟩ := h.locals
  obtain ⟨entry, hmem, heq⟩ := exists_of_mapM he hm
  exact (localEntry_eq_ok heq (hfit entry hmem) (hnonneg local_ hm)).2

end Locals

section Image

variable (hx : Extracts (processedSymbols symbols) relocations extracted)
  (h : Generated api sections symbols relocations extracted patched)
include hx h

-- The tables of the file are the ones of the image.
theorem relocationTable_imageOf {entries : List (Int × Int)}
    (he : extracted.locals.mapM (localEntry sections.indices sections.code.data.length) =
      .ok entries) :
    relocationTable sections symbols relocations extracted entries =
      (imageOf api sections symbols relocations extracted patched).entries := by
  rw [relocationTable, natEntry_externalTable hx.exporteds, localWords_eq h hx.local_nonneg he]
  rfl

theorem fits_imageOf : (imageOf api sections symbols relocations extracted patched).Fits := by
  have hlength := length_patchOffsets h.patchOffsets_eq
  have hrecords : (records api sections.code.data.length (exportedSymbols sections symbols)
      (externalSymbols sections symbols)).length =
        (exportedSymbols sections symbols).length + (externalSymbols sections symbols).length := by
    rw [records, List.length_append, List.length_map, List.length_map]
  obtain ⟨hsizecode, hsizedata, hsizebss⟩ := h.sizes
  obtain ⟨hexternals, hlocals, hpointers, hsymbols⟩ := h.counts
  refine ⟨?_, hsizedata, hsizebss, ?_, ?_, ?_, hsymbols, ?_, ?_, ?_, h.records⟩
  · simp only [imageOf]
    omega
  · simpa only [imageOf, List.length_map] using hexternals
  · simpa only [imageOf, List.length_map] using hlocals
  · simpa only [imageOf, List.length_map] using hpointers
  · simp only [imageOf, hrecords]
    omega
  · intro entry hm
    obtain ⟨external, hu, rfl⟩ := List.mem_map.mp hm
    obtain ⟨found, hfound, _⟩ := position_spec
      (@external_found sections _ _ _ (hx.externals _ (mem_of_mem_unique hu)))
    have hposition := (List.getElem?_eq_some_iff.mp hfound).1
    simp only [imageOf, hrecords]
    omega
  · intro entry hm
    obtain ⟨entries, he, _⟩ := h.locals
    rw [← relocationTable_imageOf hx h he] at hm
    exact relocationTable_lt h he hm

theorem bytes_imageOf {entries : List (Int × Int)}
    (he : extracted.locals.mapM (localEntry sections.indices sections.code.data.length) =
      .ok entries) :
    fileTables api sections symbols relocations extracted entries =
      (imageOf api sections symbols relocations extracted patched).tables := by
  rw [fileTables_eq h, relocationTable_imageOf hx h he]
  rfl

end Image

-- Each table of the file is the one of the image.
theorem generated_of_ok
    (hexported : ∀ relocation ∈ relocations, ∀ symbol,
      Got (processedSymbols symbols) relocation symbol → localization symbol ≠ .exported)
    (h : generateImage api sections symbols relocations = .ok bytes) :
    ∃ extracted patched, Extracts (processedSymbols symbols) relocations extracted ∧
      Generated api sections symbols relocations extracted patched ∧
        (imageOf api sections symbols relocations extracted patched).Fits ∧
          bytes = (imageOf api sections symbols relocations extracted patched).bytes := by
  obtain ⟨extracted, patched, hg, entries, he, rfl⟩ := generateImage_eq_ok h
  have hx := extracts_of_ok hexported hg.extractRelocations_eq
  refine ⟨extracted, patched, hx, hg, fits_imageOf hx hg, ?_⟩
  rw [bytes_imageOf hx hg he, Image.bytes, List.append_assoc, List.append_assoc]
  rfl

end Tables

end Msos.Scripts
