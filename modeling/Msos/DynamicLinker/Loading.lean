import Msos.DynamicLinker
import Msos.ModuleFile

namespace Msos

open Msos.Library Msos.Library.Memory
open DynamicLinker ModuleHeader

section Passes

-- A pass over a table writes the words of its entries one after the other, as
-- long as no write touches the table.
theorem overRelocations_eq_writeAll {State : Type} (lift : Memory → State) (Inv : Memory → Prop)
    {body : Nat → State → State} {base address : Nat}
    {writes : List (Nat × Nat)} (hend : address + sizeofRelocation * writes.length < 2 ^ 32)
    (hbody : ∀ k (hk : k < writes.length) memory, Inv memory →
      body (address + sizeofRelocation * k) (lift memory) =
        lift (memory.writeWord (base + 4 * writes[k].1) writes[k].2))
    (hinv : ∀ write ∈ writes, ∀ memory, Inv memory →
      Inv (memory.writeWord (base + 4 * write.1) write.2))
    {memory : Memory} (h : Inv memory) :
    overRelocations body address writes.length (lift memory) =
      lift (writeAll base memory writes) := by
  induction writes generalizing address memory with
  | nil => rfl
  | cons write rest ih =>
      simp only [List.length_cons, sizeofRelocation] at hend hbody
      have hfirst := hbody 0 (by omega) memory h
      have hnext : wrap (address + 8) = address + 8 := Nat.mod_eq_of_lt (by omega)
      have hafter := hinv write List.mem_cons_self memory h
      simp only [Nat.mul_zero, Nat.add_zero, List.getElem_cons_zero] at hfirst
      rw [List.length_cons, overRelocations, hfirst, sizeofRelocation, hnext]
      refine ih (by simp only [sizeofRelocation]; omega) ?_ ?_ hafter
      · intro k hk memory hm
        have hbodyk := hbody (k + 1) (by omega) memory hm
        rw [List.getElem_cons_succ,
          show address + 8 * (k + 1) = address + 8 + 8 * k by ring] at hbodyk
        exact hbodyk
      · exact fun other hm => hinv other (List.mem_cons_of_mem _ hm)

end Passes

namespace Image

variable (image : Image)

def symbolCode (position : Nat) : Nat :=
  (image.symbols[position]?.map ModuleSymbol.code).getD 0

def slots : Nat := image.externals.length + image.locals.length

-- Every relocation of the lookup table has a slot in it.
def Slotted : Prop :=
  (∀ external ∈ image.externals, external.1 < image.slots) ∧
    ∀ local_ ∈ image.locals, local_.1 >>> 1 < image.slots

def externalWrites (entries : List SymbolEntry) : List (Nat × Nat) :=
  image.externals.map fun external => (external.1,
    ((findEntry entries (image.symbolCode external.2)).map SymbolEntry.address).getD 0)

def localWrites (text data : Nat) : List (Nat × Nat) :=
  image.locals.map fun local_ => (local_.1 >>> 1,
    wrap ((if local_.1 &&& 0x01 = 0 then text else data) + local_.2))

-- The entries that the loader takes for the relocations of the data.
def dataTable : List (Nat × Nat) := (image.locals ++ image.pointers).take image.pointers.length

def dataWrites (data : Nat) : List (Nat × Nat) :=
  image.dataTable.map fun entry => (entry.1, wrap (data + entry.2))

theorem length_dataTable : image.dataTable.length = image.pointers.length := by
  rw [dataTable, List.length_take, List.length_append]
  omega

variable {image}

theorem Slotted.externalWrites_lt (h : image.Slotted) (entries : List SymbolEntry) :
    ∀ write ∈ image.externalWrites entries, write.1 < image.slots := by
  intro write hw
  obtain ⟨external, hm, he⟩ := List.mem_map.mp hw
  rw [← he]
  exact h.1 external hm

theorem Slotted.localWrites_lt (h : image.Slotted) (text data : Nat) :
    ∀ write ∈ image.localWrites text data, write.1 < image.slots := by
  intro write hw
  obtain ⟨local_, hm, he⟩ := List.mem_map.mp hw
  rw [← he]
  exact h.2 local_ hm

end Image

def Apart (first second : Nat × Nat) : Prop :=
  first.1 + first.2 ≤ second.1 ∨ second.1 + second.2 ≤ first.1

instance (first second : Nat × Nat) : Decidable (Apart first second) :=
  inferInstanceAs (Decidable (_ ∨ _))

-- A call of load_module and the memory that it meets.
structure Load where
  memory : Memory
  header : Nat
  mode : Nat
  entries : List SymbolEntry
  allocations : Allocations

namespace Load

section Definitions

variable (load : Load)

def outcome (linker : DynamicLinker) : Outcome :=
  linker.loadModule load.memory load.header load.mode load.entries load.allocations

-- The blocks that the load allocates, with their sizes.
def allocated : List (Nat × Nat) :=
  (if copiesText load.mode then [(load.allocations.text, codeSize load.memory load.header)] else []) ++
    [(load.allocations.data, dataSize load.memory load.header + bssSize load.memory load.header),
      (load.allocations.lot, 4 * (numberOfExternalRelocations load.memory load.header +
        numberOfLocalRelocations load.memory load.header))]

-- The file lies in memory, and no allocation fails or overlaps it or another
-- one.
structure Valid (file : List UInt8) : Prop where
  holds : Holds load.memory load.header file
  succeeds : ∀ block ∈ load.allocated, block.1 ≠ 0
  inSpace : ∀ block ∈ (load.header, file.length) :: load.allocated, block.1 + block.2 < 2 ^ 32
  apart : ((load.header, file.length) :: load.allocated).Pairwise Apart

instance (file : List UInt8) : Decidable (load.Valid file) :=
  decidable_of_iff
    (Holds load.memory load.header file ∧ (∀ block ∈ load.allocated, block.1 ≠ 0) ∧
      (∀ block ∈ (load.header, file.length) :: load.allocated, block.1 + block.2 < 2 ^ 32) ∧
        ((load.header, file.length) :: load.allocated).Pairwise Apart)
    ⟨fun h => ⟨h.1, h.2.1, h.2.2.1, h.2.2.2⟩,
      fun h => ⟨h.holds, h.succeeds, h.inSpace, h.apart⟩⟩

def text : Nat := (placeText load.memory load.header load.mode load.allocations).1

def withText : Memory := (placeText load.memory load.header load.mode load.allocations).2

def placed : Memory :=
  placeData load.withText load.header load.allocations.data (dataAddress load.memory load.header)

-- The record of the loaded module
def record (start : Option Nat) : LoadedModule where
  header := load.header
  text := some load.text
  data := some load.allocations.data
  lot := load.allocations.lot
  startAddress := start

-- The load succeeds, with a pointer to the record and the memory it leaves.
def Returns (linker : DynamicLinker) (module : LoadedModule) (memory : Memory) : Prop :=
  ∃ pointer, (load.outcome linker).result = .ok pointer ∧
    (load.outcome linker).linker.modules.get? pointer = some module ∧
      (load.outcome linker).memory = memory

-- The memory once every relocation is done.
def relocated (image : Image) : Memory :=
  writeAll load.allocations.data
    (writeAll load.allocations.lot load.placed (image.externalWrites load.entries ++
      image.localWrites load.text load.allocations.data))
    (image.dataWrites load.allocations.data)

end Definitions

-- The blocks of a load of an image, side by side.
structure Laid (load : Load) (image : Image) : Prop where
  stored : Image.Stored load.memory load.header image
  data_ne : load.allocations.data ≠ 0
  lot_ne : load.allocations.lot ≠ 0
  text_ne : copiesText load.mode → load.allocations.text ≠ 0
  data_lt : load.allocations.data + (image.data.length + image.bssSize) < 2 ^ 32
  lot_lt : load.allocations.lot + 4 * image.slots < 2 ^ 32
  image_text : copiesText load.mode →
    Apart (load.header, image.bytes.length) (load.allocations.text, image.code.length)
  image_data : Apart (load.header, image.bytes.length)
    (load.allocations.data, image.data.length + image.bssSize)
  image_lot : Apart (load.header, image.bytes.length) (load.allocations.lot, 4 * image.slots)
  text_data : copiesText load.mode → Apart (load.allocations.text, image.code.length)
    (load.allocations.data, image.data.length + image.bssSize)
  text_lot : copiesText load.mode →
    Apart (load.allocations.text, image.code.length) (load.allocations.lot, 4 * image.slots)
  data_lot : Apart (load.allocations.data, image.data.length + image.bssSize)
    (load.allocations.lot, 4 * image.slots)

variable {load : Load} {image : Image}

section Layout

theorem Valid.stored (h : load.Valid image.bytes) (hf : image.Fits) :
    Image.Stored load.memory load.header image :=
  ⟨h.holds, hf, h.inSpace _ List.mem_cons_self⟩

theorem text_of_copies (hc : copiesText load.mode) : load.text = load.allocations.text := by
  rw [text, placeText, if_pos hc]

theorem text_in_place (hs : Image.Stored load.memory load.header image)
    (hc : ¬copiesText load.mode) :
    load.text = wrap (load.header + image.loadedOffset (load.header % 16)) := by
  rw [text, placeText, if_neg hc]
  exact hs.codeAddress

theorem Valid.laid (h : load.Valid image.bytes) (hf : image.Fits) : load.Laid image := by
  have hs := h.stored hf
  have hsucceeds := h.succeeds
  have hspace := h.inSpace
  have hapart := h.apart
  simp only [allocated, hs.codeSize, hs.dataSize, hs.bssSize, hs.numberOfExternalRelocations,
    hs.numberOfLocalRelocations] at hsucceeds hspace hapart
  by_cases hc : copiesText load.mode
  · simp only [hc, ite_true, List.singleton_append, List.forall_mem_cons, List.pairwise_cons,
      List.not_mem_nil, IsEmpty.forall_iff, implies_true, and_true] at hsucceeds hspace hapart
    obtain ⟨⟨himagetext, himagedata, himagelot⟩, ⟨htextdata, htextlot⟩, hdatalot, -⟩ := hapart
    exact ⟨hs, hsucceeds.2.1, hsucceeds.2.2, fun _ => hsucceeds.1, hspace.2.2.1, hspace.2.2.2,
      fun _ => himagetext, himagedata, himagelot, fun _ => htextdata, fun _ => htextlot, hdatalot⟩
  · simp only [hc, ite_false, List.nil_append, List.forall_mem_cons, List.pairwise_cons,
      List.not_mem_nil, IsEmpty.forall_iff, implies_true, and_true] at hsucceeds hspace hapart
    obtain ⟨⟨himagedata, himagelot⟩, hdatalot, -⟩ := hapart
    exact ⟨hs, hsucceeds.1, hsucceeds.2, fun h => absurd h hc, hspace.2.1, hspace.2.2,
      fun h => absurd h hc, himagedata, himagelot, fun h => absurd h hc, fun h => absurd h hc,
      hdatalot⟩

end Layout

section Placing

theorem withText_copied (hc : copiesText load.mode) : load.withText =
    load.memory.store load.allocations.text
      (load.memory.bytes (codeAddress load.memory load.header)
        (codeSize load.memory load.header)) := by
  rw [Load.withText, placeText, if_pos hc, Memory.copy]

theorem withText_in_place (hc : ¬copiesText load.mode) : load.withText = load.memory := by
  rw [Load.withText, placeText, if_neg hc]

theorem agree_withText {address size : Nat} (ha : copiesText load.mode →
      Apart (address, size) (load.allocations.text, codeSize load.memory load.header)) :
    Agree load.memory load.withText address size := by
  by_cases hc : copiesText load.mode
  · rw [withText_copied hc]
    apply agree_store
    rw [length_bytes]
    exact ha hc
  · rw [withText_in_place hc]
    exact fun _ _ _ => rfl

-- The data as it is copied, with zeros behind it: the header is read again
-- once the data lies there.
theorem placed_eq_of_holds {file : ModuleFile}
    (h : Holds load.withText load.header file.bytes)
    (hlt : load.allocations.data + (file.dataSize + file.bssSize) < 2 ^ 32)
    (ha : Apart (load.header, file.bytes.length)
      (load.allocations.data, file.dataSize + file.bssSize)) :
    load.placed = (load.withText.store load.allocations.data
      (load.withText.bytes (dataAddress load.memory load.header) file.dataSize)).store
        (load.allocations.data + file.dataSize) (List.replicate file.bssSize 0) := by
  have hcopied : Holds (load.withText.store load.allocations.data
      (load.withText.bytes (dataAddress load.memory load.header) file.dataSize))
        load.header file.bytes := by
    apply h.of_agree
    apply agree_store
    simp only [Apart] at ha
    rw [length_bytes]
    omega
  have hwrap : wrap (load.allocations.data + file.dataSize) =
      load.allocations.data + file.dataSize := Nat.mod_eq_of_lt (by omega)
  simp only [Load.placed, placeData, Memory.copy]
  rw [ModuleFile.dataSize_of_holds h, ModuleFile.dataSize_of_holds hcopied,
    ModuleFile.bssSize_of_holds hcopied, hwrap, Memory.fill]

variable (h : load.Laid image)
include h

theorem Laid.withText_eq (hc : copiesText load.mode) : load.withText =
    load.memory.store load.allocations.text
      (load.memory.bytes (codeAddress load.memory load.header) image.code.length) := by
  rw [withText_copied hc, h.stored.codeSize]

theorem Laid.withText : Image.Stored load.withText load.header image := by
  refine h.stored.of_agree (agree_withText fun hc => ?_)
  rw [h.stored.codeSize]
  exact h.image_text hc

theorem Laid.placed_eq : load.placed = (load.withText.store load.allocations.data
      (load.withText.bytes (dataAddress load.memory load.header) image.data.length)).store
        (load.allocations.data + image.data.length) (List.replicate image.bssSize 0) := by
  obtain ⟨_, hdata, hbss⟩ := ModuleFile.sizes_ofImage h.stored.fits
  have hplaced := @placed_eq_of_holds load (ModuleFile.ofImage image) h.withText.holds
  rw [hdata, hbss] at hplaced
  exact hplaced h.data_lt h.image_data

theorem Laid.agree_placed {address size : Nat}
    (ha : Apart (address, size) (load.allocations.data, image.data.length + image.bssSize)) :
    Agree load.withText load.placed address size := by
  simp only [Apart] at ha
  rw [h.placed_eq]
  refine Agree.trans (agree_store ?_) (agree_store ?_)
  · rw [length_bytes]
    omega
  · rw [List.length_replicate]
    omega

theorem Laid.placed : Image.Stored load.placed load.header image :=
  h.withText.of_agree (h.agree_placed h.image_data)

-- The data is copied from behind the code, wherever the loader takes that to be.
theorem Laid.placed_data {i : Nat} (hi : i < image.data.length) :
    load.placed (load.allocations.data + i) =
      load.withText (dataAddress load.memory load.header + i) := by
  have hcopied : Holds load.placed load.allocations.data
      (load.withText.bytes (dataAddress load.memory load.header) image.data.length) := by
    rw [h.placed_eq]
    refine (holds_store _ _).of_agree (agree_store (Or.inl ?_))
    rw [length_bytes]
  rw [hcopied.getElem (by rwa [length_bytes]), getElem_bytes]

theorem Laid.placed_byte {i : Nat} (hi : i < image.data.length) {byte : UInt8}
    (hb : image.loadedByte (load.header % 16) i = some byte) :
    load.placed (load.allocations.data + i) = byte := by
  have hbelow := h.stored.below
  obtain ⟨hlt, hbyte⟩ := List.getElem?_eq_some_iff.mp hb
  have hsource : dataAddress load.memory load.header + i =
      load.header + (image.loadedOffset (load.header % 16) + image.code.length + i) := by
    rw [h.stored.dataAddress, wrap, Nat.mod_eq_of_lt (by omega)]
    omega
  rw [h.placed_data hi, hsource, h.withText.holds.getElem hlt]
  exact hbyte

end Placing

section Whole

-- At an aligned address, with one exported symbol
variable (h : load.Laid image) (ha : load.header % 16 = 0)
  (hone : image.symbols.length = image.externalSymbols + 1)
include h ha hone

theorem Laid.text_of_in_place (hc : ¬copiesText load.mode) :
    load.text = load.header + image.codeOffset := by
  have hbelow := h.stored.below
  have hbytes := Image.length_bytes image
  rw [text_in_place h.stored hc, ha, Image.loadedOffset_eq image hone]
  exact Nat.mod_eq_of_lt (by omega)

theorem Laid.text_apart {block : Nat × Nat} (himage : Apart (load.header, image.bytes.length) block)
    (htext : copiesText load.mode → Apart (load.allocations.text, image.code.length) block) :
    Apart (load.text, image.code.length) block := by
  have hbytes := Image.length_bytes image
  by_cases hc : copiesText load.mode
  · rw [text_of_copies hc]
    exact htext hc
  · have ht := h.text_of_in_place ha hone hc
    simp only [Apart, ht] at himage ⊢
    omega

theorem Laid.text_holds : Holds load.withText load.text image.code := by
  have hbelow := h.stored.below
  have hbytes := Image.length_bytes image
  have hcode : codeAddress load.memory load.header = load.header + image.codeOffset := by
    rw [h.stored.codeAddress, ha, Image.loadedOffset_eq image hone]
    exact Nat.mod_eq_of_lt (by omega)
  by_cases hc : copiesText load.mode
  · have hcontents : load.memory.bytes (codeAddress load.memory load.header) image.code.length =
        image.code := by
      rw [hcode]
      exact h.stored.code
    rw [h.withText_eq hc, hcontents, text_of_copies hc]
    exact holds_store _ _
  · rw [Load.withText, placeText, if_neg hc, h.text_of_in_place ha hone hc]
    exact h.stored.code

theorem Laid.placed_text : Holds load.placed load.text image.code :=
  (h.text_holds ha hone).of_agree (h.agree_placed (h.text_apart ha hone h.image_data h.text_data))

end Whole

section Passes

-- The entries behind the external ones
theorem later_relocation {memory : Memory} {address : Nat}
    (hs : Image.Stored memory address image) {k : Nat}
    (hk : k < (image.locals ++ image.pointers).length) :
    Relocation.index memory (address + sizeofModuleHeader +
        sizeofRelocation * image.externals.length + sizeofRelocation * k) =
          ((image.locals ++ image.pointers)[k]).1 ∧
      Relocation.offset memory (address + sizeofModuleHeader +
        sizeofRelocation * image.externals.length + sizeofRelocation * k) =
          ((image.locals ++ image.pointers)[k]).2 := by
  have hexternals := image.length_externalEntries
  have hentries : image.entries = image.externalEntries ++ (image.locals ++ image.pointers) :=
    List.append_assoc ..
  have hlength : image.externals.length + k < image.entries.length := by
    rw [hentries, List.length_append]
    omega
  have hentry : image.entries[image.externals.length + k] = (image.locals ++ image.pointers)[k] := by
    simp only [hentries]
    rw [List.getElem_append_right (by omega)]
    congr 1
    omega
  have hrelocation := hs.relocation hlength
  rw [hentry, Nat.mul_add, ← Nat.add_assoc] at hrelocation
  exact hrelocation

variable (h : load.Laid image)
include h

-- A word of the lookup table does not touch the image.
theorem Laid.stored_writeLot {memory : Memory} (hs : Image.Stored memory load.header image)
    {slot : Nat} (hslot : slot < image.slots) (value : Nat) :
    Image.Stored (memory.writeWord (load.allocations.lot + 4 * slot) value) load.header image := by
  have himage := h.image_lot
  apply hs.of_agree
  apply agree_store
  simp only [Apart] at himage
  rw [length_encode]
  omega

theorem Laid.lotEntry_eq {slot : Nat} (hslot : slot < image.slots) :
    lotEntry load.allocations.lot slot = load.allocations.lot + 4 * slot := by
  have hlot := h.lot_lt
  exact Nat.mod_eq_of_lt (by omega)

theorem Laid.table_lt : load.header + sizeofModuleHeader +
    sizeofRelocation * image.numberOfRelocations < 2 ^ 32 := by
  have hbelow := h.stored.below
  have hbytes := Image.length_bytes image
  have hcode := Image.codeOffset_eq image
  have htables := Image.length_tables image
  omega

theorem Laid.processExternalRelocations (hslots : image.Slotted)
    (hresolved : ∀ external ∈ image.externals,
      (findEntry load.entries (image.symbolCode external.2)).isSome)
    {memory : Memory} (hs : Image.Stored memory load.header image) :
    processExternalRelocations load.entries load.header load.allocations.lot
      (relocationSectionAddress load.header) memory =
        (writeAll load.allocations.lot memory (image.externalWrites load.entries), true) := by
  have htable := h.table_lt
  have hlength : (image.externalWrites load.entries).length = image.externals.length :=
    List.length_map ..
  rw [DynamicLinker.processExternalRelocations, hs.relocationSectionAddress,
    hs.numberOfExternalRelocations, ← hlength]
  refine overRelocations_eq_writeAll (fun memory => (memory, true))
    (fun memory => Image.Stored memory load.header image) ?_ ?_ ?_ hs
  · simp only [hlength, Image.numberOfRelocations, sizeofRelocation] at htable ⊢
    omega
  · intro k hk memory hs
    rw [hlength] at hk
    have hmem : image.externals[k] ∈ image.externals := List.getElem_mem hk
    obtain ⟨entry, he⟩ := Option.isSome_iff_exists.mp (hresolved _ hmem)
    obtain ⟨hindex, hcode⟩ := hs.external hk
    have hslot := h.lotEntry_eq (hslots.1 _ hmem)
    simp only [externalRelocation, hindex, hcode, hslot]
    simp only [Image.externalWrites, List.getElem_map, Image.symbolCode] at he ⊢
    rw [he]
    rfl
  · intro write hw memory hs
    exact h.stored_writeLot hs (hslots.externalWrites_lt load.entries write hw) _

theorem Laid.localsAddress : wrap (relocationSectionAddress load.header +
    sizeofRelocation * numberOfExternalRelocations load.memory load.header) =
      load.header + sizeofModuleHeader + sizeofRelocation * image.externals.length := by
  have htable := h.table_lt
  rw [h.stored.relocationSectionAddress, h.stored.numberOfExternalRelocations]
  simp only [Image.numberOfRelocations, sizeofRelocation] at htable ⊢
  exact Nat.mod_eq_of_lt (by omega)

theorem Laid.processLocalRelocations (hslots : image.Slotted) {memory : Memory}
    (hs : Image.Stored memory load.header image) (text data : Nat) :
    processLocalRelocations load.header text data load.allocations.lot (load.header +
      sizeofModuleHeader + sizeofRelocation * image.externals.length) memory =
        writeAll load.allocations.lot memory (image.localWrites text data) := by
  have htable := h.table_lt
  have hlength : (image.localWrites text data).length = image.locals.length := List.length_map ..
  rw [DynamicLinker.processLocalRelocations, hs.numberOfLocalRelocations, ← hlength]
  refine overRelocations_eq_writeAll id (fun memory => Image.Stored memory load.header image)
    ?_ ?_ ?_ hs
  · simp only [hlength, Image.numberOfRelocations, sizeofRelocation] at htable ⊢
    omega
  · intro k hk memory hs
    rw [hlength] at hk
    have hk' : k < (image.locals ++ image.pointers).length := by
      rw [List.length_append]
      omega
    obtain ⟨hindex, hoffset⟩ := later_relocation hs hk'
    rw [List.getElem_append_left hk] at hindex hoffset
    have hslot := h.lotEntry_eq (hslots.2 _ (List.getElem_mem hk))
    simp only [localRelocation, hindex, hoffset, hslot, id, Image.localWrites, List.getElem_map]
  · intro write hw memory hs
    exact h.stored_writeLot hs (hslots.localWrites_lt text data write hw) _

-- The entries of the local relocations come again, and count as words of the
-- data.
theorem Laid.processDataRelocations
    (hinside : ∀ entry ∈ image.dataTable, 4 * entry.1 + 4 ≤ image.data.length)
    {memory : Memory} (hs : Image.Stored memory load.header image) :
    processDataRelocations load.header load.allocations.data (load.header +
      sizeofModuleHeader + sizeofRelocation * image.externals.length) memory =
        writeAll load.allocations.data memory (image.dataWrites load.allocations.data) := by
  have htable := h.table_lt
  have hdata := h.data_lt
  have himage := h.image_data
  have hlength : (image.dataWrites load.allocations.data).length = image.pointers.length := by
    rw [Image.dataWrites, List.length_map, Image.length_dataTable]
  simp only [Apart] at himage
  rw [DynamicLinker.processDataRelocations, hs.numberOfDataRelocations, ← hlength]
  refine overRelocations_eq_writeAll id (fun memory => Image.Stored memory load.header image)
    ?_ ?_ ?_ hs
  · simp only [hlength, Image.numberOfRelocations, sizeofRelocation] at htable ⊢
    omega
  · intro k hk memory hs
    rw [hlength] at hk
    have hk' : k < (image.locals ++ image.pointers).length := by
      rw [List.length_append]
      omega
    have hkt : k < image.dataTable.length := by rwa [Image.length_dataTable]
    have hentry : image.dataTable[k] = (image.locals ++ image.pointers)[k] := List.getElem_take ..
    obtain ⟨hindex, hoffset⟩ := later_relocation hs hk'
    have hin := hinside _ (List.getElem_mem hkt)
    rw [hentry] at hin
    have hword : wrap (load.allocations.data + 4 * ((image.locals ++ image.pointers)[k]).1) =
        load.allocations.data + 4 * ((image.locals ++ image.pointers)[k]).1 :=
      Nat.mod_eq_of_lt (by omega)
    simp only [dataRelocation, hindex, hoffset, id, Image.dataWrites, List.getElem_map, hentry, hword]
  · intro write hw memory hs
    obtain ⟨entry, hm, rfl⟩ := List.mem_map.mp hw
    have hin := hinside _ hm
    apply hs.of_agree
    apply agree_store
    rw [length_encode]
    omega

theorem Laid.stored_writeLots {writes : List (Nat × Nat)}
    (hslots : ∀ write ∈ writes, write.1 < image.slots)
    {memory : Memory} (hs : Image.Stored memory load.header image) :
    Image.Stored (writeAll load.allocations.lot memory writes) load.header image :=
  hs.of_agree (agree_writeAll hslots h.image_lot)

end Passes

section Outcome

variable (h : load.Laid image)
include h

-- What a load returns once every external symbol is found.
theorem Laid.fillModule (hslots : image.Slotted)
    (hresolved : ∀ external ∈ image.externals,
      (findEntry load.entries (image.symbolCode external.2)).isSome)
    (hinside : ∀ entry ∈ image.dataTable, 4 * entry.1 + 4 ≤ image.data.length) :
    ∃ start, fillModule load.memory load.header load.mode load.entries load.allocations =
      (.ok (), load.record start, load.relocated image) := by
  have hs := h.placed
  have hafter := h.stored_writeLots (hslots.externalWrites_lt load.entries) hs
  have hend := h.stored_writeLots (hslots.localWrites_lt load.text load.allocations.data) hafter
  have hplaced : placeData (placeText load.memory load.header load.mode load.allocations).2
      load.header load.allocations.data (dataAddress load.memory load.header) = load.placed := rfl
  have htext : (placeText load.memory load.header load.mode load.allocations).1 = load.text := rfl
  have hcount : numberOfExternalRelocations (writeAll load.allocations.lot load.placed
      (image.externalWrites load.entries)) load.header =
        numberOfExternalRelocations load.memory load.header := by
    rw [hafter.numberOfExternalRelocations, h.stored.numberOfExternalRelocations]
  have hfail : ¬(copiesText load.mode ∧ load.allocations.text = 0) :=
    fun hboth => h.text_ne hboth.1 hboth.2
  unfold DynamicLinker.fillModule
  simp only [hfail, h.data_ne, h.lot_ne, ite_false, hplaced, htext,
    h.processExternalRelocations hslots hresolved hs, ite_true, hcount, h.localsAddress,
    h.processLocalRelocations hslots hafter, h.processDataRelocations hinside hend, Load.relocated,
    writeAll_append]
  exact ⟨_, rfl⟩

theorem Laid.returns (hslots : image.Slotted)
    (hresolved : ∀ external ∈ image.externals,
      (findEntry load.entries (image.symbolCode external.2)).isSome)
    (hinside : ∀ entry ∈ image.dataTable, 4 * entry.1 + 4 ≤ image.data.length)
    (linker : DynamicLinker) :
    ∃ start, load.Returns linker (load.record start) (load.relocated image) := by
  obtain ⟨start, hfill⟩ := h.fillModule hslots hresolved hinside
  have hcookie := h.stored.cookie
  have houtcome : load.outcome linker =
      ⟨.ok (linker.modules.emplaceBack (load.record start) load.allocations.modules).back,
        ⟨linker.modules.emplaceBack (load.record start) load.allocations.modules⟩,
          load.relocated image⟩ := by
    simp only [outcome, loadModule, hcookie, ne_eq, not_true_eq_false, ite_false, hfill]
    rfl
  refine ⟨start, _, congrArg Outcome.result houtcome, ?_, congrArg Outcome.memory houtcome⟩
  rw [houtcome]
  exact AddressedVector.get?_back (by decide) _ _

end Outcome

section Words

theorem agree_dataWrites
    (hinside : ∀ entry ∈ image.dataTable, 4 * entry.1 + 4 ≤ image.data.length)
    {memory : Memory} {address size : Nat}
    (ha : Apart (address, size) (load.allocations.data, image.data.length + image.bssSize)) :
    Agree memory (writeAll load.allocations.data memory (image.dataWrites load.allocations.data))
      address size := by
  have hwords : ∀ write ∈ image.dataWrites load.allocations.data,
      write.1 < image.data.length / 4 := by
    intro write hw
    obtain ⟨entry, hm, he⟩ := List.mem_map.mp hw
    have hin := hinside entry hm
    rw [← he]
    omega
  apply agree_writeAll hwords
  simp only [Apart] at ha
  omega

theorem agree_lotWrites (hslots : image.Slotted) {memory : Memory} {address size : Nat}
    (ha : Apart (address, size) (load.allocations.lot, 4 * image.slots)) :
    Agree memory (writeAll load.allocations.lot memory (image.externalWrites load.entries ++
      image.localWrites load.text load.allocations.data)) address size := by
  refine agree_writeAll ?_ ha
  intro write hw
  rcases List.mem_append.mp hw with hw | hw
  · exact hslots.externalWrites_lt _ write hw
  · exact hslots.localWrites_lt _ _ write hw

theorem Laid.data_relocated (h : load.Laid image) (hslots : image.Slotted) :
    ∃ memory, Agree load.placed memory load.allocations.data image.data.length ∧
      load.relocated image =
        writeAll load.allocations.data memory (image.dataWrites load.allocations.data) := by
  have hdata : Apart (load.allocations.data, image.data.length)
      (load.allocations.lot, 4 * image.slots) := by
    have hboth := h.data_lot
    simp only [Apart] at hboth ⊢
    omega
  exact ⟨_, agree_lotWrites hslots hdata, rfl⟩

theorem Laid.readWord_data (h : load.Laid image) (hslots : image.Slotted) {i : Nat}
    (hi : 4 * i + 4 ≤ image.data.length) :
    (load.relocated image).readWord (load.allocations.data + 4 * i) =
      match lastWrite image.dataTable i with
      | some offset => wrap (load.allocations.data + offset)
      | none => load.placed.readWord (load.allocations.data + 4 * i) := by
  obtain ⟨memory, hagree, hrelocated⟩ := h.data_relocated hslots
  have hlast := lastWrite_map (fun offset => wrap (load.allocations.data + offset)) image.dataTable i
  rw [hrelocated, readWord_writeAll, Image.dataWrites, hlast]
  cases lastWrite image.dataTable i with
  | some offset => exact wrap_wrap _
  | none =>
      apply readWord_congr
      intro b hb
      exact hagree _ (by omega) (by omega)

theorem Laid.data_byte (h : load.Laid image) (hslots : image.Slotted) {i : Nat}
    (hi : i < image.data.length)
    (hout : ∀ entry ∈ image.dataTable, i < 4 * entry.1 ∨ 4 * entry.1 + 4 ≤ i) :
    load.relocated image (load.allocations.data + i) = load.placed (load.allocations.data + i) := by
  obtain ⟨memory, hagree, hrelocated⟩ := h.data_relocated hslots
  rw [hrelocated, writeAll_outside, hagree _ (by omega) (by omega)]
  intro write hw
  obtain ⟨entry, hm, he⟩ := List.mem_map.mp hw
  have hentry := hout entry hm
  rw [← he]
  omega

variable (h : load.Laid image)
  (hinside : ∀ entry ∈ image.dataTable, 4 * entry.1 + 4 ≤ image.data.length)
include h hinside

theorem Laid.text_relocated (ha : load.header % 16 = 0)
    (hone : image.symbols.length = image.externalSymbols + 1) (hslots : image.Slotted) :
    Holds (load.relocated image) load.text image.code :=
  (h.placed_text ha hone).of_agree ((agree_lotWrites hslots
    (h.text_apart ha hone h.image_lot h.text_lot)).trans
      (agree_dataWrites hinside (h.text_apart ha hone h.image_data h.text_data)))

-- The word of a slot that one relocation has
theorem Laid.readWord_lot (hnodup : ((image.externalWrites load.entries ++
      image.localWrites load.text load.allocations.data).map Prod.fst).Nodup)
    {write : Nat × Nat} (hw : write ∈ image.externalWrites load.entries ++
      image.localWrites load.text load.allocations.data) (hslot : write.1 < image.slots) :
    (load.relocated image).readWord (load.allocations.lot + 4 * write.1) = wrap write.2 := by
  have hapart : Apart (load.allocations.lot + 4 * write.1, 4)
      (load.allocations.data, image.data.length + image.bssSize) := by
    have hdata := h.data_lot
    simp only [Apart] at hdata ⊢
    omega
  have hread := @readWord_writeAll load.allocations.lot load.placed
    (image.externalWrites load.entries ++ image.localWrites load.text load.allocations.data) write.1
  rw [lastWrite_of_nodup hnodup hw] at hread
  refine Eq.trans ?_ hread
  apply readWord_congr
  intro i hi
  exact agree_dataWrites hinside hapart _ (by omega) (by omega)

end Words

end Load

end Msos
