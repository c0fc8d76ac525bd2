import Msos.DynamicLinker.Placing

namespace Msos.Load

open Msos.Library Msos.Library.Memory
open DynamicLinker ModuleHeader

section Definitions

variable (load : Load)

def withEntries (entries : List SymbolEntry) : Load := { load with entries := entries }

def externals : Nat := numberOfExternalRelocations load.memory load.header

def locals : Nat := numberOfLocalRelocations load.memory load.header

def pointers : Nat := numberOfDataRelocations load.memory load.header

-- The entries of the relocation tables, one behind the other
def relocation (k : Nat) : Nat := load.header + sizeofModuleHeader + sizeofRelocation * k

def externalSlot (k : Nat) : Nat := Relocation.index load.memory (load.relocation k)

def externalSymbol (k : Nat) : Nat := Relocation.symbol load.memory (load.relocation k)

def externalCode (k : Nat) : Nat := Symbol.code load.memory (load.externalSymbol k)

def localSlot (k : Nat) : Nat :=
  Relocation.index load.memory (load.relocation (load.externals + k)) >>> 1

def lotIndices : List Nat :=
  (List.range load.externals).map load.externalSlot ++ (List.range load.locals).map load.localSlot

-- The tables and the symbols that they refer to lie in the file, and each
-- relocation of the lookup table has a slot of its own.
structure WellFormed (bytes : List UInt8) : Prop where
  valid : load.Valid bytes
  tables : sizeofModuleHeader + sizeofRelocation * numberOfRelocations load.memory load.header +
    sizeofSymbol * numberOfSymbols load.memory load.header ≤ bytes.length
  symbols : ∀ k < load.externals, load.header ≤ load.externalSymbol k ∧
    load.externalSymbol k + sizeofSymbol ≤ load.header + bytes.length
  nodup : load.lotIndices.Nodup
  below : ∀ index ∈ load.lotIndices, index < load.externals + load.locals

-- Every symbol that an external relocation refers to is in the environment.
def Bindable (entries : List SymbolEntry) : Prop :=
  ∀ k < load.externals, ∃ entry ∈ entries, entry.code = load.externalCode k

-- The first entry with a code
def IsFirst (entries : List SymbolEntry) (code : Nat) (entry : SymbolEntry) : Prop :=
  ∃ before after, entries = before ++ entry :: after ∧ entry.code = code ∧
    ∀ other ∈ before, other.code ≠ code

-- What load_module promises of an image in every environment.
structure Binds (linker : DynamicLinker) : Prop where
  returns : ∀ entries, cookie load.memory load.header = expectedCookie → load.Bindable entries →
    ∃ module memory, (load.withEntries entries).Returns linker module memory
  returns_only : ∀ entries pointer,
    ((load.withEntries entries).outcome linker).result = .ok pointer →
      cookie load.memory load.header = expectedCookie ∧ load.Bindable entries
  cookieValidationFailure : ∀ entries, cookie load.memory load.header ≠ expectedCookie →
    ((load.withEntries entries).outcome linker).result = .error .cookieValidationFailure
  externalRelocationFailure : ∀ entries, cookie load.memory load.header = expectedCookie →
    ¬load.Bindable entries →
      ((load.withEntries entries).outcome linker).result = .error .externalRelocationFailure
  addresses : ∀ entries module memory, (load.withEntries entries).Returns linker module memory →
    ∀ k < load.externals, ∃ entry, IsFirst entries (load.externalCode k) entry ∧
      memory.readWord (module.lot + 4 * load.externalSlot k) = wrap entry.address
  reordered : ∀ entries others, others.Perm entries → (entries.map SymbolEntry.code).Nodup →
    (load.withEntries others).outcome linker = (load.withEntries entries).outcome linker

-- No round of a pass of process_data_relocations writes into a block.
def PassSpares (data : Nat) (block : Nat × Nat) : Nat → Nat → Memory → Prop
  | _, 0, _ => True
  | address, count + 1, memory =>
      Apart (wrap (data + 4 * Relocation.index memory address), 4) block ∧
        PassSpares data block (wrap (address + sizeofRelocation)) count
          (dataRelocation data address memory)

-- The pass over as many entries as there are data relocations, from the local
-- ones on, spares the slots of the external relocations.
def Spares : Prop :=
  ∀ k < load.externals, PassSpares load.allocations.data
    (load.allocations.lot + 4 * load.externalSlot k, 4) (load.relocation load.externals)
    load.pointers load.memory

end Definitions

section Environment

variable {entries others : List SymbolEntry} {code : Nat} {entry : SymbolEntry}

theorem isFirst_iff : IsFirst entries code entry ↔ findEntry entries code = some entry := by
  rw [findEntry, List.find?_eq_some_iff_append]
  constructor
  · rintro ⟨before, after, rfl, hcode, hbefore⟩
    exact ⟨by simpa using hcode, before, after, rfl, by simpa using hbefore⟩
  · rintro ⟨hcode, before, after, rfl, hbefore⟩
    exact ⟨before, after, rfl, by simpa using hcode, by simpa using hbefore⟩

theorem isSome_findEntry_iff :
    (findEntry entries code).isSome ↔ ∃ entry ∈ entries, entry.code = code := by
  simp [findEntry, List.find?_isSome]

theorem findEntry_eq_some_iff (hn : (entries.map SymbolEntry.code).Nodup) :
    findEntry entries code = some entry ↔ entry ∈ entries ∧ entry.code = code := by
  constructor
  · intro h
    exact ⟨List.mem_of_find?_eq_some h, by simpa using List.find?_some h⟩
  · rintro ⟨hmem, hcode⟩
    obtain ⟨found, hfound⟩ := Option.isSome_iff_exists.mp
      (isSome_findEntry_iff.mpr ⟨entry, hmem, hcode⟩)
    have hsame : found.code = entry.code := by
      rw [hcode]
      simpa using List.find?_some hfound
    rw [List.inj_on_of_nodup_map hn (List.mem_of_find?_eq_some hfound) hmem hsame] at hfound
    exact hfound

theorem findEntry_perm (hp : others.Perm entries) (hn : (entries.map SymbolEntry.code).Nodup)
    (code : Nat) : findEntry others code = findEntry entries code := by
  have hother : (others.map SymbolEntry.code).Nodup := (hp.map _).nodup_iff.mpr hn
  ext entry
  rw [findEntry_eq_some_iff hother, findEntry_eq_some_iff hn, hp.mem_iff]

-- An environment is read through find_symbol only.
theorem externalRelocation_congr (h : ∀ code, findEntry others code = findEntry entries code) :
    externalRelocation others = externalRelocation entries := by
  funext lot address state
  simp only [externalRelocation, h]

theorem processExternalRelocations_congr
    (h : ∀ code, findEntry others code = findEntry entries code) :
    DynamicLinker.processExternalRelocations others =
      DynamicLinker.processExternalRelocations entries := by
  funext header lot address memory
  rw [DynamicLinker.processExternalRelocations, externalRelocation_congr h]
  rfl

theorem outcome_congr (load : Load) (h : ∀ code, findEntry others code = findEntry entries code)
    (linker : DynamicLinker) :
    (load.withEntries others).outcome linker = (load.withEntries entries).outcome linker := by
  have hfill : DynamicLinker.fillModule load.memory load.header load.mode others load.allocations =
      DynamicLinker.fillModule load.memory load.header load.mode entries load.allocations := by
    unfold DynamicLinker.fillModule
    rw [processExternalRelocations_congr h]
  change linker.loadModule load.memory load.header load.mode others load.allocations =
    linker.loadModule load.memory load.header load.mode entries load.allocations
  rw [loadModule, loadModule, hfill]

end Environment

section Tables

variable {load : Load} {bytes : List UInt8} {memory other : Memory} {k : Nat}

theorem relocation_succ (h : load.relocation (k + 1) < 2 ^ 32) :
    wrap (load.relocation k + sizeofRelocation) = load.relocation (k + 1) := by
  have hsucc : load.relocation k + sizeofRelocation = load.relocation (k + 1) := by
    simp only [relocation, Nat.mul_add, Nat.mul_one, Nat.add_assoc]
  rw [hsucc]
  exact Nat.mod_eq_of_lt h

-- A pass goes through the entries of the tables by their positions.
theorem overRelocations_eq_foldl {State : Type} (body : Nat → State → State) {first count : Nat}
    (hend : load.relocation (first + count) < 2 ^ 32) (state : State) :
    overRelocations body (load.relocation first) count state =
      (List.range' first count).foldl (fun state k => body (load.relocation k) state) state := by
  induction count generalizing first state with
  | zero => rfl
  | succ count ih =>
      have hnext : first + (count + 1) = first + 1 + count := by omega
      have hlt : load.relocation (first + 1) < 2 ^ 32 := by
        simp only [relocation, sizeofRelocation] at hend ⊢
        omega
      rw [overRelocations, relocation_succ hlt, ih (hnext ▸ hend), List.range'_succ,
        List.foldl_cons]

theorem WellFormed.relocation_le (h : load.WellFormed bytes)
    (hk : k ≤ load.externals + load.locals + load.pointers) :
    load.relocation k ≤ load.header + bytes.length := by
  have htables := h.tables
  have hcount : numberOfRelocations load.memory load.header =
      load.externals + load.locals + load.pointers := rfl
  rw [hcount] at htables
  simp only [relocation, sizeofRelocation] at htables ⊢
  omega

theorem WellFormed.relocation_lt (h : load.WellFormed bytes)
    (hk : k ≤ load.externals + load.locals + load.pointers) : load.relocation k < 2 ^ 32 :=
  (h.relocation_le hk).trans_lt h.valid.below

-- The words of an entry are the ones of the file while that is not written.
theorem WellFormed.index_eq (h : load.WellFormed bytes)
    (ha : Agree memory other load.header bytes.length)
    (hk : k < load.externals + load.locals + load.pointers) :
    Relocation.index other (load.relocation k) = Relocation.index memory (load.relocation k) ∧
      Relocation.offset other (load.relocation k) =
        Relocation.offset memory (load.relocation k) := by
  have hnext := h.relocation_le (show k + 1 ≤ _ from hk)
  simp only [relocation, sizeofRelocation] at hnext
  refine ⟨ha.readWord ?_ ?_, ha.readWord ?_ ?_⟩ <;>
    simp only [relocation, sizeofRelocation] <;> omega

theorem WellFormed.length_le (h : load.WellFormed bytes) : sizeofModuleHeader ≤ bytes.length := by
  have htables := h.tables
  omega

theorem WellFormed.code_eq (h : load.WellFormed bytes)
    (ha : Agree load.memory other load.header bytes.length) (hk : k < load.externals) :
    Symbol.code other (Relocation.symbol other (load.relocation k)) = load.externalCode k := by
  obtain ⟨-, hoffset⟩ := h.index_eq ha (show k < _ + _ + _ by omega)
  have hsymbol : Relocation.symbol other (load.relocation k) = load.externalSymbol k := by
    rw [Relocation.symbol, hoffset]
    rfl
  obtain ⟨hl, hu⟩ := h.symbols k hk
  simp only [sizeofSymbol] at hu
  rw [hsymbol]
  exact ha.readWord (by omega) (by omega)

end Tables

section Slots

variable {load : Load} {bytes : List UInt8} {memory : Memory} {k : Nat}

theorem Valid.lot_lt (h : load.Valid bytes) :
    load.allocations.lot + 4 * (load.externals + load.locals) < 2 ^ 32 := by
  refine h.inSpace (load.allocations.lot, _) (List.mem_cons_of_mem _ (List.mem_append_right _ ?_))
  exact List.mem_cons_of_mem _ List.mem_cons_self

theorem Valid.file_lot (h : load.Valid bytes) : Apart (load.header, bytes.length)
    (load.allocations.lot, 4 * (load.externals + load.locals)) := by
  refine (List.pairwise_cons.mp h.apart).1 _ (List.mem_append_right _ ?_)
  exact List.mem_cons_of_mem _ List.mem_cons_self

theorem WellFormed.externalSlot_lt (h : load.WellFormed bytes) (hk : k < load.externals) :
    load.externalSlot k < load.externals + load.locals :=
  h.below _ (List.mem_append_left _ (List.mem_map_of_mem (List.mem_range.mpr hk)))

theorem WellFormed.localSlot_lt (h : load.WellFormed bytes) (hk : k < load.locals) :
    load.localSlot k < load.externals + load.locals :=
  h.below _ (List.mem_append_right _ (List.mem_map_of_mem (List.mem_range.mpr hk)))

theorem WellFormed.lotEntry_eq (h : load.WellFormed bytes) {slot : Nat}
    (hs : slot < load.externals + load.locals) :
    lotEntry load.allocations.lot slot = load.allocations.lot + 4 * slot := by
  have hlot := h.valid.lot_lt
  exact Nat.mod_eq_of_lt (by omega)

-- A word of the lookup table does not touch the file.
theorem WellFormed.agree_writeLot (h : load.WellFormed bytes)
    (ha : Agree load.memory memory load.header bytes.length) {slot : Nat}
    (hs : slot < load.externals + load.locals) (value : Nat) :
    Agree load.memory (memory.writeWord (load.allocations.lot + 4 * slot) value) load.header
      bytes.length := by
  have hapart := h.valid.file_lot
  refine ha.trans (agree_store ?_)
  simp only [Apart] at hapart
  rw [length_encode]
  omega

end Slots

section External

variable (load : Load) (entries : List SymbolEntry)

def externalWrites (ks : List Nat) : List (Nat × Nat) :=
  ks.filterMap fun k => (findEntry entries (load.externalCode k)).map fun entry =>
    (load.externalSlot k, entry.address)

variable {load} {entries} {bytes : List UInt8} {memory : Memory}

-- Each symbol that is found goes into its slot; one that is not found ends in
-- a failure, and the pass goes on.
theorem WellFormed.externalPass (h : load.WellFormed bytes) {ks : List Nat}
    (hks : ∀ k ∈ ks, k < load.externals) (status : Bool)
    (ha : Agree load.memory memory load.header bytes.length) :
    ks.foldl (fun state k =>
        externalRelocation entries load.allocations.lot (load.relocation k) state) (memory, status) =
      (writeAll load.allocations.lot memory (load.externalWrites entries ks),
        status && ks.all fun k => (findEntry entries (load.externalCode k)).isSome) := by
  induction ks generalizing memory status with
  | nil => simp [externalWrites, writeAll]
  | cons k rest ih =>
      have hk := hks k List.mem_cons_self
      have hrest := fun k hm => hks k (List.mem_cons_of_mem _ hm)
      have hslot := h.externalSlot_lt hk
      have hindex := (h.index_eq ha (show k < _ + _ + _ by omega)).1
      rw [List.foldl_cons, externalRelocation, h.code_eq ha hk]
      cases hf : findEntry entries (load.externalCode k) with
      | none =>
          simp only [ih hrest false ha, externalWrites, List.filterMap_cons, hf, Option.map_none,
            List.all_cons, Option.isSome_none, Bool.false_and, Bool.and_false]
      | some entry =>
          simp only [hindex, show Relocation.index load.memory (load.relocation k) =
            load.externalSlot k from rfl, h.lotEntry_eq hslot]
          rw [ih hrest status (h.agree_writeLot ha hslot entry.address)]
          simp only [externalWrites, List.filterMap_cons, hf, Option.map_some, List.all_cons,
            Option.isSome_some, Bool.true_and, writeAll, List.foldl_cons]

theorem all_isSome_iff : ((List.range load.externals).all fun k =>
    (findEntry entries (load.externalCode k)).isSome) ↔ load.Bindable entries := by
  simp only [List.all_eq_true, List.mem_range, isSome_findEntry_iff, Bindable]

theorem externalWrites_lt (h : load.WellFormed bytes) :
    ∀ write ∈ load.externalWrites entries (List.range load.externals),
      write.1 < load.externals + load.locals := by
  intro write hw
  obtain ⟨k, hk, hwrite⟩ := List.mem_filterMap.mp hw
  obtain ⟨entry, -, rfl⟩ := Option.map_eq_some_iff.mp hwrite
  exact h.externalSlot_lt (List.mem_range.mp hk)

-- With all symbols found each external relocation writes its slot.
theorem map_externalWrites (hb : load.Bindable entries) :
    (load.externalWrites entries (List.range load.externals)).map Prod.fst =
      (List.range load.externals).map load.externalSlot := by
  rw [externalWrites, List.map_filterMap, ← List.filterMap_eq_map]
  apply List.filterMap_congr
  intro k hk
  obtain ⟨entry, hentry⟩ := Option.isSome_iff_exists.mp
    (isSome_findEntry_iff.mpr (hb k (List.mem_range.mp hk)))
  simp [hentry]

end External

section Local

variable (load : Load) (text data : Nat)

def localWrites (ks : List Nat) : List (Nat × Nat) :=
  ks.map fun k => (Relocation.index load.memory (load.relocation k) >>> 1,
    wrap ((if Relocation.index load.memory (load.relocation k) &&& 0x01 = 0 then text else data) +
      Relocation.offset load.memory (load.relocation k)))

variable {load} {text} {data} {bytes : List UInt8} {memory : Memory}

theorem WellFormed.localPass (h : load.WellFormed bytes) {ks : List Nat}
    (hks : ∀ k ∈ ks, load.externals ≤ k ∧ k < load.externals + load.locals)
    (ha : Agree load.memory memory load.header bytes.length) :
    ks.foldl (fun memory k =>
        localRelocation text data load.allocations.lot (load.relocation k) memory) memory =
      writeAll load.allocations.lot memory (load.localWrites text data ks) := by
  induction ks generalizing memory with
  | nil => rfl
  | cons k rest ih =>
      obtain ⟨hge, hlt⟩ := hks k List.mem_cons_self
      obtain ⟨i, rfl⟩ := Nat.exists_eq_add_of_le hge
      have hslot := h.localSlot_lt (show i < load.locals by omega)
      obtain ⟨hindex, hoffset⟩ := h.index_eq ha (show load.externals + i < _ + _ + _ by omega)
      have hentry := h.lotEntry_eq hslot
      simp only [localSlot] at hslot hentry
      rw [List.foldl_cons, localRelocation]
      simp only [hindex, hoffset, hentry]
      exact ih (fun k hm => hks k (List.mem_cons_of_mem _ hm)) (h.agree_writeLot ha hslot _)

theorem map_localWrites : (load.localWrites text data
    (List.range' load.externals load.locals)).map Prod.fst =
      (List.range load.locals).map load.localSlot := by
  rw [localWrites, List.map_map, List.range'_eq_map_range, List.map_map]
  rfl

theorem localWrites_lt (h : load.WellFormed bytes) :
    ∀ write ∈ load.localWrites text data (List.range' load.externals load.locals),
      write.1 < load.externals + load.locals := by
  intro write hw
  have hslot : write.1 ∈ (List.range load.locals).map load.localSlot := by
    rw [← @map_localWrites load text data]
    exact List.mem_map_of_mem hw
  exact h.below _ (List.mem_append_right _ hslot)

end Local

section Placed

variable {load : Load} {bytes : List UInt8} {memory : Memory}

-- The file as a module file, once its cookie is the expected one
theorem WellFormed.exists_file (h : load.WellFormed bytes)
    (hc : cookie load.memory load.header = expectedCookie) :
    ∃ file : ModuleFile, file.bytes = bytes := by
  have hlength := h.length_le
  have hslice := h.valid.holds.slice (show 0 + 4 ≤ bytes.length by
    simp only [sizeofModuleHeader] at hlength
    omega)
  rw [Nat.add_zero, List.drop_zero] at hslice
  exact ⟨⟨bytes, hlength, hslice.symm.trans hc⟩, rfl⟩

-- Nothing of the file has changed when the text and the data are placed.
theorem WellFormed.agree_placed (h : load.WellFormed bytes)
    (hc : cookie load.memory load.header = expectedCookie) :
    Agree load.memory load.placed load.header bytes.length := by
  obtain ⟨file, rfl⟩ := h.exists_file hc
  have hdata := h.valid.file_data
  rw [ModuleFile.dataSize_of_holds h.valid.holds, ModuleFile.bssSize_of_holds h.valid.holds] at hdata
  refine (agree_withText h.valid.file_text).trans fun i hl hu => h.valid.placed_outside ?_
  simp only [Apart] at hdata
  omega

theorem WellFormed.agree_writeAll (h : load.WellFormed bytes)
    (ha : Agree load.memory memory load.header bytes.length) {writes : List (Nat × Nat)}
    (hw : ∀ write ∈ writes, write.1 < load.externals + load.locals) :
    Agree load.memory (writeAll load.allocations.lot memory writes) load.header bytes.length :=
  ha.trans (Memory.agree_writeAll hw h.valid.file_lot)

-- The memory before the last pass, once all symbols are found.
def bound (load : Load) (entries : List SymbolEntry) : Memory :=
  writeAll load.allocations.lot load.placed
    (load.externalWrites entries (List.range load.externals) ++
      load.localWrites load.text load.allocations.data (List.range' load.externals load.locals))

theorem WellFormed.agree_bound (h : load.WellFormed bytes)
    (hc : cookie load.memory load.header = expectedCookie) (entries : List SymbolEntry) :
    Agree load.memory (load.bound entries) load.header bytes.length := by
  refine h.agree_writeAll (h.agree_placed hc) fun write hw => ?_
  rcases List.mem_append.mp hw with hw | hw
  · exact externalWrites_lt h write hw
  · exact localWrites_lt h write hw

theorem WellFormed.readWord_bound (h : load.WellFormed bytes) {entries : List SymbolEntry}
    (hb : load.Bindable entries) {k : Nat} (hk : k < load.externals) {entry : SymbolEntry}
    (he : findEntry entries (load.externalCode k) = some entry) :
    (load.bound entries).readWord (load.allocations.lot + 4 * load.externalSlot k) =
      wrap entry.address := by
  have hnodup := h.nodup
  have hmem : (load.externalSlot k, entry.address) ∈
      load.externalWrites entries (List.range load.externals) :=
    List.mem_filterMap.mpr ⟨k, List.mem_range.mpr hk, by rw [he]; rfl⟩
  rw [lotIndices, ← map_externalWrites hb, ← @map_localWrites load load.text load.allocations.data,
    ← List.map_append] at hnodup
  rw [bound, readWord_writeAll,
    show load.externalSlot k = (load.externalSlot k, entry.address).1 from rfl,
    lastWrite_of_nodup hnodup (List.mem_append_left _ hmem)]
  rfl

end Placed

section Data

variable {load : Load} {bytes : List UInt8} {memory other : Memory} {first count : Nat}

def dataPass (load : Load) (first count : Nat) (memory : Memory) : Memory :=
  overRelocations (dataRelocation load.allocations.data) (load.relocation first) count memory

-- The word of the data that a round takes for its own
def dataWord (load : Load) (first : Nat) (memory : Memory) : Nat :=
  wrap (load.allocations.data + 4 * Relocation.index memory (load.relocation first))

-- In memories with the same file a round stores the same.
theorem WellFormed.dataRelocation_eq (h : load.WellFormed bytes)
    (ha : Agree memory other load.header bytes.length)
    (hk : first < load.externals + load.locals + load.pointers) :
    ∃ word, word.length = 4 ∧
      dataRelocation load.allocations.data (load.relocation first) memory =
        memory.store (load.dataWord first memory) word ∧
      dataRelocation load.allocations.data (load.relocation first) other =
        other.store (load.dataWord first memory) word := by
  obtain ⟨hindex, hoffset⟩ := h.index_eq ha hk
  refine ⟨encode 4 (wrap (load.allocations.data +
    Relocation.offset memory (load.relocation first))), length_encode 4 _, rfl, ?_⟩
  rw [dataRelocation, hindex, hoffset]
  rfl

theorem WellFormed.agree_dataRelocation (h : load.WellFormed bytes)
    (ha : Agree memory other load.header bytes.length)
    (hk : first < load.externals + load.locals + load.pointers) :
    Agree (dataRelocation load.allocations.data (load.relocation first) memory)
      (dataRelocation load.allocations.data (load.relocation first) other) load.header
      bytes.length := by
  obtain ⟨word, -, hmemory, hother⟩ := h.dataRelocation_eq ha hk
  rw [hmemory, hother]
  exact ha.store _ _

theorem WellFormed.dataPass_succ (h : load.WellFormed bytes)
    (hk : first + (count + 1) ≤ load.externals + load.locals + load.pointers) (memory : Memory) :
    load.dataPass first (count + 1) memory = load.dataPass (first + 1) count
      (dataRelocation load.allocations.data (load.relocation first) memory) := by
  rw [dataPass, overRelocations, relocation_succ (h.relocation_lt (by omega))]
  rfl

-- The pass reads the file only, so that it writes the same whatever the
-- lookup table holds.
theorem WellFormed.dataPass_congr (h : load.WellFormed bytes)
    (hk : first + count ≤ load.externals + load.locals + load.pointers)
    (ha : Agree memory other load.header bytes.length) {i : Nat} (hi : other i = memory i) :
    load.dataPass first count other i = load.dataPass first count memory i := by
  induction count generalizing first memory other with
  | zero => exact hi
  | succ count ih =>
      obtain ⟨word, -, hmemory, hother⟩ := h.dataRelocation_eq ha (show first < _ by omega)
      rw [h.dataPass_succ hk, h.dataPass_succ hk]
      refine ih (by omega) (h.agree_dataRelocation ha (by omega)) ?_
      rw [hmemory, hother]
      exact store_congr _ hi

theorem WellFormed.readWord_dataPass (h : load.WellFormed bytes)
    (hk : first + count ≤ load.externals + load.locals + load.pointers)
    (ha : Agree memory other load.header bytes.length) {target : Nat}
    (hs : PassSpares load.allocations.data (target, 4) (load.relocation first) count memory) :
    (load.dataPass first count other).readWord target = other.readWord target := by
  induction count generalizing first memory other with
  | zero => rfl
  | succ count ih =>
      rw [PassSpares, relocation_succ (h.relocation_lt (by omega))] at hs
      obtain ⟨hapart, hrest⟩ := hs
      obtain ⟨word, hlength, -, hother⟩ := h.dataRelocation_eq ha (show first < _ by omega)
      have hagree := h.agree_dataRelocation ha (show first < _ by omega)
      rw [h.dataPass_succ hk, ih (by omega) hagree hrest, hother]
      apply readWord_store_of_disjoint
      simp only [Apart] at hapart
      rw [hlength, dataWord]
      omega

-- A block that the pass does not spare has a byte that does not keep what was
-- in it: the pass leaves the same there, whatever that was.
theorem WellFormed.exists_overwritten (h : load.WellFormed bytes)
    (hk : first + count ≤ load.externals + load.locals + load.pointers) {target : Nat}
    (hs : ¬PassSpares load.allocations.data (target, 4) (load.relocation first) count memory) :
    ∃ i < 4, ∀ other, Agree memory other load.header bytes.length →
      load.dataPass first count other (target + i) =
        load.dataPass first count memory (target + i) := by
  induction count generalizing first memory with
  | zero => exact absurd trivial hs
  | succ count ih =>
      rw [PassSpares, relocation_succ (h.relocation_lt (by omega)), not_and_or] at hs
      rcases hs with hover | hrest
      · obtain ⟨i, hi, hl, hu⟩ : ∃ i < 4, load.dataWord first memory ≤ target + i ∧
            target + i < load.dataWord first memory + 4 := by
          change ¬(load.dataWord first memory + 4 ≤ target ∨ target + 4 ≤ load.dataWord first memory)
            at hover
          by_cases hle : load.dataWord first memory ≤ target
          · exact ⟨0, by omega, by omega, by omega⟩
          · exact ⟨load.dataWord first memory - target, by omega, by omega, by omega⟩
        refine ⟨i, hi, fun other ha => ?_⟩
        obtain ⟨word, hlength, hmemory, hother⟩ := h.dataRelocation_eq ha (show first < _ by omega)
        rw [h.dataPass_succ hk, h.dataPass_succ hk]
        refine h.dataPass_congr (by omega) (h.agree_dataRelocation ha (by omega)) ?_
        rw [hmemory, hother]
        exact store_inside hl (by rw [hlength]; exact hu)
      · obtain ⟨i, hi, hsame⟩ := ih (by omega) hrest
        refine ⟨i, hi, fun other ha => ?_⟩
        rw [h.dataPass_succ hk, h.dataPass_succ hk]
        exact hsame _ (h.agree_dataRelocation ha (by omega))

end Data

section Outcome

variable {load : Load} {bytes : List UInt8} {memory : Memory}

theorem WellFormed.counts_eq (h : load.WellFormed bytes)
    (ha : Agree load.memory memory load.header bytes.length) :
    numberOfExternalRelocations memory load.header = load.externals ∧
      numberOfLocalRelocations memory load.header = load.locals ∧
        numberOfDataRelocations memory load.header = load.pointers := by
  have hlength := h.length_le
  simp only [sizeofModuleHeader] at hlength
  exact ⟨ha.readHalf (by omega) (by omega), ha.readHalf (by omega) (by omega),
    ha.readHalf (by omega) (by omega)⟩

theorem WellFormed.tableAddress (h : load.WellFormed bytes) :
    relocationSectionAddress load.header = load.relocation 0 ∧
      wrap (load.relocation 0 + sizeofRelocation * load.externals) =
        load.relocation load.externals := by
  have hfirst := h.relocation_lt (Nat.zero_le _)
  have hlocals := h.relocation_lt (show load.externals ≤ _ + _ + _ by omega)
  have hsum : load.relocation 0 + sizeofRelocation * load.externals =
      load.relocation load.externals := by
    simp only [relocation, Nat.mul_zero, Nat.add_zero]
  rw [hsum]
  exact ⟨Nat.mod_eq_of_lt hfirst, Nat.mod_eq_of_lt hlocals⟩

theorem WellFormed.processExternalRelocations (h : load.WellFormed bytes)
    (hc : cookie load.memory load.header = expectedCookie) (entries : List SymbolEntry) :
    DynamicLinker.processExternalRelocations entries load.header load.allocations.lot
        (relocationSectionAddress load.header) load.placed =
      (writeAll load.allocations.lot load.placed
          (load.externalWrites entries (List.range load.externals)),
        (List.range load.externals).all fun k =>
          (findEntry entries (load.externalCode k)).isSome) := by
  have ha := h.agree_placed hc
  rw [DynamicLinker.processExternalRelocations, (h.counts_eq ha).1, h.tableAddress.1,
    overRelocations_eq_foldl _ (h.relocation_lt (by omega)), ← List.range_eq_range',
    h.externalPass (fun k hk => List.mem_range.mp hk) true ha, Bool.true_and]

theorem WellFormed.processLocalRelocations (h : load.WellFormed bytes)
    (hc : cookie load.memory load.header = expectedCookie) (entries : List SymbolEntry) :
    DynamicLinker.processLocalRelocations load.header load.text load.allocations.data
        load.allocations.lot (load.relocation load.externals)
        (writeAll load.allocations.lot load.placed
          (load.externalWrites entries (List.range load.externals))) = load.bound entries := by
  have ha := h.agree_writeAll (h.agree_placed hc) (@externalWrites_lt load entries bytes h)
  rw [DynamicLinker.processLocalRelocations, (h.counts_eq ha).2.1,
    overRelocations_eq_foldl _ (h.relocation_lt (by omega)),
    h.localPass (fun k hk => by rw [List.mem_range'_1] at hk; exact hk) ha, bound, writeAll_append]

theorem WellFormed.fillModule (h : load.WellFormed bytes)
    (hc : cookie load.memory load.header = expectedCookie) (entries : List SymbolEntry) :
    (load.Bindable entries → ∃ start,
      DynamicLinker.fillModule load.memory load.header load.mode entries load.allocations =
        (.ok (), load.record start,
          load.dataPass load.externals load.pointers (load.bound entries))) ∧
      (¬load.Bindable entries →
        (DynamicLinker.fillModule load.memory load.header load.mode entries load.allocations).1 =
          .error .externalRelocationFailure) := by
  obtain ⟨hfail, hdata, hlot⟩ := h.valid.allocated_ne
  have hplaced : placeData (placeText load.memory load.header load.mode load.allocations).2
      load.header load.allocations.data (dataAddress load.memory load.header) = load.placed := rfl
  have htext : (placeText load.memory load.header load.mode load.allocations).1 = load.text := rfl
  have hafter := h.agree_writeAll (h.agree_placed hc) (@externalWrites_lt load entries bytes h)
  have hcount := (h.counts_eq hafter).1
  obtain ⟨hfirst, hlocals⟩ := h.tableAddress
  have hpointers := (h.counts_eq (h.agree_bound hc entries)).2.2
  have hall := @all_isSome_iff load entries
  unfold DynamicLinker.fillModule
  simp only [hfail, hdata, hlot, ite_false, hplaced, htext, h.processExternalRelocations hc]
  constructor
  · intro hb
    rw [if_pos (hall.mpr hb)]
    simp only [hcount, hfirst, hlocals, h.processLocalRelocations hc,
      DynamicLinker.processDataRelocations, hpointers]
    exact ⟨_, rfl⟩
  · intro hb
    rw [if_neg fun hstatus => hb (hall.mp hstatus)]

theorem WellFormed.outcome_of_bindable (h : load.WellFormed bytes)
    (hc : cookie load.memory load.header = expectedCookie) {entries : List SymbolEntry}
    (hb : load.Bindable entries) (linker : DynamicLinker) : ∃ start,
      (load.withEntries entries).Returns linker (load.record start)
        (load.dataPass load.externals load.pointers (load.bound entries)) := by
  obtain ⟨start, hfill⟩ := (h.fillModule hc entries).1 hb
  have houtcome : (load.withEntries entries).outcome linker =
      ⟨.ok (linker.modules.emplaceBack (load.record start) load.allocations.modules).back,
        ⟨linker.modules.emplaceBack (load.record start) load.allocations.modules⟩,
          load.dataPass load.externals load.pointers (load.bound entries)⟩ := by
    simp only [outcome, withEntries, loadModule, hc, ne_eq, not_true_eq_false, ite_false, hfill]
    rfl
  refine ⟨start, _, congrArg Outcome.result houtcome, ?_, congrArg Outcome.memory houtcome⟩
  rw [houtcome]
  exact AddressedVector.get?_back (by decide) _ _

theorem WellFormed.result_of_not_bindable (h : load.WellFormed bytes)
    (hc : cookie load.memory load.header = expectedCookie) {entries : List SymbolEntry}
    (hb : ¬load.Bindable entries) (linker : DynamicLinker) :
    ((load.withEntries entries).outcome linker).result = .error .externalRelocationFailure := by
  have hfill := (h.fillModule hc entries).2 hb
  simp only [outcome, withEntries, loadModule, hc, ne_eq, not_true_eq_false, ite_false, hfill]
  rfl

theorem result_of_cookie (hc : cookie load.memory load.header ≠ expectedCookie)
    (entries : List SymbolEntry) (linker : DynamicLinker) :
    ((load.withEntries entries).outcome linker).result = .error .cookieValidationFailure :=
  congrArg Outcome.result (loadModule_of_cookie hc)

end Outcome

section Binding

variable {load : Load} {bytes : List UInt8} {linker : DynamicLinker}

-- An environment that has every symbol of the module at one address.
def uniform (load : Load) (address : Nat) : List SymbolEntry :=
  (List.range load.externals).map fun k => ⟨load.externalCode k, address⟩

theorem bindable_uniform (address : Nat) : load.Bindable (load.uniform address) := fun k hk =>
  ⟨⟨load.externalCode k, address⟩, List.mem_map_of_mem (f := fun k =>
    (⟨load.externalCode k, address⟩ : SymbolEntry)) (List.mem_range.mpr hk), rfl⟩

theorem address_of_uniform {address code : Nat} {entry : SymbolEntry}
    (he : IsFirst (load.uniform address) code entry) : entry.address = address := by
  have hmem := List.mem_of_find?_eq_some (isFirst_iff.mp he)
  obtain ⟨k, -, rfl⟩ := List.mem_map.mp hmem
  rfl

theorem Returns.unique {module other : LoadedModule} {memory after : Memory}
    (h : load.Returns linker module memory) (h' : load.Returns linker other after) :
    module = other ∧ memory = after := by
  obtain ⟨pointer, hresult, hmodule, hmemory⟩ := h
  obtain ⟨pointer', hresult', hmodule', hmemory'⟩ := h'
  obtain rfl := Except.ok.inj (hresult.symm.trans hresult')
  exact ⟨Option.some.inj (hmodule.symm.trans hmodule'), hmemory.symm.trans hmemory'⟩

-- A module that is returned has the memory of the last pass.
theorem WellFormed.returns_eq (h : load.WellFormed bytes) {entries : List SymbolEntry}
    {module : LoadedModule} {memory : Memory}
    (hr : (load.withEntries entries).Returns linker module memory) :
    cookie load.memory load.header = expectedCookie ∧ load.Bindable entries ∧
      module.lot = load.allocations.lot ∧
        memory = load.dataPass load.externals load.pointers (load.bound entries) := by
  have hok := hr
  obtain ⟨pointer, hresult, -⟩ := hok
  have hc : cookie load.memory load.header = expectedCookie := cookie_of_ok hresult
  have hb : load.Bindable entries := by
    by_contra hb
    rw [h.result_of_not_bindable hc hb linker] at hresult
    cases hresult
  obtain ⟨start, hreturns⟩ := h.outcome_of_bindable hc hb linker
  obtain ⟨rfl, rfl⟩ := Returns.unique hr hreturns
  exact ⟨hc, hb, rfl, rfl⟩

theorem WellFormed.spares_of_binds (h : load.WellFormed bytes) (hbinds : load.Binds linker)
    (hc : cookie load.memory load.header = expectedCookie) : load.Spares := by
  intro k hk
  by_contra hover
  have hword : ∀ address, (load.dataPass load.externals load.pointers
      (load.bound (load.uniform address))).readWord
        (load.allocations.lot + 4 * load.externalSlot k) = wrap address := by
    intro address
    obtain ⟨start, hreturns⟩ := h.outcome_of_bindable hc (bindable_uniform address) linker
    obtain ⟨entry, hentry, hword⟩ := hbinds.addresses _ _ _ hreturns k hk
    rw [address_of_uniform hentry] at hword
    exact hword
  obtain ⟨i, hi, hsame⟩ := h.exists_overwritten (by omega) hover
  -- One byte is the same in both environments, and no byte of the addresses is.
  have hzero := byte_of_readWord (hword 0) hi
  have hone := byte_of_readWord (hword 0x01010101) hi
  rw [hsame _ (h.agree_bound hc _)] at hzero hone
  rw [hzero, wrap, wrap] at hone
  have hcases : i = 0 ∨ i = 1 ∨ i = 2 ∨ i = 3 := by omega
  rcases hcases with rfl | rfl | rfl | rfl <;> simp at hone

theorem WellFormed.binds_of_spares (h : load.WellFormed bytes)
    (hs : cookie load.memory load.header = expectedCookie → load.Spares) : load.Binds linker := by
  constructor
  · intro entries hc hb
    obtain ⟨start, hreturns⟩ := h.outcome_of_bindable hc hb linker
    exact ⟨_, _, hreturns⟩
  · intro entries pointer hresult
    have hc : cookie load.memory load.header = expectedCookie := cookie_of_ok hresult
    refine ⟨hc, ?_⟩
    by_contra hb
    rw [h.result_of_not_bindable hc hb linker] at hresult
    cases hresult
  · exact fun entries hc => result_of_cookie hc entries linker
  · exact fun entries hc hb => h.result_of_not_bindable hc hb linker
  · intro entries module memory hreturns k hk
    obtain ⟨hc, hb, hlot, rfl⟩ := h.returns_eq hreturns
    obtain ⟨entry, hentry⟩ := Option.isSome_iff_exists.mp (isSome_findEntry_iff.mpr (hb k hk))
    refine ⟨entry, isFirst_iff.mpr hentry, ?_⟩
    rw [hlot, h.readWord_dataPass (by omega) (h.agree_bound hc entries) (hs hc k hk)]
    exact h.readWord_bound hb hk hentry
  · exact fun entries others hp hn => outcome_congr load (findEntry_perm hp hn) linker

-- Everything but the addresses holds anyway; they stay exactly where the pass
-- over the data relocations does not get to them.
theorem binds_iff_spares (h : load.WellFormed bytes) (linker : DynamicLinker) :
    load.Binds linker ↔ (cookie load.memory load.header = expectedCookie → load.Spares) :=
  ⟨fun hbinds hc => h.spares_of_binds hbinds hc, fun hs => h.binds_of_spares hs⟩

-- Two imported functions, one of the module itself behind them in the lookup
-- table, and a word of data that points to another one.
def pointerImage : Image where
  code := List.replicate 16 0
  data := [0, 0, 0, 0, 16, 0, 0, 0]
  bssSize := 0
  externals := [(0, 1), (1, 2)]
  locals := [(4, 0)]
  pointers := [(4, 16)]
  symbols := [⟨0, 1, 1⟩, ⟨2, 0, 7⟩, ⟨2, 0, 8⟩]
  externalSymbols := 2

-- The lookup table is the next block behind the data in the heap.
def pointerLoad : Load where
  memory := Memory.store (fun _ => 0) 0x08010000 pointerImage.bytes
  header := 0x08010000
  mode := 0
  entries := [⟨7, 0x08000101⟩, ⟨8, 0x08000201⟩]
  allocations := ⟨0x20004100, 0, 0x20004004, 0x20004014⟩

theorem wellFormed_pointerLoad : pointerLoad.WellFormed pointerImage.bytes :=
  ⟨by decide +kernel, by decide +kernel, by decide +kernel, by decide +kernel, by decide +kernel⟩

theorem binds_iff_spares_pointerLoad : pointerLoad.Binds DynamicLinker.new ↔
    (cookie pointerLoad.memory pointerLoad.header = expectedCookie → pointerLoad.Spares) :=
  binds_iff_spares wellFormed_pointerLoad DynamicLinker.new

-- The entry of the local relocation counts as the fifth word of the data,
-- which is the slot of the first function.
theorem pointerLoad_not_binds :
    pointerLoad.WellFormed pointerImage.bytes ∧
      (∃ pointer, (pointerLoad.outcome DynamicLinker.new).result = .ok pointer) ∧
      pointerLoad.externalSlot 0 = 0 ∧
      (pointerLoad.outcome DynamicLinker.new).memory.readWord 0x20004014 = 0x20004004 ∧
      ¬pointerLoad.Binds DynamicLinker.new := by
  refine ⟨wellFormed_pointerLoad, ⟨_, rfl⟩, by decide +kernel, by decide +kernel, fun hbinds => ?_⟩
  have hspares := wellFormed_pointerLoad.spares_of_binds hbinds (by decide +kernel)
  have hapart := hspares 0 (by decide +kernel)
  revert hapart
  simp only [show pointerLoad.pointers = 1 by decide +kernel, PassSpares]
  decide +kernel

end Binding

end Msos.Load
