import Msos.DynamicLinker.Binding
import Msos.Library.Machine

namespace Msos.Load

open Msos.Library Msos.Library.Memory
open DynamicLinker ModuleHeader

section Definitions

variable (load : Load)

-- Every round of a pass of process_data_relocations writes into one of some blocks.
def PassWithin (data : Nat) (blocks : List (Nat × Nat)) : Nat → Nat → Memory → Prop
  | _, 0, _ => True
  | address, count + 1, memory =>
      (∃ block ∈ blocks, block.1 ≤ wrap (data + 4 * Relocation.index memory address) ∧
        wrap (data + 4 * Relocation.index memory address) + 4 ≤ block.1 + block.2) ∧
        PassWithin data blocks (wrap (address + sizeofRelocation)) count
          (dataRelocation data address memory)

-- The data relocations stay in the blocks of the load; there are none, mostly.
def Confined : Prop :=
  PassWithin load.allocations.data load.allocated (load.relocation load.externals) load.pointers
    load.memory

def Outside (blocks : List (Nat × Nat)) (i : Nat) : Prop :=
  ∀ block ∈ blocks, i < block.1 ∨ block.1 + block.2 ≤ i

-- The memory that the load leaves, whatever modules there are
def left : Memory := (load.outcome DynamicLinker.new).memory

-- What a module is executed from: its text and its lookup table.
def kept : List (Nat × Nat) :=
  [(load.text, codeSize load.memory load.header),
    (load.allocations.lot, 4 * (load.externals + load.locals))]

end Definitions

section Writing

variable {load : Load} {bytes : List UInt8} {memory other : Memory} {first count i : Nat}

theorem confined_of_pointers (h : load.pointers = 0) : load.Confined := by
  rw [Confined, h]
  exact trivial

theorem memory_outcome (linker : DynamicLinker) : (load.outcome linker).memory = load.left := by
  rw [left, outcome, outcome, loadModule, loadModule]
  split
  · rfl
  · rfl

theorem WellFormed.dataPass_outside (h : load.WellFormed bytes)
    (hk : first + count ≤ load.externals + load.locals + load.pointers)
    (ha : Agree memory other load.header bytes.length) {blocks : List (Nat × Nat)}
    (hw : PassWithin load.allocations.data blocks (load.relocation first) count memory)
    (hi : Outside blocks i) : load.dataPass first count other i = other i := by
  induction count generalizing first memory other with
  | zero => rfl
  | succ count ih =>
      rw [PassWithin, relocation_succ (h.relocation_lt (by omega))] at hw
      obtain ⟨⟨block, hblock, hl, hu⟩, hrest⟩ := hw
      obtain ⟨word, hlength, -, hother⟩ := h.dataRelocation_eq ha (show first < _ by omega)
      have hagree := h.agree_dataRelocation ha (show first < _ by omega)
      rw [h.dataPass_succ hk, ih (by omega) hagree hrest, hother]
      have hout := hi block hblock
      rw [dataWord]
      by_cases hlow : i < wrap (load.allocations.data +
          4 * Relocation.index memory (load.relocation first))
      · exact store_of_lt _ _ hlow
      · exact store_of_le _ (by rw [hlength]; omega)

theorem lot_mem_allocated (load : Load) :
    (load.allocations.lot, 4 * (load.externals + load.locals)) ∈ load.allocated :=
  List.mem_append_right _ (List.mem_cons_of_mem _ List.mem_cons_self)

theorem data_mem_allocated (load : Load) :
    (load.allocations.data, dataSize load.memory load.header + bssSize load.memory load.header) ∈
      load.allocated := List.mem_append_right _ List.mem_cons_self

theorem WellFormed.placed_outside (h : load.WellFormed bytes)
    (hc : cookie load.memory load.header = expectedCookie) (hi : Outside load.allocated i) :
    load.placed i = load.memory i := by
  obtain ⟨file, rfl⟩ := h.exists_file hc
  have hdata := hi _ (data_mem_allocated load)
  rw [ModuleFile.dataSize_of_holds h.valid.holds, ModuleFile.bssSize_of_holds h.valid.holds] at hdata
  rw [h.valid.placed_outside hdata]
  have hagree := @agree_withText load i 1 fun hcopy => by
    have htext := hi (load.allocations.text, codeSize load.memory load.header) (by
      rw [allocated, if_pos hcopy]
      exact List.mem_cons_self)
    simp only [Apart]
    omega
  exact hagree i (Nat.le_refl _) (Nat.lt_succ_self _)

theorem WellFormed.writeAll_outside (h : load.WellFormed bytes)
    (hc : cookie load.memory load.header = expectedCookie) {writes : List (Nat × Nat)}
    (hw : ∀ write ∈ writes, write.1 < load.externals + load.locals)
    (hi : Outside load.allocated i) :
    writeAll load.allocations.lot load.placed writes i = load.memory i := by
  rw [Memory.writeAll_outside, h.placed_outside hc hi]
  intro write hm
  have hlot := hi _ (lot_mem_allocated load)
  have := hw write hm
  omega

-- Without one of its symbols a module gets the slots of the others.
theorem WellFormed.memory_of_not_bindable (h : load.WellFormed bytes)
    (hc : cookie load.memory load.header = expectedCookie) (hb : ¬load.Bindable load.entries) :
    load.left = writeAll load.allocations.lot load.placed
      (load.externalWrites load.entries (List.range load.externals)) := by
  obtain ⟨hfail, hdata, hlot⟩ := h.valid.allocated_ne
  have hplaced : placeData (placeText load.memory load.header load.mode load.allocations).2
      load.header load.allocations.data (dataAddress load.memory load.header) = load.placed := rfl
  have hall := mt (@all_isSome_iff load load.entries).mp hb
  rw [left, outcome, loadModule, if_neg (not_not.mpr hc)]
  unfold DynamicLinker.fillModule
  simp only [hfail, hdata, hlot, ite_false, hplaced, h.processExternalRelocations hc]
  rw [if_neg hall]

-- A load writes into the blocks that it has allocated, whether it succeeds or not.
theorem WellFormed.left_outside (h : load.WellFormed bytes) (hconfined : load.Confined)
    (hi : Outside load.allocated i) : load.left i = load.memory i := by
  by_cases hc : cookie load.memory load.header = expectedCookie
  · by_cases hb : load.Bindable load.entries
    · obtain ⟨start, pointer, -, -, hmemory⟩ := h.outcome_of_bindable hc hb DynamicLinker.new
      have hleft : load.left =
          load.dataPass load.externals load.pointers (load.bound load.entries) := hmemory
      rw [hleft, h.dataPass_outside (by omega) (h.agree_bound hc load.entries) hconfined hi, bound]
      apply h.writeAll_outside hc _ hi
      intro write hw
      rcases List.mem_append.mp hw with hw | hw
      · exact externalWrites_lt h write hw
      · exact localWrites_lt h write hw
    · rw [h.memory_of_not_bindable hc hb]
      exact h.writeAll_outside hc (externalWrites_lt h) hi
  · rw [left, outcome, loadModule_of_cookie hc]

end Writing

end Msos.Load

namespace Msos.DynamicLinker

open Msos.Library Msos.Library.Memory Msos.Library.Machine
open ModuleHeader Load

-- The linker and the memory, with the load that each record of the table is from: the
-- record owns the blocks of this load.
structure Arena where
  linker : DynamicLinker
  memory : Memory
  owners : List Load

namespace Arena

inductive Event
  | load (header mode : Nat) (entries : List SymbolEntry) (allocations : Allocations)
  | unload (module : Nat)
  -- What programs and the system leave in memory
  | run (memory : Memory)

def load (arena : Arena) (header mode : Nat) (entries : List SymbolEntry)
    (allocations : Allocations) : Load := ⟨arena.memory, header, mode, entries, allocations⟩

def step (arena : Arena) : Event → Option Arena
  | .load header mode entries allocations =>
      let load := arena.load header mode entries allocations
      let outcome := load.outcome arena.linker
      some {
        linker := outcome.linker
        memory := outcome.memory
        owners := if cookie arena.memory header = expectedCookie then arena.owners ++ [load]
          else arena.owners }
  | .unload module =>
      some { arena with
        linker := arena.linker.unloadModule module
        owners := match arena.linker.modules.indexOf? module with
          | some i => arena.owners.eraseIdx i
          | none => arena.owners }
  | .run memory => some { arena with memory := memory }

-- A load is of a well-formed file and gets blocks that lie apart from what the records
-- own; programs leave texts and lookup tables alone.
def Allowed (arena : Arena) : Event → Prop
  | .load header mode entries allocations =>
      let load := arena.load header mode entries allocations
      (∃ bytes, load.WellFormed bytes) ∧ load.Confined ∧
        ∀ owner ∈ arena.owners, ∀ kept ∈ owner.kept, ∀ block ∈ load.allocated, Apart block kept
  | .unload _ => True
  | .run memory => ∀ owner ∈ arena.owners, ∀ kept ∈ owner.kept,
      Agree arena.memory memory kept.1 kept.2

-- The record of a load, whose text and lookup table are as the load has left them.
structure Isolated (memory : Memory) (owner : Load) (record : LoadedModule) : Prop where
  wellFormed : ∃ bytes, owner.WellFormed bytes
  cookie : cookie owner.memory owner.header = expectedCookie
  record : ∃ start, record = owner.record start
  kept : ∀ kept ∈ owner.kept, Agree owner.left memory kept.1 kept.2

-- Each record of the table is isolated in this sense.
def AllIsolated (arena : Arena) : Prop :=
  List.Forall₂ (Isolated arena.memory) arena.owners arena.linker.modules.elements

section Steps

variable {arena next : Arena} {memory : Memory}

theorem Isolated.of_agree {owner : Load} {record : LoadedModule}
    (h : Isolated memory owner record) {other : Memory}
    (ha : ∀ kept ∈ owner.kept, Agree memory other kept.1 kept.2) : Isolated other owner record :=
  { h with kept := fun kept hk => (h.kept kept hk).trans (ha kept hk) }

theorem forall₂_isolated_of_agree {owners : List Load} {records : List LoadedModule}
    (h : List.Forall₂ (Isolated memory) owners records) {other : Memory}
    (ha : ∀ owner ∈ owners, ∀ kept ∈ owner.kept, Agree memory other kept.1 kept.2) :
    List.Forall₂ (Isolated other) owners records := by
  induction h with
  | nil => exact .nil
  | cons hhead _ ih =>
      refine .cons (hhead.of_agree (ha _ List.mem_cons_self)) (ih fun owner ho => ?_)
      exact ha owner (List.mem_cons_of_mem _ ho)

theorem forall₂_eraseIdx {α β : Type*} {R : α → β → Prop} {first : List α} {second : List β}
    (h : List.Forall₂ R first second) (i : Nat) :
    List.Forall₂ R (first.eraseIdx i) (second.eraseIdx i) := by
  induction h generalizing i with
  | nil => exact .nil
  | cons hhead htail ih =>
      cases i with
      | zero => exact htail
      | succ i => exact .cons hhead (ih i)

-- What a load does outside its blocks it does not do to a block that lies apart from them.
theorem agree_outcome {load : Load} {bytes : List UInt8} (h : load.WellFormed bytes)
    (hc : load.Confined) {kept : Nat × Nat} (ha : ∀ block ∈ load.allocated, Apart block kept) :
    Agree load.memory load.left kept.1 kept.2 := by
  intro i hl hu
  apply h.left_outside hc
  intro block hb
  have hblock := ha block hb
  simp only [Apart] at hblock
  omega

theorem step_allIsolated {event : Event} (h : AllIsolated arena) (ha : Allowed arena event)
    (hs : step arena event = some next) : AllIsolated next := by
  cases event with
  | load header mode entries allocations =>
      obtain ⟨⟨bytes, hformed⟩, hconfined, hapart⟩ := ha
      obtain rfl := Option.some.inj hs
      have hothers := forall₂_isolated_of_agree h fun owner ho kept hk =>
        agree_outcome hformed hconfined (hapart owner ho kept hk)
      rw [← memory_outcome arena.linker] at hothers
      by_cases hc : cookie arena.memory header = expectedCookie
      · obtain ⟨file, rfl⟩ := hformed.exists_file hc
        obtain ⟨start, hmodules⟩ := hformed.valid.modules_outcome arena.linker
        rw [AllIsolated]
        simp only [if_pos hc, hmodules, AddressedVector.elements_emplaceBack]
        refine List.rel_append hothers (.cons ⟨⟨_, hformed⟩, hc, ⟨start, rfl⟩, ?_⟩ .nil)
        intro kept _
        rw [memory_outcome]
        exact fun i _ _ => rfl
      · have hnone : ((arena.load header mode entries allocations).outcome arena.linker).linker =
            arena.linker :=
          congrArg Outcome.linker
            (@loadModule_of_cookie arena.linker arena.memory header mode entries allocations hc)
        rw [AllIsolated]
        simp only [if_neg hc, hnone]
        exact hothers
  | unload module =>
      obtain rfl := Option.some.inj hs
      rw [AllIsolated]
      cases hindex : arena.linker.modules.indexOf? module with
      | none =>
          simp only [unloadModule, hindex]
          exact h
      | some i =>
          simp only [unloadModule, hindex]
          exact forall₂_eraseIdx h i
  | run memory =>
      obtain rfl := Option.some.inj hs
      exact forall₂_isolated_of_agree h ha

end Steps

section Runs

variable {memory : Memory} {owner : Load} {record : LoadedModule}

-- The record is of the load; its text and its lookup table are as the load has left them,
-- and without data relocations each external slot leads to the first entry of its code.
structure Intact (memory : Memory) (owner : Load) (record : LoadedModule) : Prop where
  record : ∃ start, record = owner.record start
  text : Agree owner.left memory owner.text (codeSize owner.memory owner.header)
  table : Agree owner.left memory owner.allocations.lot (4 * (owner.externals + owner.locals))
  reaches : owner.pointers = 0 → owner.Bindable owner.entries → ∀ k < owner.externals,
    ∃ entry, IsFirst owner.entries (owner.externalCode k) entry ∧
      memory.readWord (owner.allocations.lot + 4 * owner.externalSlot k) = wrap entry.address

theorem Isolated.intact (h : Isolated memory owner record) : Intact memory owner record := by
  obtain ⟨bytes, hformed⟩ := h.wellFormed
  have htable := h.kept _ (List.mem_cons_of_mem _ List.mem_cons_self)
  refine ⟨h.record, h.kept _ List.mem_cons_self, htable, fun hnone hb k hk => ?_⟩
  obtain ⟨start, pointer, -, -, hmemory⟩ :=
    hformed.outcome_of_bindable h.cookie hb DynamicLinker.new
  have hleft : owner.left = owner.bound owner.entries := by
    have hpass : owner.left =
        owner.dataPass owner.externals owner.pointers (owner.bound owner.entries) := hmemory
    rw [hpass, hnone]
    rfl
  obtain ⟨entry, hentry⟩ := Option.isSome_iff_exists.mp (isSome_findEntry_iff.mpr (hb k hk))
  have hslot := hformed.externalSlot_lt hk
  refine ⟨entry, isFirst_iff.mpr hentry, ?_⟩
  rw [htable.readWord (by omega) (by omega), hleft]
  exact hformed.readWord_bound hb hk hentry

def new (memory : Memory) : Arena := ⟨DynamicLinker.new, memory, []⟩

-- Modules are isolated from each other's loads: in every run of loads that succeed or
-- fail, unloads and programs, each record of the table keeps the text and the lookup
-- table that its load has left.
theorem loads_isolated (memory : Memory) {events : List Event}
    (h : Respects step Allowed (new memory) events) :
    Throughout step (fun arena =>
      List.Forall₂ (Intact arena.memory) arena.owners arena.linker.modules.elements)
      (new memory) events := by
  refine throughout_of_respects AllIsolated (fun arena hall => ?_)
    (fun arena event next hinv hguard hs => step_allIsolated hinv hguard hs) .nil h
  exact List.Forall₂.imp (fun owner record => Isolated.intact) hall

-- A module that calls two functions of the system, executed twice at a time
def callImage : Image := { pointerImage with pointers := [] }

def callMemory : Memory := Memory.store (fun _ => 0) 0x08010000 callImage.bytes

def twoLoads : List Event :=
  [.load 0x08010000 loadingModeCopyText [⟨7, 0x08000101⟩, ⟨8, 0x08000201⟩]
      ⟨0x20004000, 0x20004100, 0x20004200, 0x20004300⟩,
    .load 0x08010000 loadingModeCopyText [⟨7, 0x08000101⟩, ⟨8, 0x08000201⟩]
      ⟨0x20004040, 0x20004400, 0x20004500, 0x20004600⟩,
    .unload 0x2000405c]

theorem allowed_twoLoads : Respects step Allowed (new callMemory) twoLoads := by
  intro first hfirst
  obtain rfl := Option.some.inj hfirst
  refine ⟨⟨⟨callImage.bytes, ?_⟩, ?_, ?_⟩, ?_⟩
  · exact ⟨by decide +kernel, by decide +kernel, by decide +kernel, by decide +kernel,
      by decide +kernel⟩
  · exact confined_of_pointers (by decide +kernel)
  · intro owner ho
    cases ho
  intro second hsecond
  obtain rfl := Option.some.inj hsecond
  refine ⟨⟨⟨callImage.bytes, ?_⟩, ?_, ?_⟩, ?_⟩
  · exact ⟨by decide +kernel, by decide +kernel, by decide +kernel, by decide +kernel,
      by decide +kernel⟩
  · exact confined_of_pointers (by decide +kernel)
  · decide +kernel
  · exact fun _ _ => ⟨trivial, trivial⟩

theorem loads_isolated_twice : Throughout step (fun arena =>
    List.Forall₂ (Intact arena.memory) arena.owners arena.linker.modules.elements)
    (new callMemory) twoLoads := loads_isolated callMemory allowed_twoLoads

end Runs

end Arena

end Msos.DynamicLinker
