import Msos.DynamicLinker.Theorems

namespace Msos.DynamicLinker.Nesting

open Msos.Library Msos.Library.Machine ModuleHeader

inductive Event
  -- exec_process loads a module and starts it.
  | exec (memory : Memory) (header mode : Nat) (entries : List SymbolEntry)
      (allocations : Allocations)
  -- The module that was started last returns, and is unloaded.
  | finish

-- The linker, and the pointers that the calls of exec_process hold while their
-- modules run, the innermost first.
structure Execution where
  linker : DynamicLinker
  frames : List Nat

namespace Execution

def new : Execution := ⟨DynamicLinker.new, []⟩

def step (execution : Execution) : Event → Option Execution
  | .exec memory header mode entries allocations =>
      let outcome := execution.linker.loadModule memory header mode entries allocations
      match outcome.result with
      | .ok pointer => some ⟨outcome.linker, pointer :: execution.frames⟩
      | .error _ => some ⟨outcome.linker, execution.frames⟩
  | .finish =>
      match execution.frames with
      | pointer :: frames => some ⟨execution.linker.unloadModule pointer, frames⟩
      | [] => none

-- A block that the table moves to does not lie where a pointer points to.
def Fresh (execution : Execution) : Event → Prop
  | .exec _ _ _ _ allocations =>
      execution.linker.modules.elements.length < execution.linker.modules.capacity ∨
        ∀ pointer ∈ execution.frames, pointer < allocations.modules ∨
          allocations.modules + execution.linker.modules.grown * sizeofLoadedModule ≤ pointer
  | .finish => True

instance (execution : Execution) (event : Event) : Decidable (Fresh execution event) := by
  cases event <;> simp only [Fresh] <;> infer_instance

end Execution

-- What the table holds, without addresses: the newest record first, and for a
-- module that still runs the capacity that the table had once it was loaded.
structure Ledger where
  capacity : Nat
  records : List (LoadedModule × Option Nat)

-- The innermost running module leaves, if the table has not grown since its load.
def leave (capacity : Nat) :
    List (LoadedModule × Option Nat) → Option (List (LoadedModule × Option Nat))
  | [] => none
  | (record, none) :: rest => (leave capacity rest).map fun rest => (record, none) :: rest
  | (record, some loaded) :: rest =>
      some (if loaded = capacity then rest else (record, none) :: rest)

namespace Ledger

def new : Ledger := ⟨0, []⟩

-- The capacity with room for one record more
def room (ledger : Ledger) : Nat :=
  if ledger.records.length < ledger.capacity then ledger.capacity
  else max 1 (2 * ledger.records.length)

def step (ledger : Ledger) : Event → Option Ledger
  | .exec memory header mode entries allocations =>
      if cookie memory header ≠ expectedCookie then some ledger
      else
        let (result, record, _) := fillModule memory header mode entries allocations
        some ⟨ledger.room, (record, result.toOption.map fun _ => ledger.room) :: ledger.records⟩
  | .finish => (leave ledger.capacity ledger.records).map fun records => ⟨ledger.capacity, records⟩

-- The modules that still run, the innermost first
def running (ledger : Ledger) : List LoadedModule :=
  (ledger.records.filter fun entry => entry.2.isSome).map Prod.fst

end Ledger

section Refinement

variable {modules grown : AddressedVector LoadedModule sizeofLoadedModule} {frames : List Nat}
  {records : List (LoadedModule × Option Nat)}

-- The pointer of a running module leads to its record as long as the block of
-- its load is in use, and to no record afterwards.
inductive Holds (modules : AddressedVector LoadedModule sizeofLoadedModule) :
    List Nat → List (LoadedModule × Option Nat) → Prop
  | nil : Holds modules [] []
  | kept {frames : List Nat} {records : List (LoadedModule × Option Nat)}
      (record : LoadedModule) (h : Holds modules frames records) :
      Holds modules frames ((record, none) :: records)
  | running {frames : List Nat} {records : List (LoadedModule × Option Nat)}
      {pointer loaded : Nat} (record : LoadedModule) (hle : loaded ≤ modules.capacity)
      (hin : loaded = modules.capacity → pointer = modules.address records.length)
      (hout : loaded ≠ modules.capacity →
        pointer < modules.base ∨ modules.base + modules.capacity * sizeofLoadedModule ≤ pointer)
      (h : Holds modules frames records) :
      Holds modules (pointer :: frames) ((record, some loaded) :: records)

-- The table of an execution is the one of the ledger.
structure Refines (execution : Execution) (ledger : Ledger) : Prop where
  elements : execution.linker.modules.elements = (ledger.records.map Prod.fst).reverse
  capacity : execution.linker.modules.capacity = ledger.capacity
  length_le : ledger.records.length ≤ ledger.capacity
  holds : Holds execution.linker.modules execution.frames ledger.records

-- Only the block counts.
theorem Holds.of_block (h : Holds modules frames records) (hbase : grown.base = modules.base)
    (hcapacity : grown.capacity = modules.capacity) : Holds grown frames records := by
  induction h with
  | nil => exact .nil
  | kept record _ ih => exact .kept record ih
  | running record hle hin hout _ ih =>
      refine .running record (hcapacity ▸ hle) ?_ ?_ ih
      · intro he
        rw [hin (hcapacity ▸ he), AddressedVector.address, AddressedVector.address, hbase]
      · intro hne
        rw [hbase, hcapacity]
        exact hout (hcapacity ▸ hne)

-- A table that has grown is left by all the pointers into it.
theorem Holds.of_grown (h : Holds modules frames records)
    (hcapacity : modules.capacity < grown.capacity)
    (hfresh : ∀ pointer ∈ frames,
      pointer < grown.base ∨ grown.base + grown.capacity * sizeofLoadedModule ≤ pointer) :
    Holds grown frames records := by
  induction h with
  | nil => exact .nil
  | kept record _ ih => exact .kept record (ih hfresh)
  | running record hle hin hout _ ih =>
      refine .running record (by omega) (fun he => absurd he (by omega))
        (fun _ => hfresh _ List.mem_cons_self) ?_
      exact ih fun pointer hm => hfresh pointer (List.mem_cons_of_mem _ hm)

theorem indexOf?_of_outside {pointer : Nat} (hlength : modules.elements.length ≤ modules.capacity)
    (hout : pointer < modules.base ∨
      modules.base + modules.capacity * sizeofLoadedModule ≤ pointer) :
    modules.indexOf? pointer = none := by
  apply List.find?_eq_none.mpr
  intro i hi he
  have hlt := List.mem_range.mp hi
  have haddress : modules.address i = pointer := by simpa using he
  simp only [AddressedVector.address, sizeofLoadedModule] at haddress hout
  omega

theorem eraseIdx_reverse (front rest : List LoadedModule) (record : LoadedModule) :
    (front ++ record :: rest).reverse.eraseIdx rest.length = (front ++ rest).reverse := by
  have hlength : rest.length = rest.reverse.length := by simp
  rw [List.reverse_append, List.reverse_cons, List.append_assoc, hlength,
    List.eraseIdx_append_of_length_le (Nat.le_refl _), Nat.sub_self, List.reverse_append]
  rfl

theorem length_leave {capacity : Nat} {after : List (LoadedModule × Option Nat)}
    (h : leave capacity records = some after) : after.length ≤ records.length := by
  induction records generalizing after with
  | nil => cases h
  | cons entry rest ih =>
      obtain ⟨record, status⟩ := entry
      cases status with
      | none =>
          obtain ⟨front, hfront, rfl⟩ := Option.map_eq_some_iff.mp h
          have := ih hfront
          simpa using this
      | some loaded =>
          obtain rfl := Option.some.inj h
          split
          · simp
          · simp

-- What an unload does to the table, with the records above the innermost
-- running module in front.
theorem Holds.finish {linker : DynamicLinker} {pointer : Nat}
    (h : Holds linker.modules (pointer :: frames) records) (front : List LoadedModule)
    (helements : linker.modules.elements = (front ++ records.map Prod.fst).reverse)
    (hlength : linker.modules.elements.length ≤ linker.modules.capacity) :
    ∃ after, leave linker.modules.capacity records = some after ∧
      (linker.unloadModule pointer).modules.elements = (front ++ after.map Prod.fst).reverse ∧
      (linker.unloadModule pointer).modules.base = linker.modules.base ∧
      (linker.unloadModule pointer).modules.capacity = linker.modules.capacity ∧
      Holds linker.modules frames after := by
  induction records generalizing front with
  | nil => cases h
  | cons entry rest ih =>
      cases h with
      | kept record h =>
          obtain ⟨after, hleave, hafter, hbase, hcapacity, hholds⟩ :=
            ih h (front ++ [record]) (by simpa using helements)
          refine ⟨(record, none) :: after, ?_, ?_, hbase, hcapacity, .kept record hholds⟩
          · rw [leave, hleave, Option.map_some]
          · simpa using hafter
      | @running _ _ _ loaded record hle hin hout h =>
          by_cases hsame : loaded = linker.modules.capacity
          · have hlt : rest.length < linker.modules.elements.length := by
              rw [helements]
              simp
            have hindex : linker.modules.indexOf? pointer = some rest.length := by
              rw [hin hsame]
              exact AddressedVector.indexOf?_address (by decide) hlt
            refine ⟨rest, ?_, ?_, ?_, ?_, h⟩
            · rw [leave, if_pos hsame]
            · have herase := eraseIdx_reverse front (rest.map Prod.fst) record
              rw [List.length_map] at herase
              simp only [unloadModule, hindex, AddressedVector.eraseAt, helements,
                List.map_cons, herase]
            · simp only [unloadModule, hindex, AddressedVector.eraseAt]
            · simp only [unloadModule, hindex, AddressedVector.eraseAt]
          · have hindex := indexOf?_of_outside hlength (hout hsame)
            refine ⟨(record, none) :: rest, ?_, ?_, ?_, ?_, .kept record h⟩
            · rw [leave, if_neg hsame]
            · simpa [unloadModule, hindex] using helements
            · simp [unloadModule, hindex]
            · simp [unloadModule, hindex]

theorem loadModule_eq {linker : DynamicLinker} {memory : Memory} {header mode : Nat}
    {entries : List SymbolEntry} {allocations : Allocations}
    (hc : cookie memory header = expectedCookie) :
    (linker.loadModule memory header mode entries allocations).result =
        ((fillModule memory header mode entries allocations).1.map fun _ =>
          (linker.modules.emplaceBack (fillModule memory header mode entries allocations).2.1
            allocations.modules).back) ∧
      (linker.loadModule memory header mode entries allocations).linker =
        ⟨linker.modules.emplaceBack (fillModule memory header mode entries allocations).2.1
          allocations.modules⟩ := by
  simp [loadModule, hc]

-- What a new record does to the table and to the pointers into it
theorem Refines.emplace {execution : Execution} {ledger : Ledger} {storage : Nat}
    (h : Refines execution ledger) (record : LoadedModule)
    (hfresh : execution.linker.modules.elements.length < execution.linker.modules.capacity ∨
      ∀ pointer ∈ execution.frames, pointer < storage ∨
        storage + execution.linker.modules.grown * sizeofLoadedModule ≤ pointer) :
    (execution.linker.modules.emplaceBack record storage).capacity = ledger.room ∧
      ledger.records.length < ledger.room ∧
      (execution.linker.modules.emplaceBack record storage).back =
        (execution.linker.modules.emplaceBack record storage).address ledger.records.length ∧
      Holds (execution.linker.modules.emplaceBack record storage) execution.frames
        ledger.records := by
  have hlength : execution.linker.modules.elements.length = ledger.records.length := by
    rw [h.elements]
    simp
  have hback := @AddressedVector.back_emplaceBack _ _ execution.linker.modules record storage
  rw [hlength] at hback
  have hle := h.length_le
  by_cases hroom : ledger.records.length < ledger.capacity
  · have hsame : execution.linker.modules.emplaceBack record storage =
        { execution.linker.modules with
          elements := execution.linker.modules.elements ++ [record] } := by
      rw [AddressedVector.emplaceBack, if_pos (by rw [hlength, h.capacity]; exact hroom)]
    refine ⟨?_, ?_, hback, ?_⟩
    · rw [hsame, Ledger.room, if_pos hroom]
      exact h.capacity
    · rw [Ledger.room, if_pos hroom]
      exact hroom
    · rw [hsame]
      exact h.holds.of_block rfl rfl
  · have hfull : ¬execution.linker.modules.elements.length < execution.linker.modules.capacity := by
      rw [hlength, h.capacity]
      exact hroom
    have hmoved : execution.linker.modules.emplaceBack record storage =
        ⟨storage, execution.linker.modules.grown,
          execution.linker.modules.elements ++ [record]⟩ := by
      rw [AddressedVector.emplaceBack, if_neg hfull]
    have hgrown : execution.linker.modules.grown = max 1 (2 * ledger.records.length) := by
      rw [AddressedVector.grown, hlength]
    refine ⟨?_, ?_, hback, ?_⟩
    · rw [hmoved, Ledger.room, if_neg hroom]
      exact hgrown
    · rw [Ledger.room, if_neg hroom]
      omega
    · rw [hmoved]
      refine h.holds.of_grown ?_ (hfresh.resolve_left hfull)
      have hcapacity := h.capacity
      simp only [hgrown]
      omega

theorem Refines.step {execution next : Execution} {ledger : Ledger} {event : Event}
    (h : Refines execution ledger) (hfresh : execution.Fresh event)
    (hs : execution.step event = some next) :
    ∃ after, ledger.step event = some after ∧ Refines next after := by
  cases event with
  | exec memory header mode entries allocations =>
      by_cases hc : cookie memory header = expectedCookie
      · obtain ⟨hcapacity, hlt, hback, hholds⟩ :=
          h.emplace (fillModule memory header mode entries allocations).2.1 hfresh
        obtain ⟨hresult, hlinker⟩ :=
          @loadModule_eq execution.linker memory header mode entries allocations hc
        have helements := @AddressedVector.elements_emplaceBack _ _ execution.linker.modules
          (fillModule memory header mode entries allocations).2.1 allocations.modules
        have hrecords : ∀ status,
            (execution.linker.modules.emplaceBack
              (fillModule memory header mode entries allocations).2.1 allocations.modules).elements =
            ((((fillModule memory header mode entries allocations).2.1, status) ::
              ledger.records).map Prod.fst).reverse := by
          intro status
          rw [helements, h.elements, List.map_cons, List.reverse_cons]
        simp only [Execution.step, hresult, hlinker] at hs
        simp only [Ledger.step, hc, ne_eq, not_true_eq_false, if_false]
        cases hfill : (fillModule memory header mode entries allocations).1 with
        | ok done =>
            rw [hfill] at hs
            obtain rfl := Option.some.inj hs
            refine ⟨_, rfl, hrecords _, hcapacity, Nat.succ_le_of_lt hlt, ?_⟩
            exact .running _ hcapacity.ge (fun _ => hback) (fun hne => absurd hcapacity.symm hne)
              hholds
        | error fault =>
            rw [hfill] at hs
            obtain rfl := Option.some.inj hs
            exact ⟨_, rfl, hrecords _, hcapacity, Nat.succ_le_of_lt hlt, .kept _ hholds⟩
      · have hload := @loadModule_of_cookie execution.linker memory header mode entries allocations hc
        simp only [Execution.step, hload] at hs
        obtain rfl := Option.some.inj hs
        refine ⟨ledger, ?_, h⟩
        simp only [Ledger.step, hc, ne_eq, not_false_eq_true, if_true]
  | finish =>
      cases hframes : execution.frames with
      | nil => simp [Execution.step, hframes] at hs
      | cons pointer frames =>
          simp only [Execution.step, hframes] at hs
          obtain rfl := Option.some.inj hs
          have hholds := h.holds
          rw [hframes] at hholds
          have hlength : execution.linker.modules.elements.length ≤
              execution.linker.modules.capacity := by
            rw [h.elements, h.capacity]
            simpa using h.length_le
          obtain ⟨after, hleave, helements, hbase, hcapacity, hafter⟩ :=
            hholds.finish [] (by simpa using h.elements) hlength
          refine ⟨⟨ledger.capacity, after⟩, ?_, ?_, hcapacity.trans h.capacity, ?_,
            hafter.of_block hbase hcapacity⟩
          · rw [Ledger.step, ← h.capacity, hleave]
            simp [h.capacity]
          · simpa using helements
          · have hle := length_leave hleave
            have := h.length_le
            simp only
            omega

theorem refines_new : Refines Execution.new Ledger.new := ⟨rfl, rfl, Nat.le_refl _, .nil⟩

theorem Holds.length_running (h : Holds modules frames records) (capacity : Nat) :
    (Ledger.running ⟨capacity, records⟩).length = frames.length := by
  unfold Ledger.running
  induction h with
  | nil => rfl
  | kept record _ ih => simpa using ih
  | running record _ _ _ _ ih => simpa using ih

end Refinement

section Lookups

-- Whatever nests, and whichever loads fail, the table is the one of the ledger,
-- in which every running module has its record; so an address in the text of a
-- running module leads to its own lookup table.
theorem running_found {events : List Event} {last : Execution}
    (hfresh : Respects Execution.step Execution.Fresh Execution.new events)
    (hr : run Execution.step Execution.new events = some last) :
    ∃ ledger, run Ledger.step Ledger.new events = some ledger ∧
      last.linker.modules.elements = (ledger.records.map Prod.fst).reverse ∧
      ledger.running.length = last.frames.length ∧
      ∀ record ∈ ledger.running, ∀ memory address, Contains memory address record →
        (∀ other ∈ last.linker.modules.elements, Contains memory address other →
          other = record) →
        last.linker.getLotForModuleAt memory address = record.lot := by
  obtain ⟨ledger, hledger, h⟩ :=
    @exists_run_of_simulates _ _ Execution.step Execution.Fresh _ Ledger.step Refines
      (fun _ _ _ _ h hg hs => h.step hg hs) _ _ _ _ refines_new hfresh hr
  refine ⟨ledger, hledger, h.elements, h.holds.length_running ledger.capacity, ?_⟩
  intro record hm memory address hc hunique
  have hin : record ∈ last.linker.modules.elements := by
    obtain ⟨entry, hentry, rfl⟩ := List.mem_map.mp hm
    rw [h.elements, List.mem_reverse]
    exact List.mem_map_of_mem (List.mem_of_mem_filter hentry)
  unfold getLotForModuleAt
  split
  · rename_i found hfound
    have hcontains : Contains memory address found := by simpa using List.find?_some hfound
    rw [hunique found (List.mem_of_find?_eq_some hfound) hcontains]
  · rename_i hnone
    have hnot := List.find?_eq_none.mp hnone record hin
    exact absurd hc (by simpa using hnot)

-- A module executes another one to its end, and then one that still runs.
def program (storage text : Nat) : Event :=
  .exec Client.returnMemory 0x08010000 loadingModeCopyText []
    ⟨storage, text, text + 0x100, text + 0x200⟩

def programRecord (text : Nat) : LoadedModule :=
  ⟨0x08010000, some text, some (text + 0x100), text + 0x200, some (text + 1)⟩

def nested : List Event :=
  [program 0x20004000 0x20004100, program 0x20005000 0x20005100, .finish,
    program 0x20006000 0x20006100]

theorem running_found_nested :
    ∃ last, run Execution.step Execution.new nested = some last ∧
      last.frames.length = 2 ∧ last.linker.modules.elements.length = 2 ∧
      last.linker.getLotForModuleAt Client.returnMemory 0x20004100 = 0x20004300 ∧
      last.linker.getLotForModuleAt Client.returnMemory 0x20006102 = 0x20006300 := by
  obtain ⟨ledger, hledger, -, -, hlot⟩ := @running_found nested _ (by decide) rfl
  have hrunning : (run Ledger.step Ledger.new nested).map Ledger.running =
      some [programRecord 0x20006100, programRecord 0x20004100] := by decide
  rw [hledger] at hrunning
  have hrunning := Option.some.inj hrunning
  refine ⟨_, rfl, by decide, by decide, ?_, ?_⟩
  · exact hlot (programRecord 0x20004100) (by rw [hrunning]; simp) _ _ (by decide) (by decide)
  · exact hlot (programRecord 0x20006100) (by rw [hrunning]; simp) _ _ (by decide) (by decide)

end Lookups

section Bound

-- The records that no return takes out any more
def stays (ledger : Ledger) : Nat :=
  ledger.records.countP fun entry => entry.2 ≠ some ledger.capacity

-- A load fails at the cookie or not at all.
def Loads : Event → Prop
  | .exec memory header mode entries allocations =>
      cookie memory header = expectedCookie →
        (fillModule memory header mode entries allocations).1 = .ok ()
  | .finish => True

instance : DecidablePred Loads
  | .exec memory header mode entries allocations =>
      match h : (fillModule memory header mode entries allocations).1 with
      | .ok () => isTrue fun _ => h
      | .error _ =>
          if hc : cookie memory header = expectedCookie then
            isFalse fun hload => by
              have := hload hc
              rw [h] at this
              cases this
          else isTrue fun he => absurd he hc
  | .finish => isTrue trivial

-- No more than `depth` modules run at a time.
def Within (depth : Nat) (execution : Execution) : Event → Prop
  | .exec _ _ _ _ _ => execution.frames.length < depth
  | .finish => True

instance (depth : Nat) (execution : Execution) (event : Event) :
    Decidable (Within depth execution event) := by
  cases event <;> simp only [Within] <;> infer_instance

-- The table has doubled `k` times, and each time has left less than `depth`
-- records behind.
structure Doubled (depth k : Nat) (ledger : Ledger) : Prop where
  capacity : ledger.capacity = 2 ^ k
  stays : stays ledger ≤ k * (depth - 1)
  grew : k = 0 ∨ 2 ^ (k - 1) ≤ k * (depth - 1)

-- A record stays or belongs to a running module.
theorem length_records_le (ledger : Ledger) :
    ledger.records.length ≤ stays ledger + ledger.running.length := by
  have hsplit := List.length_eq_countP_add_countP
    (fun entry : LoadedModule × Option Nat => decide (entry.2 ≠ some ledger.capacity)) (l := ledger.records)
  have hrest : ledger.records.countP (fun entry => decide ¬decide (entry.2 ≠ some ledger.capacity) = true) ≤
      ledger.records.countP fun entry => entry.2.isSome := by
    apply List.countP_mono_left
    intro entry _ hleaves
    have hloaded : entry.2 = some ledger.capacity := by simpa using hleaves
    rw [hloaded, Option.isSome_some]
  rw [Ledger.running, List.length_map, ← List.countP_eq_length_filter, stays]
  omega

theorem stays_leave {capacity : Nat} {records after : List (LoadedModule × Option Nat)}
    (h : leave capacity records = some after) :
    stays ⟨capacity, after⟩ = stays ⟨capacity, records⟩ := by
  unfold stays
  induction records generalizing after with
  | nil => cases h
  | cons entry rest ih =>
      obtain ⟨record, status⟩ := entry
      cases status with
      | none =>
          obtain ⟨front, hfront, rfl⟩ := Option.map_eq_some_iff.mp h
          have hrest := ih hfront
          simp only [List.countP_cons] at hrest ⊢
          rw [hrest]
      | some loaded =>
          obtain rfl := Option.some.inj h
          by_cases hsame : loaded = capacity
          · simp [hsame]
          · simp [hsame]

def Bounded (depth : Nat) (ledger : Ledger) : Prop :=
  ledger.capacity = 0 ∨ ∃ k, Doubled depth k ledger

theorem Bounded.step {depth : Nat} {ledger after : Ledger} {event : Event}
    (h : Bounded depth ledger) (hlength : ledger.records.length ≤ ledger.capacity)
    (hload : Loads event)
    (hwithin : match event with
      | .exec _ _ _ _ _ => ledger.running.length < depth
      | .finish => True)
    (hs : ledger.step event = some after) : Bounded depth after := by
  cases event with
  | exec memory header mode entries allocations =>
      by_cases hc : cookie memory header = expectedCookie
      · have hfill := hload hc
        simp only [Ledger.step, hc, ne_eq, not_true_eq_false, if_false, hfill] at hs
        obtain rfl := Option.some.inj hs
        have hstays : stays ⟨ledger.room, ((fillModule memory header mode entries allocations).2.1,
            some ledger.room) :: ledger.records⟩ = stays ⟨ledger.room, ledger.records⟩ := by
          simp [stays]
        by_cases hroom : ledger.records.length < ledger.capacity
        · have hsame : ledger.room = ledger.capacity := if_pos hroom
          obtain ⟨k, hk⟩ := h.resolve_left (by omega)
          refine Or.inr ⟨k, hsame.trans hk.capacity, ?_, hk.grew⟩
          exact hstays.trans_le (hsame ▸ hk.stays)
        · have hgrown : ledger.room = max 1 (2 * ledger.records.length) := if_neg hroom
          have hall : stays ⟨ledger.room, ledger.records⟩ ≤ ledger.records.length :=
            List.countP_le_length
          rcases h with h0 | ⟨k, hk⟩
          · have hnil : ledger.records.length = 0 := by omega
            refine Or.inr ⟨0, ?_, ?_, Or.inl rfl⟩
            · simp only [hgrown, hnil]
              rfl
            · refine (hstays.le.trans hall).trans ?_
              omega
          · have hvalid := length_records_le ledger
            have hkept := hk.stays
            have hfull : ledger.records.length = 2 ^ k := by
              rw [← hk.capacity]
              omega
            have hpos : 0 < 2 ^ k := Nat.two_pow_pos k
            have hmore : ledger.records.length ≤ (k + 1) * (depth - 1) := by
              rw [Nat.add_mul, Nat.one_mul]
              simp only at hwithin
              omega
            refine Or.inr ⟨k + 1, ?_, ?_, Or.inr ?_⟩
            · simp only [hgrown, hfull, pow_succ]
              omega
            · exact (hstays.le.trans hall).trans hmore
            · rw [Nat.add_sub_cancel, ← hfull]
              exact hmore
      · simp only [Ledger.step, hc, ne_eq, not_false_eq_true, if_true] at hs
        obtain rfl := Option.some.inj hs
        exact h
  | finish =>
      obtain ⟨records, hleave, rfl⟩ := Option.map_eq_some_iff.mp hs
      refine h.imp id ?_
      rintro ⟨k, hk⟩
      exact ⟨k, hk.capacity, (stays_leave hleave).trans_le hk.stays, hk.grew⟩

-- The records that are left behind are bounded once and for all by the depth of
-- the nesting, however many modules are executed: a table that has doubled `k`
-- times holds `k * (depth - 1)` of them at most, and is not larger than twice
-- that. Without nesting none is left.
theorem table_bounded {events : List Event} {last : Execution} {depth : Nat}
    (hload : ∀ event ∈ events, Loads event)
    (hguard : Respects Execution.step (fun execution event => execution.Fresh event ∧
      Within depth execution event) Execution.new events)
    (hr : run Execution.step Execution.new events = some last) :
    (last.linker.modules.capacity = 0 ∧ last.linker.modules.elements = []) ∨
      ∃ k, last.linker.modules.capacity = 2 ^ k ∧ (k = 0 ∨ 2 ^ (k - 1) ≤ k * (depth - 1)) ∧
        last.linker.modules.elements.length ≤ last.frames.length + k * (depth - 1) := by
  have hguard' := respects_and hguard hload
  obtain ⟨ledger, -, h, hb⟩ :=
    @exists_run_of_simulates _ _ Execution.step _ _ Ledger.step
      (fun execution ledger => Refines execution ledger ∧ Bounded depth ledger)
      (fun execution ledger event next h hg hs => by
        obtain ⟨after, hafter, hnext⟩ := h.1.step hg.1.1 hs
        refine ⟨after, hafter, hnext, h.2.step h.1.length_le hg.2 ?_ hafter⟩
        cases event with
        | exec memory header mode entries allocations =>
            have hrunning := h.1.holds.length_running ledger.capacity
            exact hrunning.trans_lt hg.1.2
        | finish => trivial)
      _ _ _ _ ⟨refines_new, Or.inl rfl⟩ hguard' hr
  have hlength : last.linker.modules.elements.length = ledger.records.length := by
    rw [h.elements]
    simp
  rcases hb with h0 | ⟨k, hk⟩
  · have := h.length_le
    exact Or.inl ⟨h.capacity.trans h0, List.eq_nil_of_length_eq_zero (by omega)⟩
  · have hvalid := length_records_le ledger
    have hrunning : ledger.running.length = last.frames.length :=
      h.holds.length_running ledger.capacity
    have hkept := hk.stays
    refine Or.inr ⟨k, h.capacity.trans hk.capacity, hk.grew, ?_⟩
    omega

-- The second module executes a third one, and a program follows when all are done.
def nestedAgain : List Event :=
  nested ++ [program 0x20007000 0x20007100, .finish, .finish, .finish,
    program 0x20008000 0x20008100, .finish]

theorem table_bounded_nested :
    ∃ last, run Execution.step Execution.new nestedAgain = some last ∧
      ((last.linker.modules.capacity = 0 ∧ last.linker.modules.elements = []) ∨
        ∃ k, last.linker.modules.capacity = 2 ^ k ∧ (k = 0 ∨ 2 ^ (k - 1) ≤ k * (3 - 1)) ∧
          last.linker.modules.elements.length ≤ last.frames.length + k * (3 - 1)) := by
  obtain ⟨last, hr⟩ : ∃ last, run Execution.step Execution.new nestedAgain = some last :=
    Option.isSome_iff_exists.mp (by decide)
  exact ⟨last, hr, table_bounded (by decide) (by decide) hr⟩

end Bound

end Msos.DynamicLinker.Nesting
