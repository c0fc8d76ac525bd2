import Msos.Kernel.ContextSwitch
import Msos.Kernel.Scheduler.Theorems

namespace Msos.Kernel.Session

open Msos.Library Msos.Library.Memory Msos.Library.Machine

section Frames

variable {memory other : Memory} {process : ArmProcess} {registers : Registers}

-- Where the context of a process that is not running lies.
structure Saved (memory : Memory) (process : ArmProcess) (registers : Registers) : Prop where
  guard_le : process.stack + guardSize ≤ process.currentStackPointer
  psp_eq : process.currentStackPointer + frames = registers.psp
  psp_le : registers.psp ≤ process.stack + process.stackSize
  software : memory.loadWords process.currentStackPointer 9 =
    registers.softwareStored ++ [returnToThreadModePsp]
  hardware : memory.loadWords (process.currentStackPointer + sizeofSoftwareStoredRegisters) 8 =
    registers.hardwareStored

def Guarded (memory : Memory) (process : ArmProcess) : Prop :=
  memory.readWord process.stack = stackGuard

theorem restoreRegisters_of_saved (hs : Saved memory process registers) :
    restoreRegisters memory process.currentStackPointer = some registers := by
  have hpsp := hs.psp_eq
  simp only [frames] at hpsp
  simp only [restoreRegisters, hs.software, hs.hardware]
  rw [show process.currentStackPointer + sizeofSoftwareStoredRegisters +
    sizeofHardwareStoredRegisters = registers.psp by omega]
  rfl

theorem validStackPointer_of_guarded (hg : Guarded memory process) :
    process.validStackPointer memory = process.currentStackPointer := by
  unfold ArmProcess.validStackPointer
  exact ite_cond_eq_true _ _ (eq_true hg)

-- A saved context depends on nothing but the stack of its process.
theorem Saved.of_agree (hs : Saved memory process registers)
    (h : ∀ address, process.stack ≤ address → address < process.stack + process.stackSize →
      other address = memory address) : Saved other process registers := by
  have hg := hs.guard_le
  have he := hs.psp_eq
  have hl := hs.psp_le
  simp only [frames, sizeofHardwareStoredRegisters, sizeofSoftwareStoredRegisters, guardSize] at hg he
  refine ⟨hs.guard_le, hs.psp_eq, hs.psp_le, ?_, ?_⟩
  · rw [← hs.software]
    apply loadWords_congr
    intro i hi
    apply h <;> omega
  · rw [← hs.hardware]
    apply loadWords_congr
    intro i hi
    simp only [sizeofSoftwareStoredRegisters]
    apply h <;> omega

theorem Guarded.of_agree (hg : Guarded memory process)
    (h : ∀ address, process.stack ≤ address → address < process.stack + guardSize →
      other address = memory address) : Guarded other process := by
  unfold Guarded at hg ⊢
  rw [← hg]
  apply readWord_congr
  intro i hi
  apply h _ (by omega)
  rw [guardSize]
  omega

-- The memory behind a switch from the given registers.
def stored (memory : Memory) (registers : Registers) : Memory :=
  (storeRegisters (exceptionEntry memory registers).1 registers
    (exceptionEntry memory registers).2).1

theorem stored_outside {address : Nat}
    (h : address < registers.psp - frames ∨ registers.psp ≤ address) (hl : frames ≤ registers.psp) :
    stored memory registers address = memory address := by
  simp only [frames, sizeofHardwareStoredRegisters, sizeofSoftwareStoredRegisters] at h hl
  simp only [stored, storeRegisters, exceptionEntry, sizeofHardwareStoredRegisters,
    sizeofSoftwareStoredRegisters]
  have hs : (registers.softwareStored ++ [returnToThreadModePsp]).length = 9 := rfl
  have hh : registers.hardwareStored.length = 8 := rfl
  rw [storeWords_outside _ (by rw [hs]; omega), storeWords_outside _ (by rw [hh]; omega)]

theorem saved_stored (hr : HasRoom process registers.psp) :
    Saved (stored memory registers)
      { process with currentStackPointer := registers.psp - frames } registers := by
  obtain ⟨hg, hl⟩ := hr
  simp only [frames, sizeofHardwareStoredRegisters, sizeofSoftwareStoredRegisters, guardSize] at hg
  refine ⟨?_, ?_, hl, ?_, ?_⟩
  · simp only [frames, sizeofHardwareStoredRegisters, sizeofSoftwareStoredRegisters, guardSize]
    omega
  · simp only [frames, sizeofHardwareStoredRegisters, sizeofSoftwareStoredRegisters]
    omega
  · have he : registers.psp - frames =
        registers.psp - sizeofHardwareStoredRegisters - sizeofSoftwareStoredRegisters := by
      simp only [frames]
      omega
    simp only [stored, storeRegisters, exceptionEntry, he]
    exact loadWords_storeWords _ _ (registers.softwareStored ++ [returnToThreadModePsp])
  · have he : registers.psp - frames + sizeofSoftwareStoredRegisters =
        registers.psp - sizeofHardwareStoredRegisters := by
      simp only [frames, sizeofHardwareStoredRegisters, sizeofSoftwareStoredRegisters]
      omega
    simp only [stored, storeRegisters, exceptionEntry, he]
    apply memory.loadWords_eq registers.hardwareStored
    intro i _
    have hs : (registers.softwareStored ++ [returnToThreadModePsp]).length = 9 := rfl
    apply storeWords_outside
    right
    rw [hs]
    simp only [sizeofHardwareStoredRegisters, sizeofSoftwareStoredRegisters]
    omega

end Frames

section Initialize

variable {memory : Memory} {stackSize stack : Nat} {processEntry arg exitHandler : Word}

theorem initializeStack_outside (hsize : frames + guardSize ≤ stackSize) {address : Nat}
    (h : address < stack ∨ stack + stackSize ≤ address) :
    initializeStack memory stackSize stack processEntry arg exitHandler address = memory address := by
  simp only [frames, sizeofHardwareStoredRegisters, sizeofSoftwareStoredRegisters, guardSize] at hsize
  simp only [initializeStack, sizeofHardwareStoredRegisters, sizeofSoftwareStoredRegisters]
  rw [storeWords_outside _ (by simp only [List.length_cons, List.length_nil]; omega),
    storeWords_outside _ (by simp only [List.length_cons, List.length_nil]; omega),
    storeWords_outside _ (by simp only [List.length_cons, List.length_nil]; omega),
    storeWords_outside _ (by simp only [List.length_cons, List.length_nil]; omega),
    writeWord_outside _ _ (by omega), fill_outside _ _ (by omega)]

theorem guarded_initializeStack (hsize : frames + guardSize ≤ stackSize) (pid : Int) :
    Guarded (initializeStack memory stackSize stack processEntry arg exitHandler)
      (ArmProcess.new pid stackSize stack) := by
  simp only [frames, sizeofHardwareStoredRegisters, sizeofSoftwareStoredRegisters, guardSize] at hsize
  unfold Guarded ArmProcess.new
  refine Eq.trans ?_ (readWord_writeWord_self (memory.fill stack stackSize 0) stack stackGuard)
  apply readWord_congr
  intro i hi
  simp only [initializeStack, sizeofHardwareStoredRegisters, sizeofSoftwareStoredRegisters]
  rw [storeWords_outside _ (by omega), storeWords_outside _ (by omega),
    storeWords_outside _ (by omega), storeWords_outside _ (by omega)]

-- The constructor lays out the frames of a process that was switched out
-- before its first instruction.
theorem saved_initializeStack (hsize : frames + guardSize ≤ stackSize) (pid : Int) :
    Saved (initializeStack memory stackSize stack processEntry arg exitHandler)
      (ArmProcess.new pid stackSize stack)
      (firstContext stackSize stack processEntry arg exitHandler) := by
  simp only [frames, sizeofHardwareStoredRegisters, sizeofSoftwareStoredRegisters, guardSize] at hsize
  obtain ⟨sp, hsp⟩ : ∃ sp, sp = stack + stackSize - 32 - 36 := ⟨_, rfl⟩
  have hcsp : (ArmProcess.new pid stackSize stack).currentStackPointer = sp := by
    rw [hsp]
    rfl
  have hstack : (ArmProcess.new pid stackSize stack).stack = stack := rfl
  obtain ⟨cleared, hc⟩ : ∃ cleared, cleared =
      (memory.fill stack stackSize 0).writeWord stack stackGuard := ⟨_, rfl⟩
  obtain ⟨args, ha⟩ : ∃ args, args = cleared.storeWords (sp + 36) [arg, 0, 0, 0] := ⟨_, rfl⟩
  obtain ⟨zeros, hz⟩ : ∃ zeros, zeros = args.storeWords sp [0, 0, 0, 0, 0, 0, 0, 0] := ⟨_, rfl⟩
  obtain ⟨entry, he⟩ : ∃ entry, entry =
      zeros.storeWords (sp + 36 + 20) [exitHandler, processEntry, defaultPsrStatus] := ⟨_, rfl⟩
  have hinit : initializeStack memory stackSize stack processEntry arg exitHandler =
      entry.storeWords (sp + 32) [returnToThreadModePsp] := by
    rw [he, hz, ha, hc, hsp]
    rfl
  refine ⟨?_, ?_, ?_, ?_, ?_⟩
  · rw [hcsp, hstack, guardSize]
    omega
  · rw [hcsp, frames, sizeofHardwareStoredRegisters, sizeofSoftwareStoredRegisters]
    simp only [firstContext]
    omega
  · exact Nat.le_refl _
  · rw [hcsp, hinit, show (9 : Nat) = 8 + 1 from rfl, loadWords_add]
    have hzeros : (entry.storeWords (sp + 32) [returnToThreadModePsp]).loadWords sp 8 =
        [0, 0, 0, 0, 0, 0, 0, 0] := by
      apply args.loadWords_eq [0, 0, 0, 0, 0, 0, 0, 0]
      intro i hi
      simp only [List.length_cons, List.length_nil] at hi
      rw [storeWords_outside _ (by omega), he, storeWords_outside _ (by omega), hz]
    have hreturn : (entry.storeWords (sp + 32) [returnToThreadModePsp]).loadWords (sp + 4 * 8) 1 =
        [returnToThreadModePsp] := loadWords_storeWords _ (sp + 32) [returnToThreadModePsp]
    rw [hzeros, hreturn]
    rfl
  · rw [hcsp, hinit, sizeofSoftwareStoredRegisters, show (8 : Nat) = 4 + (1 + 3) from rfl,
      loadWords_add, loadWords_add]
    have hargs : (entry.storeWords (sp + 32) [returnToThreadModePsp]).loadWords (sp + 36) 4 =
        [arg, 0, 0, 0] := by
      apply cleared.loadWords_eq [arg, 0, 0, 0]
      intro i hi
      simp only [List.length_cons, List.length_nil] at hi
      rw [storeWords_outside _ (by simp only [List.length_cons, List.length_nil]; omega), he,
        storeWords_outside _ (by omega), hz, storeWords_outside _ (by
          simp only [List.length_cons, List.length_nil]; omega), ha]
    have hr12 : (entry.storeWords (sp + 32) [returnToThreadModePsp]).loadWords (sp + 36 + 4 * 4) 1 =
        [0] := by
      have hagree : (entry.storeWords (sp + 32) [returnToThreadModePsp]).readWord (sp + 36 + 4 * 4) =
          (memory.fill stack stackSize 0).readWord (sp + 36 + 4 * 4) := by
        apply readWord_congr
        intro i hi
        rw [storeWords_outside _ (by simp only [List.length_cons, List.length_nil]; omega), he,
          storeWords_outside _ (by omega), hz,
          storeWords_outside _ (by simp only [List.length_cons, List.length_nil]; omega), ha,
          storeWords_outside _ (by simp only [List.length_cons, List.length_nil]; omega), hc,
          writeWord_outside _ _ (by omega)]
      rw [loadWords, loadWords, hagree, memory.readWord_fill_zero (by omega) (by omega)]
      rfl
    have hentry : (entry.storeWords (sp + 32) [returnToThreadModePsp]).loadWords
        (sp + 36 + 4 * 4 + 4 * 1) 3 = [exitHandler, processEntry, defaultPsrStatus] := by
      apply zeros.loadWords_eq [exitHandler, processEntry, defaultPsrStatus]
      intro i hi
      rw [storeWords_outside _ (by simp only [List.length_cons, List.length_nil]; omega), he]
    rw [hargs, hr12, hentry]
    rfl

end Initialize

section Invariant

variable {memory other : Memory} {scheduler : Scheduler} {contexts : Nat → Registers}
  {running : Option Nat}

-- Every process but the running one has its context saved in its own stack.
structure Kept (memory : Memory) (scheduler : Scheduler) (contexts : Nat → Registers)
    (running : Option Nat) : Prop where
  currentValid : scheduler.CurrentValid
  not_running : ∀ id process, scheduler.processes.get? id = some process → process.state ≠ .running
  guard_le : ∀ id process, scheduler.processes.get? id = some process →
    guardSize ≤ process.stackSize
  apart : ∀ id process id' process', scheduler.processes.get? id = some process →
    scheduler.processes.get? id' = some process' → id ≠ id' →
      process.stack + process.stackSize ≤ process'.stack ∨
        process'.stack + process'.stackSize ≤ process.stack
  guarded : ∀ id process, scheduler.processes.get? id = some process → Guarded memory process
  saved : ∀ id process, scheduler.processes.get? id = some process → running ≠ some id →
    Saved memory process (contexts id)

inductive Invariant (session : Session) : Prop
  | waiting (hs : session.started = false)
      (hk : Kept session.core.memory session.core.scheduler session.contexts none)
  | running (id : Nat) (process : ArmProcess) (hs : session.started = true)
      (hc : session.core.scheduler.current = some id)
      (hg : session.core.scheduler.processes.get? id = some process)
      (hr : HasRoom process session.core.registers.psp)
      (hk : Kept session.core.memory session.core.scheduler session.contexts (some id))

theorem Kept.of_current (hk : Kept memory scheduler contexts running) {id : Nat}
    (hm : id ∈ scheduler.processes.ids) :
    Kept memory { scheduler with current := some id } contexts running where
  currentValid := fun _ h => Option.some.inj h ▸ hm
  not_running := hk.not_running
  guard_le := hk.guard_le
  apart := hk.apart
  guarded := hk.guarded
  saved := hk.saved

-- Memory that changes nowhere in the stack of a process that is not running,
-- nor in the guard of the running one.
theorem Kept.of_memory (hk : Kept memory scheduler contexts running)
    (hother : ∀ id process, scheduler.processes.get? id = some process → running ≠ some id →
      ∀ address, process.stack ≤ address → address < process.stack + process.stackSize →
        other address = memory address)
    (hguard : ∀ id process, scheduler.processes.get? id = some process → running = some id →
      ∀ address, process.stack ≤ address → address < process.stack + guardSize →
        other address = memory address) :
    Kept other scheduler contexts running where
  currentValid := hk.currentValid
  not_running := hk.not_running
  guard_le := hk.guard_le
  apart := hk.apart
  guarded := by
    intro id process hg
    have hle := hk.guard_le id process hg
    by_cases hr : running = some id
    · exact (hk.guarded id process hg).of_agree (hguard id process hg hr)
    · apply (hk.guarded id process hg).of_agree
      intro address hl hu
      exact hother id process hg hr address hl (by omega)
  saved := fun id process hg hr => (hk.saved id process hg hr).of_agree (hother id process hg hr)

structure SameStack (process changed : ArmProcess) : Prop where
  stack_eq : changed.stack = process.stack
  stackSize_eq : changed.stackSize = process.stackSize
  pointer_eq : changed.currentStackPointer = process.currentStackPointer

theorem Saved.of_sameStack {process changed : ArmProcess} {registers : Registers}
    (hs : Saved memory process registers) (h : SameStack process changed) :
    Saved memory changed registers := by
  refine ⟨?_, ?_, ?_, ?_, ?_⟩
  · rw [h.stack_eq, h.pointer_eq]
    exact hs.guard_le
  · rw [h.pointer_eq]
    exact hs.psp_eq
  · rw [h.stack_eq, h.stackSize_eq]
    exact hs.psp_le
  · rw [h.pointer_eq]
    exact hs.software
  · rw [h.pointer_eq]
    exact hs.hardware

-- Changes of the process states only.
theorem Kept.of_processes (hk : Kept memory scheduler contexts running)
    {processes : LinkedList ArmProcess} (hids : processes.ids = scheduler.processes.ids)
    (h : ∀ id changed, processes.get? id = some changed → changed.state ≠ .running ∧
      ∃ process, scheduler.processes.get? id = some process ∧ SameStack process changed) :
    Kept memory { scheduler with processes := processes } contexts running where
  currentValid := by
    intro id hid
    rw [hids]
    exact hk.currentValid id hid
  not_running := fun id changed hg => (h id changed hg).1
  guard_le := by
    intro id changed hg
    obtain ⟨_, process, hp, hs⟩ := h id changed hg
    rw [hs.stackSize_eq]
    exact hk.guard_le id process hp
  apart := by
    intro id changed id' changed' hg hg' hne
    obtain ⟨_, process, hp, hs⟩ := h id changed hg
    obtain ⟨_, process', hp', hs'⟩ := h id' changed' hg'
    rw [hs.stack_eq, hs.stackSize_eq, hs'.stack_eq, hs'.stackSize_eq]
    exact hk.apart id process id' process' hp hp' hne
  guarded := by
    intro id changed hg
    obtain ⟨_, process, hp, hs⟩ := h id changed hg
    unfold Guarded
    rw [hs.stack_eq]
    exact hk.guarded id process hp
  saved := by
    intro id changed hg hr
    obtain ⟨_, process, hp, hs⟩ := h id changed hg
    exact (hk.saved id process hp hr).of_sameStack hs

theorem kept_initial (memory : Memory) (contexts : Nat → Registers) :
    Kept memory Scheduler.initial contexts none where
  currentValid := Scheduler.consistent_initial.currentValid
  not_running := fun _ _ h => by cases h
  guard_le := fun _ _ h => by cases h
  apart := fun _ _ _ _ h => by cases h
  guarded := fun _ _ h => by cases h
  saved := fun _ _ h => by cases h

end Invariant

section Events

variable {memory : Memory} {scheduler : Scheduler} {contexts : Nat → Registers}
  {running : Option Nat}

theorem kept_createProcess (hk : Kept memory scheduler contexts running) {stackSize stack : Nat}
    (hsize : frames + guardSize < stackSize)
    (hfree : ∀ process ∈ scheduler.processes.values, ¬Overlaps process stackSize stack)
    (processEntry arg exitHandler : Word) :
    Kept (initializeStack memory stackSize stack processEntry arg exitHandler)
      (scheduler.createProcess stackSize stack)
      (Function.update contexts scheduler.processes.allocated
        (firstContext stackSize stack processEntry arg exitHandler)) running := by
  have hapart : ∀ id process, scheduler.processes.get? id = some process →
      process.stack + process.stackSize ≤ stack ∨ stack + stackSize ≤ process.stack := by
    intro id process hg
    have := hfree process (scheduler.processes.mem_values_of_get? hg)
    unfold Overlaps at this
    omega
  have hagree : ∀ id process, scheduler.processes.get? id = some process →
      ∀ address, process.stack ≤ address → address < process.stack + process.stackSize →
        initializeStack memory stackSize stack processEntry arg exitHandler address =
          memory address := by
    intro id process hg address hl hu
    apply initializeStack_outside (Nat.le_of_lt hsize)
    have := hapart id process hg
    omega
  have hcases : ∀ id process, (scheduler.createProcess stackSize stack).processes.get? id =
      some process → scheduler.processes.get? id = some process ∨
        id = scheduler.processes.allocated ∧
          process = ArmProcess.new scheduler.pidCounter stackSize stack :=
    fun id process hg => LinkedList.get?_pushBack_cases _ hg
  have hold : ∀ id process, scheduler.processes.get? id = some process →
      id ≠ scheduler.processes.allocated := by
    intro id process hg he
    exact scheduler.processes.allocated_notMem (he ▸ scheduler.processes.mem_ids_of_get? hg)
  refine ⟨fun id hid => ?_, fun id process hg => ?_, fun id process hg => ?_,
    fun id process id' process' hg hg' hne => ?_, fun id process hg => ?_,
    fun id process hg hr => ?_⟩
  · simp only [Scheduler.createProcess, LinkedList.ids_pushBack, List.mem_append]
    exact Or.inl (hk.currentValid id hid)
  · rcases hcases id process hg with hg | ⟨_, rfl⟩
    · exact hk.not_running id process hg
    · simp [ArmProcess.new]
  · rcases hcases id process hg with hg | ⟨_, rfl⟩
    · exact hk.guard_le id process hg
    · simp only [ArmProcess.new]
      omega
  · rcases hcases id process hg with hg | ⟨he, rfl⟩
    · rcases hcases id' process' hg' with hg' | ⟨_, rfl⟩
      · exact hk.apart id process id' process' hg hg' hne
      · exact hapart id process hg
    · rcases hcases id' process' hg' with hg' | ⟨he', rfl⟩
      · exact (hapart id' process' hg').symm
      · exact absurd (he.trans he'.symm) hne
  · rcases hcases id process hg with hg | ⟨_, rfl⟩
    · have hle := hk.guard_le id process hg
      apply (hk.guarded id process hg).of_agree
      intro address hl hu
      exact hagree id process hg address hl (by omega)
    · exact guarded_initializeStack (Nat.le_of_lt hsize) _
  · rcases hcases id process hg with hg | ⟨rfl, rfl⟩
    · rw [Function.update_of_ne (hold id process hg)]
      exact (hk.saved id process hg hr).of_agree (hagree id process hg)
    · rw [Function.update_self]
      exact saved_initializeStack (Nat.le_of_lt hsize) _

-- A process that is resumed gets the registers it was stored with.
theorem switchToNextTask_of_kept (hk : Kept memory scheduler contexts none)
    (hready : AnyReady scheduler) :
    ∃ id process, Core.switchToNextTask memory scheduler =
        some ⟨memory, contexts id, { scheduler with current := some id }⟩ ∧
      scheduler.processes.get? id = some process ∧ HasRoom process (contexts id).psp ∧
        Kept memory { scheduler with current := some id } contexts (some id) := by
  have hrun : ∀ process ∈ scheduler.processes.values, process.state ≠ .running := by
    intro process hm
    obtain ⟨id, hg⟩ := scheduler.processes.exists_get?_of_mem_values hm
    exact hk.not_running id process hg
  obtain ⟨id, process, hs, hg, _⟩ := Scheduler.scheduleNext_of_ready hk.currentValid hrun hready
  have hsaved := hk.saved id process hg (by simp)
  have hcurrent := @Scheduler.currentProcess_eq { scheduler with current := some id } id process
    rfl hg
  refine ⟨id, process, ?_, hg, ?_, ?_⟩
  · simp only [Core.switchToNextTask, Scheduler.getNextTask, hs, hcurrent, bind, Except.bind, pure,
      Except.pure, validStackPointer_of_guarded (hk.guarded id process hg),
      restoreRegisters_of_saved hsaved, Option.map_some]
  · have hle := hsaved.guard_le
    have heq := hsaved.psp_eq
    exact ⟨by omega, hsaved.psp_le⟩
  · have hkept := hk.of_current (scheduler.processes.mem_ids_of_get? hg)
    exact ⟨hkept.currentValid, hkept.not_running, hkept.guard_le, hkept.apart, hkept.guarded,
      fun id' process' hg' _ => hkept.saved id' process' hg' (by simp)⟩

-- Storing the running process leaves no process running.
theorem kept_stored {id : Nat} {process : ArmProcess} {registers : Registers}
    (hk : Kept memory scheduler contexts (some id)) (hc : scheduler.current = some id)
    (hg : scheduler.processes.get? id = some process) (hr : HasRoom process registers.psp) :
    Kept (stored memory registers) (updateStackPointer scheduler (registers.psp - frames))
      (Function.update contexts id registers) none := by
  have hpsp := hr
  unfold HasRoom at hpsp
  have hagree : ∀ id' process', scheduler.processes.get? id' = some process' → id' ≠ id →
      ∀ address, process'.stack ≤ address → address < process'.stack + process'.stackSize →
        stored memory registers address = memory address := by
    intro id' process' hg' hne address hl hu
    have hapart := hk.apart id' process' id process hg' hg hne
    apply stored_outside <;> omega
  have hcases : ∀ id' process', (updateStackPointer scheduler
      (registers.psp - frames)).processes.get? id' = some process' →
        id' ≠ id ∧ scheduler.processes.get? id' = some process' ∨
          id' = id ∧ process' = { process with currentStackPointer := registers.psp - frames } := by
    intro id' process' hg'
    simp only [updateStackPointer, hc] at hg'
    by_cases hne : id' = id
    · subst hne
      rw [LinkedList.get?_update_self, hg] at hg'
      exact Or.inr ⟨rfl, (Option.some.inj hg').symm⟩
    · rw [LinkedList.get?_update_of_ne _ hne] at hg'
      exact Or.inl ⟨hne, hg'⟩
  have hguard : Guarded (stored memory registers) process := by
    apply (hk.guarded id process hg).of_agree
    intro address hl hu
    apply stored_outside <;> omega
  refine ⟨fun id' hid => ?_, fun id' process' hg' => ?_, fun id' process' hg' => ?_,
    fun id' process' id'' process'' hg' hg'' hne => ?_, fun id' process' hg' => ?_,
    fun id' process' hg' _ => ?_⟩
  · simp only [updateStackPointer, hc, LinkedList.ids_update] at hid ⊢
    exact hk.currentValid id' (hc.trans hid)
  · rcases hcases id' process' hg' with ⟨_, hg'⟩ | ⟨_, rfl⟩
    · exact hk.not_running id' process' hg'
    · exact hk.not_running id process hg
  · rcases hcases id' process' hg' with ⟨_, hg'⟩ | ⟨_, rfl⟩
    · exact hk.guard_le id' process' hg'
    · exact hk.guard_le id process hg
  · rcases hcases id' process' hg' with ⟨_, hg'⟩ | ⟨he', rfl⟩
    · rcases hcases id'' process'' hg'' with ⟨_, hg''⟩ | ⟨rfl, rfl⟩
      · exact hk.apart id' process' id'' process'' hg' hg'' hne
      · exact hk.apart id' process' id'' process hg' hg hne
    · rcases hcases id'' process'' hg'' with ⟨_, hg''⟩ | ⟨he'', rfl⟩
      · exact hk.apart id process id'' process'' hg hg'' (he' ▸ hne)
      · exact absurd (he'.trans he''.symm) hne
  · rcases hcases id' process' hg' with ⟨hne, hg'⟩ | ⟨_, rfl⟩
    · have hle := hk.guard_le id' process' hg'
      apply (hk.guarded id' process' hg').of_agree
      intro address hl hu
      exact hagree id' process' hg' hne address hl (by omega)
    · exact hguard
  · rcases hcases id' process' hg' with ⟨hne, hg'⟩ | ⟨rfl, rfl⟩
    · rw [Function.update_of_ne hne]
      apply (hk.saved id' process' hg' (by simpa using hne.symm)).of_agree
      exact hagree id' process' hg' hne
    · rw [Function.update_self]
      exact saved_stored hr

theorem writeBytes_outside {writes : List (Nat × UInt8)} {address : Nat}
    (h : ∀ write ∈ writes, write.1 ≠ address) : writeBytes memory writes address = memory address := by
  induction writes generalizing memory with
  | nil => rfl
  | cons write rest ih =>
      have hne := h write List.mem_cons_self
      have hfirst : memory.store write.1 [write.2] address = memory address := by
        rcases Nat.lt_or_gt_of_ne hne with hlt | hgt
        · exact store_of_le _ (by rw [List.length_singleton]; omega)
        · exact store_of_lt _ _ hgt
      exact (ih fun other hm => h other (List.mem_cons_of_mem _ hm)).trans hfirst

theorem kept_execute {id : Nat} (hk : Kept memory scheduler contexts (some id))
    {writes : List (Nat × UInt8)} (hw : ∀ write ∈ writes, MayWrite scheduler id write.1) :
    Kept (writeBytes memory writes) scheduler contexts (some id) := by
  apply hk.of_memory
  · intro id' process' hg' hne address hl hu
    apply writeBytes_outside
    intro write hm he
    have := hw write hm (id', process') (scheduler.processes.get?_eq_some_iff.mp hg')
    have hne' : id' ≠ id := fun h => hne (congrArg some h.symm)
    simp only [hne', ite_false, Outside] at this
    omega
  · intro id' process' hg' he' address hl hu
    apply writeBytes_outside
    intro write hm he
    have := hw write hm (id', process') (scheduler.processes.get?_eq_some_iff.mp hg')
    simp only [Option.some.inj he', ite_true, Outside] at this
    omega

theorem sameStack_block (process : ArmProcess) (semaphore : Nat) :
    SameStack process (process.block semaphore) := ⟨rfl, rfl, rfl⟩

theorem sameStack_unblock (process : ArmProcess) (semaphore : Nat) :
    SameStack process (process.unblock semaphore) := by
  unfold ArmProcess.unblock
  split <;> exact ⟨rfl, rfl, rfl⟩

theorem state_unblock_ne_running {process : ArmProcess} (h : process.state ≠ .running)
    (semaphore : Nat) : (process.unblock semaphore).state ≠ .running := by
  by_cases hm : semaphore ∈ process.locks
  · rw [ArmProcess.unblock_of_mem _ _ hm]
    by_cases he : process.locks.erase semaphore = []
    · simp [he]
    · simpa [he] using h
  · rwa [ArmProcess.unblock_of_notMem _ _ hm]

theorem kept_block {id : Nat} (hk : Kept memory scheduler contexts (some id))
    (semaphore : Nat) :
    Kept memory
      { scheduler with
        processes := scheduler.processes.update id fun process => process.block semaphore }
      contexts (some id) := by
  apply hk.of_processes (LinkedList.ids_update ..)
  intro id' changed hg
  by_cases he : id' = id
  · subst he
    rw [LinkedList.get?_update_self, Option.map_eq_some_iff] at hg
    obtain ⟨process, hp, rfl⟩ := hg
    exact ⟨by simp, process, hp, sameStack_block process semaphore⟩
  · rw [LinkedList.get?_update_of_ne _ he] at hg
    exact ⟨hk.not_running id' changed hg, changed, hg, ⟨rfl, rfl, rfl⟩⟩

theorem kept_unblockAll (hk : Kept memory scheduler contexts running) (semaphore : Nat) :
    Kept memory (scheduler.unblockAll semaphore) contexts running := by
  apply hk.of_processes (LinkedList.ids_mapValues ..)
  intro id changed hg
  rw [LinkedList.get?_mapValues, Option.map_eq_some_iff] at hg
  obtain ⟨process, hp, rfl⟩ := hg
  exact ⟨state_unblock_ne_running (hk.not_running id process hp) semaphore, process, hp,
    sameStack_unblock process semaphore⟩

end Events

section Runs

variable {exitHandler : Word} {session next : Session}

-- The memory, list and record that a switch continues with lose nothing.
theorem resume (hi : session.Invariant) {event : Event} (he : event = .switch ∨ event = .start)
    (ha : session.Assumed event) :
    ∃ next id, session.step exitHandler event = some next ∧
      next.core.scheduler.current = some id ∧ next.core.registers = next.contexts id ∧
        next.Invariant := by
  rw [step, ite_cond_eq_true _ _ (eq_true ha)]
  rcases he with rfl | rfl
  · obtain ⟨hs, ready, hm, hready⟩ := ha
    cases hi with
    | waiting hf _ => simp [hs] at hf
    | running id process _ hc hg hr hk =>
        have hstored := kept_stored hk hc hg hr
        have hready' : AnyReady (updateStackPointer session.core.scheduler
            (session.core.registers.psp - frames)) := by
          obtain ⟨readyId, hrg⟩ := session.core.scheduler.processes.exists_get?_of_mem_values hm
          simp only [updateStackPointer, hc]
          by_cases he : readyId = id
          · subst he
            have hu := session.core.scheduler.processes.get?_update_self readyId
              fun process => { process with
                currentStackPointer := session.core.registers.psp - frames }
            rw [hrg] at hu
            exact ⟨_, LinkedList.mem_values_of_get? _ hu, hready⟩
          · have hu := session.core.scheduler.processes.get?_update_of_ne he
              fun process => { process with
                currentStackPointer := session.core.registers.psp - frames }
            exact ⟨ready, LinkedList.mem_values_of_get? _ (hu.trans hrg), hready⟩
        obtain ⟨nextId, found, hswitch, hg', hr', hk'⟩ := switchToNextTask_of_kept hstored hready'
        have hsub : session.core.registers.psp - sizeofHardwareStoredRegisters -
            sizeofSoftwareStoredRegisters = session.core.registers.psp - frames := by
          rw [Nat.sub_sub, frames]
        have hstore : session.core.storeAndSwitchToNextTask =
            Core.switchToNextTask (stored session.core.memory session.core.registers)
              (updateStackPointer session.core.scheduler
                (session.core.registers.psp - frames)) := by
          rw [← hsub]
          rfl
        have hrecord : session.record =
            Function.update session.contexts id session.core.registers := by
          simp [record, hc]
        refine ⟨_, nextId, by rw [perform, hstore, hswitch]; rfl, rfl, ?_, ?_⟩
        · rw [hrecord]
        · rw [hrecord]
          exact .running nextId found hs rfl hg' hr' hk'
  · obtain ⟨hs, hready⟩ := ha
    cases hi with
    | running id process ht _ _ _ _ => simp [hs] at ht
    | waiting _ hk =>
        have hrun : ∀ process ∈ session.core.scheduler.processes.values,
            process.state ≠ .running := by
          intro process hm
          obtain ⟨id, hg⟩ := session.core.scheduler.processes.exists_get?_of_mem_values hm
          exact hk.not_running id process hg
        obtain ⟨first, process, hf, hg, _⟩ :=
          Scheduler.scheduleNext_of_ready hk.currentValid hrun hready
        have hkf := hk.of_current (session.core.scheduler.processes.mem_ids_of_get? hg)
        obtain ⟨nextId, found, hswitch, hg', hr', hk'⟩ := switchToNextTask_of_kept hkf hready
        have hstart : Core.startRootProcess session.core.memory session.core.scheduler =
            Core.switchToNextTask session.core.memory
              { session.core.scheduler with current := some first } := by
          simp only [Core.startRootProcess, hf]
        refine ⟨_, nextId, by rw [perform, hstart, hswitch]; rfl, rfl, rfl, ?_⟩
        exact .running nextId found rfl rfl hg' hr' hk'

theorem invariant_step (hi : session.Invariant) {event : Event}
    (hs : session.step exitHandler event = some next) : next.Invariant := by
  have ha : session.Assumed event := by
    by_contra hn
    rw [step, ite_cond_eq_false _ _ (eq_false hn)] at hs
    cases hs
  by_cases he : event = .switch ∨ event = .start
  · obtain ⟨resumed, _, hr, _, _, hinv⟩ := @resume exitHandler session hi event he ha
    obtain rfl := Option.some.inj (hr.symm.trans hs)
    exact hinv
  · rw [step, ite_cond_eq_true _ _ (eq_true ha)] at hs
    cases event with
    | switch => exact absurd (Or.inl rfl) he
    | start => exact absurd (Or.inr rfl) he
    | createProcess processEntry arg stackSize stack =>
        obtain rfl := Option.some.inj hs
        obtain ⟨_, hsize, hfree⟩ := ha
        cases hi with
        | waiting hf hk => exact .waiting hf (kept_createProcess hk hsize hfree _ _ _)
        | running id process ht hc hg hr hk =>
            have hm := session.core.scheduler.processes.mem_ids_of_get? hg
            exact .running id process ht hc ((LinkedList.get?_pushBack_of_mem _ hm _).trans hg) hr
              (kept_createProcess hk hsize hfree _ _ _)
    | execute registers writes =>
        obtain rfl := Option.some.inj hs
        obtain ⟨hstarted, current, hcurrent, ⟨found, hfound, hroom⟩, hwrites⟩ := ha
        cases hi with
        | waiting hf _ => simp [hstarted] at hf
        | running id process ht hc hg hr hk =>
            obtain rfl : id = current := Option.some.inj (hc.symm.trans hcurrent)
            obtain rfl : process = found := Option.some.inj (hg.symm.trans hfound)
            exact .running id process ht hc hg hroom (kept_execute hk hwrites)
    | block semaphore =>
        have hstarted : session.started = true := ha
        cases hi with
        | waiting hf _ => simp [hstarted] at hf
        | running id process ht hc hg hr hk =>
            simp only [perform, Scheduler.block, hc, Scheduler.deref_eq_ok hg, Except.map] at hs
            obtain rfl := Option.some.inj hs
            refine .running id (process.block semaphore) ht rfl ?_ hr ?_
            · rw [LinkedList.get?_update_self, hg]
              rfl
            · have hkept := kept_block hk semaphore
              rwa [hc] at hkept
    | unblockAll semaphore =>
        obtain rfl := Option.some.inj hs
        cases hi with
        | waiting hf hk => exact .waiting hf (kept_unblockAll hk semaphore)
        | running id process ht hc hg hr hk =>
            refine .running id (process.unblock semaphore) ht hc ?_ ?_ (kept_unblockAll hk semaphore)
            · rw [Scheduler.unblockAll, LinkedList.get?_mapValues, hg]
              rfl
            · have hsame := sameStack_unblock process semaphore
              unfold HasRoom
              rw [hsame.stack_eq, hsame.stackSize_eq]
              exact hr

-- Whatever happens in between, each process is resumed as it was switched out.
theorem resumesExactly (exitHandler : Word) (memory : Memory) (registers : Registers)
    (events : List Event) :
    Throughout (step exitHandler) (ResumesExactly exitHandler) (boot memory registers) events := by
  refine throughout_of_invariant Invariant ?_ (fun _ _ _ hi hs => invariant_step hi hs)
    (.waiting rfl (kept_initial memory _)) events
  intro session hi event he ha
  obtain ⟨next, id, hs, hc, hr, _⟩ := @resume exitHandler session hi event he ha
  exact ⟨next, id, hs, hc, hr⟩

def powerUp : Session := boot (fun _ => 0) (firstContext 0 0 0 0 0)

-- Some registers of the second process, which is the first one to run
def working : Registers :=
  ⟨1, 2, 3, 4, 5, 6, 7, 8, 9, 10, 11, 12, 13, 14, 0x08002010, 0x61000000, 0x200000f0⟩

def twoProcesses : List Event :=
  [.createProcess 0x08001000 7 128 0x20000000, .createProcess 0x08002000 0 128 0x20000080, .start,
    .execute working [(0x200000f8, 42)], .switch]

-- The switch starts the other process, and the next one resumes the first.
example : (run (step 0x08003000) powerUp twoProcesses).map (·.core.registers) =
    some (firstContext 128 0x20000000 0x08001000 7 0x08003000) := by decide +kernel

example : (run (step 0x08003000) powerUp (twoProcesses ++ [.switch])).map (·.core.registers) =
    some working := by decide +kernel

end Runs

end Msos.Kernel.Session
