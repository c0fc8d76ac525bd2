import Msos.Kernel.Scheduler
import Msos.Library.Memory
import Mathlib.Logic.Function.Basic

namespace Msos.Kernel

open Msos.Library Msos.Library.Memory Msos.Library.Machine

-- The registers that a process runs with.
structure Registers where
  r0 : Word
  r1 : Word
  r2 : Word
  r3 : Word
  r4 : Word
  r5 : Word
  r6 : Word
  r7 : Word
  r8 : Word
  r9 : Word
  r10 : Word
  r11 : Word
  r12 : Word
  lr : Word
  pc : Word
  psr : Word
  psp : Nat
deriving DecidableEq, Repr

namespace Registers

-- HardwareStoredRegisters, in the order of its members
def hardwareStored (registers : Registers) : List Word :=
  [registers.r0, registers.r1, registers.r2, registers.r3, registers.r12, registers.lr,
    registers.pc, registers.psr]

-- r4 to r11 of SoftwareStoredRegisters; its lr is the exception return value.
def softwareStored (registers : Registers) : List Word :=
  [registers.r4, registers.r5, registers.r6, registers.r7, registers.r8, registers.r9,
    registers.r10, registers.r11]

-- The registers after both frames are popped.
def ofStored (software hardware : List Word) (psp : Nat) : Registers where
  r0 := hardware.getD 0 0
  r1 := hardware.getD 1 0
  r2 := hardware.getD 2 0
  r3 := hardware.getD 3 0
  r4 := software.getD 0 0
  r5 := software.getD 1 0
  r6 := software.getD 2 0
  r7 := software.getD 3 0
  r8 := software.getD 4 0
  r9 := software.getD 5 0
  r10 := software.getD 6 0
  r11 := software.getD 7 0
  r12 := hardware.getD 4 0
  lr := hardware.getD 5 0
  pc := hardware.getD 6 0
  psr := hardware.getD 7 0
  psp := psp

end Registers

def returnToThreadModePsp : Word := 0xfffffffd

def defaultPsrStatus : Word := 0x21000000

-- The word that the constructor puts at the bottom of a stack.
def stackGuard : Nat := 0xdeadbeef

-- The memory after the constructor of ArmProcess: the new stack is zeroed, and
-- r12 of the hardware frame is not set.
def initializeStack (memory : Memory) (stackSize stack : Nat) (processEntry arg exitHandler : Word) :
    Memory :=
  let memory := memory.fill stack stackSize 0
  let memory := memory.writeWord stack stackGuard
  let stackPtr := stack + stackSize - sizeofHardwareStoredRegisters - sizeofSoftwareStoredRegisters
  let hwRegisters := stackPtr + sizeofSoftwareStoredRegisters
  let memory := memory.storeWords hwRegisters [arg, 0, 0, 0]
  let memory := memory.storeWords stackPtr [0, 0, 0, 0, 0, 0, 0, 0]
  let memory := memory.storeWords (hwRegisters + 20) [exitHandler, processEntry, defaultPsrStatus]
  memory.storeWords (stackPtr + 32) [returnToThreadModePsp]

-- Exception entry from a process: the hardware pushes its frame on PSP.
def exceptionEntry (memory : Memory) (registers : Registers) : Memory × Nat :=
  let psp := registers.psp - sizeofHardwareStoredRegisters
  (memory.storeWords psp registers.hardwareStored, psp)

-- stmdb r0!, {r4-r11, lr} from PSP, with lr as exception entry sets it.
def storeRegisters (memory : Memory) (registers : Registers) (psp : Nat) : Memory × Nat :=
  let r0 := psp - sizeofSoftwareStoredRegisters
  (memory.storeWords r0 (registers.softwareStored ++ [returnToThreadModePsp]), r0)

-- ldmia r0!, {r4-r11, lr}, then the exception return that pops the hardware
-- frame; none if lr is not the value that returns to a process.
def restoreRegisters (memory : Memory) (r0 : Nat) : Option Registers :=
  let software := memory.loadWords r0 9
  let psp := r0 + sizeofSoftwareStoredRegisters
  if software.getD 8 0 = returnToThreadModePsp then
    some (Registers.ofStored software (memory.loadWords psp 8) (psp + sizeofHardwareStoredRegisters))
  else
    none

-- ArmProcess::current_stack_pointer; 0 is the null pointer.
def ArmProcess.validStackPointer (memory : Memory) (process : ArmProcess) : Nat :=
  if memory.readWord process.stack = stackGuard then process.currentStackPointer else 0

def updateStackPointer (scheduler : Scheduler) (stack : Nat) : Scheduler :=
  match scheduler.current with
  | none => scheduler
  | some id => { scheduler with processes :=
      scheduler.processes.update id fun process => { process with currentStackPointer := stack } }

structure Core where
  memory : Memory
  registers : Registers
  scheduler : Scheduler

namespace Core

-- switch_to_next_task; none where it does not resume a process.
def switchToNextTask (memory : Memory) (scheduler : Scheduler) : Option Core :=
  match scheduler.getNextTask with
  | .ok (some scheduler) =>
      match scheduler.currentProcess with
      | .ok (some process) =>
          (restoreRegisters memory (process.validStackPointer memory)).map fun registers =>
            ⟨memory, registers, scheduler⟩
      | _ => none
  | _ => none

-- PendSV, from exception entry to exception return.
def storeAndSwitchToNextTask (core : Core) : Option Core :=
  let (memory, psp) := exceptionEntry core.memory core.registers
  let (memory, r0) := storeRegisters memory core.registers psp
  switchToNextTask memory (updateStackPointer core.scheduler r0)

-- spawn_root_process and its SVC
def startRootProcess (memory : Memory) (scheduler : Scheduler) : Option Core :=
  match scheduler.scheduleNext with
  | .ok (some scheduler) => switchToNextTask memory scheduler
  | _ => none

end Core

-- The machine with a record of its own: the registers that each process, by
-- its node in the list, has to be resumed with.
structure Session where
  core : Core
  started : Bool
  contexts : Nat → Registers

namespace Session

-- What a process may do to the machine until the next switch is any change of
-- its registers and any finite number of bytes written.
inductive Event
  | createProcess (processEntry arg : Word) (stackSize stack : Nat)
  | start
  | execute (registers : Registers) (writes : List (Nat × UInt8))
  | switch
  | block (semaphore : Nat)
  | unblockAll (semaphore : Nat)
deriving DecidableEq

section Assumptions

def Overlaps (process : ArmProcess) (stackSize stack : Nat) : Prop :=
  process.stack < stack + stackSize ∧ stack < process.stack + process.stackSize

def Outside (start size address : Nat) : Prop := address < start ∨ start + size ≤ address

def frames : Nat := sizeofHardwareStoredRegisters + sizeofSoftwareStoredRegisters

def guardSize : Nat := 4

-- The running process writes neither to its guard word nor to another stack.
def MayWrite (scheduler : Scheduler) (id address : Nat) : Prop :=
  ∀ node ∈ scheduler.processes.nodes,
    Outside node.2.stack (if node.1 = id then guardSize else node.2.stackSize) address

-- PSP stays in the stack, with room below it for the frames of a switch.
def HasRoom (process : ArmProcess) (psp : Nat) : Prop :=
  process.stack + guardSize + frames ≤ psp ∧ psp ≤ process.stack + process.stackSize

def AnyReady (scheduler : Scheduler) : Prop :=
  ∃ process ∈ scheduler.processes.values, process.state = .ready

def Executes (scheduler : Scheduler) (psp : Nat) (writes : List (Nat × UInt8)) : Prop :=
  ∃ id ∈ scheduler.current, (∃ process ∈ scheduler.processes.get? id, HasRoom process psp) ∧
    ∀ write ∈ writes, MayWrite scheduler id write.1

-- What is assumed of the processes and of operator new.
def Assumed (session : Session) : Event → Prop
  | .createProcess _ _ stackSize stack =>
      stackSize % 4 = 0 ∧ frames + guardSize < stackSize ∧
        ∀ process ∈ session.core.scheduler.processes.values, ¬Overlaps process stackSize stack
  | .start => session.started = false ∧ AnyReady session.core.scheduler
  | .execute registers writes =>
      session.started = true ∧ Executes session.core.scheduler registers.psp writes
  | .switch => session.started = true ∧ AnyReady session.core.scheduler
  | .block _ | .unblockAll _ => session.started = true

instance (process : ArmProcess) (stackSize stack : Nat) : Decidable (Overlaps process stackSize stack) :=
  inferInstanceAs (Decidable (_ < _ ∧ _ < _))

instance (start size address : Nat) : Decidable (Outside start size address) :=
  inferInstanceAs (Decidable (_ < _ ∨ _ ≤ _))

instance (scheduler : Scheduler) (id address : Nat) : Decidable (MayWrite scheduler id address) :=
  inferInstanceAs (Decidable (∀ node ∈ scheduler.processes.nodes, Outside _ _ _))

instance (process : ArmProcess) (psp : Nat) : Decidable (HasRoom process psp) :=
  inferInstanceAs (Decidable (_ ≤ _ ∧ _ ≤ _))

instance (scheduler : Scheduler) : Decidable (AnyReady scheduler) :=
  inferInstanceAs (Decidable (∃ process ∈ scheduler.processes.values, process.state = .ready))

instance (scheduler : Scheduler) (psp : Nat) (writes : List (Nat × UInt8)) :
    Decidable (Executes scheduler psp writes) :=
  inferInstanceAs (Decidable (∃ id ∈ scheduler.current,
    (∃ process ∈ scheduler.processes.get? id, HasRoom process psp) ∧
      ∀ write ∈ writes, MayWrite scheduler id write.1))

instance (session : Session) : (event : Event) → Decidable (session.Assumed event)
  | .createProcess _ _ stackSize stack => inferInstanceAs (Decidable
      (stackSize % 4 = 0 ∧ frames + guardSize < stackSize ∧
        ∀ process ∈ session.core.scheduler.processes.values, ¬Overlaps process stackSize stack))
  | .start => inferInstanceAs (Decidable (_ = false ∧ AnyReady _))
  | .execute _ _ => inferInstanceAs (Decidable (_ = true ∧ Executes _ _ _))
  | .switch => inferInstanceAs (Decidable (_ = true ∧ AnyReady _))
  | .block _ => inferInstanceAs (Decidable (session.started = true))
  | .unblockAll _ => inferInstanceAs (Decidable (session.started = true))

end Assumptions

-- A process starts with its entry point, its argument and exit_handler.
def firstContext (stackSize stack : Nat) (processEntry arg exitHandler : Word) : Registers where
  r0 := arg
  r1 := 0
  r2 := 0
  r3 := 0
  r4 := 0
  r5 := 0
  r6 := 0
  r7 := 0
  r8 := 0
  r9 := 0
  r10 := 0
  r11 := 0
  r12 := 0
  lr := exitHandler
  pc := processEntry
  psr := defaultPsrStatus
  psp := stack + stackSize

def writeBytes (memory : Memory) (writes : List (Nat × UInt8)) : Memory :=
  writes.foldl (fun memory write => memory.store write.1 [write.2]) memory

-- The registers of the current process are put on record as it is switched out.
def record (session : Session) : Nat → Registers :=
  match session.core.scheduler.current with
  | none => session.contexts
  | some id => Function.update session.contexts id session.core.registers

def perform (exitHandler : Word) (session : Session) : Event → Option Session
  | .createProcess processEntry arg stackSize stack =>
      let scheduler := session.core.scheduler
      some { session with
        core := { session.core with
          memory := initializeStack session.core.memory stackSize stack processEntry arg exitHandler
          scheduler := scheduler.createProcess stackSize stack }
        contexts := Function.update session.contexts scheduler.processes.allocated
          (firstContext stackSize stack processEntry arg exitHandler) }
  | .start =>
      (Core.startRootProcess session.core.memory session.core.scheduler).map fun core =>
        { session with core := core, started := true }
  | .execute registers writes =>
      some { session with core := { session.core with
        memory := writeBytes session.core.memory writes
        registers := registers } }
  | .switch =>
      session.core.storeAndSwitchToNextTask.map fun core =>
        { session with core := core, contexts := session.record }
  | .block semaphore =>
      match session.core.scheduler.block semaphore with
      | .ok scheduler => some { session with core := { session.core with scheduler := scheduler } }
      | .error _ => none
  | .unblockAll semaphore =>
      some { session with core := { session.core with
        scheduler := session.core.scheduler.unblockAll semaphore } }

def step (exitHandler : Word) (session : Session) (event : Event) : Option Session :=
  if session.Assumed event then session.perform exitHandler event else none

-- Reset, with whatever memory and registers there are.
def boot (memory : Memory) (registers : Registers) : Session where
  core := ⟨memory, registers, Scheduler.initial⟩
  started := false
  contexts := fun _ => registers

-- A switch that is due resumes some process, exactly with the registers on its
-- record.
def ResumesExactly (exitHandler : Word) (session : Session) : Prop :=
  ∀ event, event = .switch ∨ event = .start → session.Assumed event →
    ∃ next id, session.step exitHandler event = some next ∧
      next.core.scheduler.current = some id ∧ next.core.registers = next.contexts id

end Session

end Msos.Kernel
