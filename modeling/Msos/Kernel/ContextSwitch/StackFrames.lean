import Msos.Kernel.ContextSwitch.Theorems

namespace Msos.Kernel.StackFrames

open Msos.Library Msos.Library.Memory Session

-- What operator new is asked for: stack_size / sizeof(std::size_t) words
def allocatedSize (stackSize : Nat) : Nat := 4 * (stackSize / 4)

-- The address of the frames; pointers have 32 bits.
def framePointer (stackSize stack : Nat) : Nat :=
  (stack + stackSize + 2 ^ 32 - sizeofHardwareStoredRegisters - sizeofSoftwareStoredRegisters) %
    2 ^ 32

-- The constructor of ArmProcess for any size: the memory behind it. The test of
-- required_stack_size has an empty body.
def construct (memory : Memory) (stackSize stack : Nat) (processEntry arg exitHandler : Word) :
    Memory :=
  let memory := memory.fill stack (allocatedSize stackSize) 0
  let memory := memory.writeWord stack stackGuard
  let stackPtr := framePointer stackSize stack
  let hwRegisters := stackPtr + sizeofSoftwareStoredRegisters
  let memory := memory.storeWords hwRegisters [arg, 0, 0, 0]
  let memory := memory.storeWords stackPtr [0, 0, 0, 0, 0, 0, 0, 0]
  let memory := memory.storeWords (hwRegisters + 20) [exitHandler, processEntry, defaultPsrStatus]
  memory.storeWords (stackPtr + 32) [returnToThreadModePsp]

-- The process that it constructs.
def constructed (pid : Int) (stackSize stack : Nat) : ArmProcess :=
  { ArmProcess.new pid stackSize stack with
    currentStackPointer := framePointer stackSize stack }

-- The frames of a new process are in its array and off the guard, and the first
-- switch to it starts it.
structure StartsInsideStack (memory : Memory) (pid : Int) (stackSize stack : Nat)
    (processEntry arg exitHandler : Word) : Prop where
  guard_le : stack + guardSize ≤ (constructed pid stackSize stack).currentStackPointer
  le_end : (constructed pid stackSize stack).currentStackPointer + frames ≤
    stack + allocatedSize stackSize
  aligned : (constructed pid stackSize stack).currentStackPointer % 4 = 0
  validate : Guarded (construct memory stackSize stack processEntry arg exitHandler)
    (constructed pid stackSize stack)
  starts : ∃ registers,
    restoreRegisters (construct memory stackSize stack processEntry arg exitHandler)
        ((constructed pid stackSize stack).validStackPointer
          (construct memory stackSize stack processEntry arg exitHandler)) = some registers ∧
      registers.r0 = arg ∧ registers.pc = processEntry ∧ registers.lr = exitHandler

section Sizes

variable {memory : Memory} {stackSize stack : Nat} {processEntry arg exitHandler : Word}

theorem framePointer_of_le (hsize : frames ≤ stackSize) (hroom : stack + stackSize ≤ 2 ^ 32) :
    framePointer stackSize stack =
      stack + stackSize - sizeofHardwareStoredRegisters - sizeofSoftwareStoredRegisters := by
  simp only [frames, sizeofHardwareStoredRegisters, sizeofSoftwareStoredRegisters] at hsize
  simp only [framePointer, sizeofHardwareStoredRegisters, sizeofSoftwareStoredRegisters]
  omega

theorem allocatedSize_of_dvd (h : stackSize % 4 = 0) : allocatedSize stackSize = stackSize := by
  unfold allocatedSize
  omega

-- With whole words and room for the frames it is the constructor of the switch.
theorem construct_eq (halign : stackSize % 4 = 0) (hsize : frames ≤ stackSize)
    (hroom : stack + stackSize ≤ 2 ^ 32) :
    construct memory stackSize stack processEntry arg exitHandler =
      initializeStack memory stackSize stack processEntry arg exitHandler := by
  rw [construct, allocatedSize_of_dvd halign, framePointer_of_le hsize hroom]
  rfl

theorem constructed_eq (pid : Int) (hsize : frames ≤ stackSize)
    (hroom : stack + stackSize ≤ 2 ^ 32) :
    constructed pid stackSize stack = ArmProcess.new pid stackSize stack := by
  rw [constructed, framePointer_of_le hsize hroom]
  rfl

-- The frames are where they should be only for whole words and with room for the
-- guard; else the pointer is too low, or wraps round.
theorem size_of_inside (hstack : stack % 4 = 0)
    (hguard : stack + guardSize ≤ framePointer stackSize stack)
    (hend : framePointer stackSize stack + frames ≤ stack + allocatedSize stackSize)
    (haligned : framePointer stackSize stack % 4 = 0) :
    stackSize % 4 = 0 ∧ frames + guardSize ≤ stackSize := by
  simp only [framePointer, frames, guardSize, allocatedSize, sizeofHardwareStoredRegisters,
    sizeofSoftwareStoredRegisters] at hguard hend haligned ⊢
  omega

theorem startsInsideStack_iff (memory : Memory) (pid : Int) (stackSize stack : Nat)
    (processEntry arg exitHandler : Word) (hstack : stack % 4 = 0)
    (hroom : stack + allocatedSize stackSize ≤ 2 ^ 32) :
    StartsInsideStack memory pid stackSize stack processEntry arg exitHandler ↔
      stackSize % 4 = 0 ∧ frames + guardSize ≤ stackSize := by
  constructor
  · intro h
    exact size_of_inside hstack h.guard_le h.le_end h.aligned
  · rintro ⟨halign, hsize⟩
    have hframes : frames ≤ stackSize := Nat.le_of_add_right_le hsize
    rw [allocatedSize_of_dvd halign] at hroom
    have hguarded := @guarded_initializeStack memory stackSize stack processEntry arg exitHandler
      hsize pid
    have hsaved := @saved_initializeStack memory stackSize stack processEntry arg exitHandler
      hsize pid
    have hend := hsaved.psp_le
    have hpsp := hsaved.psp_eq
    refine ⟨?_, ?_, ?_, ?_, ?_⟩
    · rw [constructed_eq pid hframes hroom]
      exact hsaved.guard_le
    · rw [constructed_eq pid hframes hroom, allocatedSize_of_dvd halign, hpsp]
      exact hend
    · simp only [constructed, framePointer_of_le hframes hroom, sizeofHardwareStoredRegisters,
        sizeofSoftwareStoredRegisters]
      simp only [frames, sizeofHardwareStoredRegisters, sizeofSoftwareStoredRegisters] at hframes
      omega
    · rw [construct_eq halign hframes hroom, constructed_eq pid hframes hroom]
      exact hguarded
    · rw [construct_eq halign hframes hroom, constructed_eq pid hframes hroom,
        validStackPointer_of_guarded hguarded]
      exact ⟨_, restoreRegisters_of_saved hsaved, rfl, rfl, rfl⟩

theorem startsInsideStack_iff_kilobyte :
    StartsInsideStack (fun _ => 0) 1 1024 0x20000000 0x08000101 0 0x08000201 ↔
      1024 % 4 = 0 ∧ frames + guardSize ≤ 1024 :=
  startsInsideStack_iff (fun _ => 0) 1 1024 0x20000000 0x08000101 0 0x08000201 (by decide) (by decide)

-- The frames of a stack of 64 bytes start below it.
theorem small_stack_not_startsInside :
    ¬StartsInsideStack (fun _ => 0) 1 64 0x20000000 0x08000101 0 0x08000201 := by
  intro h
  exact absurd h.guard_le (by decide)

end Sizes

end Msos.Kernel.StackFrames
