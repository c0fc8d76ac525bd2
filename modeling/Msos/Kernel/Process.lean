import Mathlib.Data.List.Nodup

namespace Msos.Kernel

-- Process::State
inductive State
  | ready
  | blocked
  | running
  | killed
deriving DecidableEq, Repr

def sizeofHardwareStoredRegisters : Nat := 32

def sizeofSoftwareStoredRegisters : Nat := 36

-- The members of ArmProcess, with the addresses that its pointers hold. The
-- descriptor table of its base class is a model of its own.
structure ArmProcess where
  pid : Int
  state : State
  stackSize : Nat
  stack : Nat
  currentStackPointer : Nat
  locks : List Nat
deriving DecidableEq, Repr

namespace ArmProcess

-- The constructor; `stack` is the address that new returned.
def new (pid : Int) (stackSize stack : Nat) : ArmProcess where
  pid := pid
  state := .ready
  stackSize := stackSize
  stack := stack
  currentStackPointer :=
    stack + stackSize - sizeofHardwareStoredRegisters - sizeofSoftwareStoredRegisters
  locks := []

def block (process : ArmProcess) (semaphore : Nat) : ArmProcess :=
  { process with
    locks := if semaphore ∈ process.locks then process.locks else process.locks ++ [semaphore]
    state := .blocked }

def unblock (process : ArmProcess) (semaphore : Nat) : ArmProcess :=
  if semaphore ∈ process.locks then
    let locks := process.locks.erase semaphore
    { process with locks := locks, state := if locks = [] then .ready else process.state }
  else
    process

section Fields

variable (process : ArmProcess) (semaphore : Nat)

@[simp] theorem block_pid : (process.block semaphore).pid = process.pid := rfl

@[simp] theorem block_state : (process.block semaphore).state = .blocked := rfl

@[simp] theorem unblock_pid : (process.unblock semaphore).pid = process.pid := by
  unfold unblock
  split <;> rfl

theorem unblock_of_mem (hm : semaphore ∈ process.locks) :
    process.unblock semaphore = { process with
      locks := process.locks.erase semaphore
      state := if process.locks.erase semaphore = [] then .ready else process.state } := by
  simp [unblock, hm]

theorem unblock_of_notMem (hm : semaphore ∉ process.locks) :
    process.unblock semaphore = process := by
  simp [unblock, hm]

theorem unblock_state_ne_running (hs : process.state ≠ .running) :
    (process.unblock semaphore).state ≠ .running := by
  by_cases hm : semaphore ∈ process.locks
  · rw [unblock_of_mem _ _ hm]
    simp only
    split
    · simp
    · exact hs
  · rw [unblock_of_notMem _ _ hm]
    exact hs

end Fields

end ArmProcess

end Msos.Kernel
