import Msos.Kernel.Scheduler
import Mathlib.Logic.Function.Basic

namespace Msos.Kernel

open Msos.Library Msos.Library.Machine

namespace Semaphore

-- semaphore_wait. Nothing writes the word between ldrex and strex, so the loop
-- runs once; the switch that block asks for happens after the handler.
def wait (address : BitVec 32) (scheduler : Scheduler) (value : BitVec 32) :
    Except Fault (Scheduler × BitVec 32) := do
  let scheduler ← if value = 0 then scheduler.block address.toNat else pure scheduler
  return (scheduler, value - 1)

-- semaphore_post. The comparison before unblock is with r0, which still holds
-- the address and not the value.
def post (address : BitVec 32) (scheduler : Scheduler) (value : BitVec 32) :
    Scheduler × BitVec 32 :=
  let value := value + 1
  if 1 ≤ address.toInt then (scheduler.unblockAll address.toNat, value) else (scheduler, value)

end Semaphore

-- Where a process is in its section: before lock, in lock, after lock returned.
inductive Phase
  | outside
  | locking
  | inside
deriving DecidableEq, Repr

-- The processes that share one mutex, by the nodes of the process list.
structure MutexSystem where
  scheduler : Scheduler
  value : BitVec 32
  phase : Nat → Phase

namespace MutexSystem

-- Mutex::Mutex before any process exists
def initial : MutexSystem where
  scheduler := Scheduler.initial
  value := 1
  phase := fun _ => .outside

-- A switch follows the handler that blocks the current process, so only a
-- ready process executes.
def running (system : MutexSystem) : Option Nat := do
  let id ← system.scheduler.current
  let process ← system.scheduler.processes.get? id
  if process.state = .ready then some id else none

inductive Event
  | createProcess (stackSize stack : Nat)
  | switch
  | lock
  | lockReturns
  | unlock
deriving DecidableEq, Repr

-- Every event but a creation or a switch is one of the running process.
def step (address : BitVec 32) (system : MutexSystem) : Event → Option MutexSystem
  | .createProcess stackSize stack =>
      some { system with scheduler := system.scheduler.createProcess stackSize stack }
  | .switch =>
      match system.scheduler.scheduleNext with
      | .ok (some scheduler) => some { system with scheduler := scheduler }
      | _ => none
  | .lock =>
      match system.running with
      | none => none
      | some id =>
          if system.phase id = .outside then
            match Semaphore.wait address system.scheduler system.value with
            | .ok (scheduler, value) =>
                some ⟨scheduler, value, Function.update system.phase id .locking⟩
            | .error _ => none
          else none
  | .lockReturns =>
      match system.running with
      | none => none
      | some id =>
          if system.phase id = .locking then
            some { system with phase := Function.update system.phase id .inside }
          else none
  | .unlock =>
      match system.running with
      | none => none
      | some id =>
          if system.phase id = .inside then
            let (scheduler, value) := Semaphore.post address system.scheduler system.value
            some ⟨scheduler, value, Function.update system.phase id .outside⟩
          else none

-- No two processes are past a returned lock and before their unlock.
def MutualExclusion (system : MutexSystem) : Prop :=
  ∀ id other, system.phase id = .inside → system.phase other = .inside → id = other

-- No wait is entered while the value is negative.
def WaitsNonnegative (system : MutexSystem) (event : Event) : Prop :=
  event = .lock → 0 ≤ system.value.toInt

def creations (events : List Event) : Nat :=
  events.countP fun event => match event with
    | .createProcess _ _ => true
    | _ => false

end MutexSystem

-- The processes and the words in memory that they use as semaphores.
structure SemaphoreSystem where
  scheduler : Scheduler
  value : BitVec 32 → BitVec 32

namespace SemaphoreSystem

def initial (value : BitVec 32 → BitVec 32) : SemaphoreSystem where
  scheduler := Scheduler.initial
  value := value

inductive Event
  | createProcess (stackSize stack : Nat)
  | deleteProcess (pid : Int)
  | processExit
  | switch
  | wait (address : BitVec 32)
  | post (address : BitVec 32)
deriving DecidableEq, Repr

-- An event after which the code has undefined behaviour, or that never ends,
-- has no successor.
def step (system : SemaphoreSystem) : Event → Option SemaphoreSystem
  | .createProcess stackSize stack =>
      some { system with scheduler := system.scheduler.createProcess stackSize stack }
  | .deleteProcess pid =>
      match system.scheduler.deleteProcess pid with
      | .ok scheduler => some { system with scheduler := scheduler }
      | .error _ => none
  | .processExit =>
      match system.scheduler.processExit with
      | .ok (some scheduler) => some { system with scheduler := scheduler }
      | _ => none
  | .switch =>
      match system.scheduler.scheduleNext with
      | .ok (some scheduler) => some { system with scheduler := scheduler }
      | _ => none
  | .wait address =>
      match Semaphore.wait address system.scheduler (system.value address) with
      | .ok (scheduler, value) => some ⟨scheduler, Function.update system.value address value⟩
      | .error _ => none
  | .post address =>
      let (scheduler, value) := Semaphore.post address system.scheduler (system.value address)
      some ⟨scheduler, Function.update system.value address value⟩

-- Some process has the semaphore on its list of locks.
def Waited (system : SemaphoreSystem) (address : BitVec 32) : Prop :=
  ∃ process ∈ system.scheduler.processes.values, address.toNat ∈ process.locks

-- No wake-up has been lost so far, and the next switch does not overlook a lock.
structure NoLostWakeup (system : SemaphoreSystem) : Prop where
  blocked_iff : ∀ process ∈ system.scheduler.processes.values,
    process.state = .blocked ↔ process.locks ≠ []
  locks_nodup : ∀ process ∈ system.scheduler.processes.values, process.locks.Nodup
  value_le : ∀ address, system.Waited address → (system.value address).toInt ≤ 0
  selects : ∀ next, system.scheduler.scheduleNext = .ok (some next) →
    next.processes.ids ≠ [] →
      ∃ id process, next.current = some id ∧ next.processes.get? id = some process ∧
        process.locks = []

def WakesUp (_before : SemaphoreSystem) (event : Event) (after : SemaphoreSystem) : Prop :=
  after.NoLostWakeup ∧ ∀ address, event = .post address → ¬after.Waited address

-- While somebody waits: the value is not taken below the smallest integer, and
-- the post is of an address that is a positive integer.
def Guarded (system : SemaphoreSystem) : Event → Prop
  | .wait address => system.Waited address → system.value address ≠ BitVec.intMin 32
  | .post address => system.Waited address → 1 ≤ address.toInt
  | _ => True

end SemaphoreSystem

end Msos.Kernel
