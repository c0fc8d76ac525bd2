import Mathlib.Algebra.Ring.Nat
import Msos.Kernel.Process
import Msos.Library.LinkedList
import Msos.Library.Machine

namespace Msos.Kernel

open Msos.Library

-- Undefined behaviour of the code: an iterator is dereferenced at the end of
-- the list or after its node was erased, or a null process is.
inductive Fault
  | endIterator
  | danglingIterator
  | nullProcess
deriving DecidableEq, Repr

-- ProcessManager, pid_counter and NormalScheduler. `current` is the iterator
-- current_process_; none is end().
structure Scheduler where
  processes : LinkedList ArmProcess
  current : Option Nat
  pidCounter : Int

namespace Scheduler

-- NormalScheduler is constructed over the empty list, whose begin() is its end().
def initial : Scheduler where
  processes := LinkedList.empty
  current := none
  pidCounter := 1

def wrapPid (pid : Int) : Int := Int.bmod pid (2 ^ 32)

def createProcess (scheduler : Scheduler) (stackSize stack : Nat) : Scheduler :=
  { scheduler with
    processes := scheduler.processes.pushBack (ArmProcess.new scheduler.pidCounter stackSize stack)
    pidCounter := wrapPid (scheduler.pidCounter + 1) }

-- ProcessManager::delete_process
def eraseProcess (scheduler : Scheduler) (pid : Int) : Scheduler :=
  match scheduler.processes.nodes.find? fun node => node.2.pid = pid with
  | some node => { scheduler with processes := scheduler.processes.eraseNode node.1 }
  | none => scheduler

def deref (scheduler : Scheduler) : Option Nat → Except Fault ArmProcess
  | none => .error .endIterator
  | some id =>
      match scheduler.processes.get? id with
      | some process => .ok process
      | none => .error .danglingIterator

-- NormalScheduler::current_process; none is nullptr.
def currentProcess (scheduler : Scheduler) : Except Fault (Option ArmProcess) :=
  match scheduler.current with
  | none => .ok none
  | some id => (scheduler.deref (some id)).map some

-- NormalScheduler::get_next. Stepping from end() goes through the sentinel of
-- the circular list to the first process.
def getNext (scheduler : Scheduler) : Except Fault (Option Nat) :=
  match scheduler.current with
  | none => .ok scheduler.processes.first
  | some id => (scheduler.deref (some id)).map fun _ => scheduler.processes.successor id

-- NormalScheduler::delete_process
def deleteProcess (scheduler : Scheduler) (pid : Int) : Except Fault Scheduler := do
  let process ← scheduler.deref scheduler.current
  if pid = process.pid then
    let next ← scheduler.getNext
    return { scheduler with current := next }.eraseProcess pid
  else
    return scheduler.eraseProcess pid

-- The loop of schedule_next; none when the fuel runs out in the loop.
def scheduleLoop : Nat → Scheduler → Option Nat → Except Fault (Option Scheduler)
  | 0, _, _ => .ok none
  | fuel + 1, scheduler, next => do
      let process ← scheduler.deref next
      if process.state = .running then
        return some scheduler
      else
        let scheduler := { scheduler with current := next }
        if process.state = .ready ∨ process.state = .running then
          return some scheduler
        else
          let next ← scheduler.getNext
          scheduleLoop fuel scheduler next

-- NormalScheduler::schedule_next; none when it never returns. The loop changes
-- nothing but the iterator, so one round through the list decides it.
def scheduleNext (scheduler : Scheduler) : Except Fault (Option Scheduler) := do
  if scheduler.processes.nodes = [] then
    return some scheduler
  else
    let next ← scheduler.getNext
    scheduleLoop scheduler.processes.length scheduler next

def unblockAll (scheduler : Scheduler) (semaphore : Nat) : Scheduler :=
  { scheduler with processes := scheduler.processes.mapValues fun process => process.unblock semaphore }

-- block of semaphore.cpp, up to its yield, which only requests a switch.
def block (scheduler : Scheduler) (semaphore : Nat) : Except Fault Scheduler :=
  match scheduler.current with
  | none => .ok scheduler
  | some id => (scheduler.deref (some id)).map fun _ => { scheduler with
      processes := scheduler.processes.update id fun process => process.block semaphore }

-- get_next_task, up to the stack pointer of the selected process.
def getNextTask (scheduler : Scheduler) : Except Fault (Option Scheduler) := do
  match ← scheduler.scheduleNext with
  | none => return none
  | some scheduler =>
      match ← scheduler.currentProcess with
      | none => .error .nullProcess
      | some _ => return some scheduler

-- process_exit, up to the switch to the selected process.
def processExit (scheduler : Scheduler) : Except Fault (Option Scheduler) := do
  match ← scheduler.currentProcess with
  | none => return some scheduler
  | some process =>
      let scheduler ← scheduler.deleteProcess process.pid
      scheduler.getNextTask

inductive Call
  | createProcess (stackSize stack : Nat)
  | deleteProcess (pid : Int)
  | processExit
  | scheduleNext
  | block (semaphore : Nat)
  | unblockAll (semaphore : Nat)
deriving DecidableEq, Repr

def call (scheduler : Scheduler) : Call → Except Fault (Option Scheduler)
  | .createProcess stackSize stack => .ok (some (scheduler.createProcess stackSize stack))
  | .deleteProcess pid => (scheduler.deleteProcess pid).map some
  | .processExit => scheduler.processExit
  | .scheduleNext => scheduler.scheduleNext
  | .block semaphore => (scheduler.block semaphore).map some
  | .unblockAll semaphore => .ok (some (scheduler.unblockAll semaphore))

-- A call after undefined behaviour, or one that never returns, has no successor.
def step : Except Fault Scheduler → Call → Option (Except Fault Scheduler)
  | .error _, _ => none
  | .ok scheduler, call =>
      match scheduler.call call with
      | .error fault => some (.error fault)
      | .ok none => none
      | .ok (some next) => some (.ok next)

end Scheduler

end Msos.Kernel
