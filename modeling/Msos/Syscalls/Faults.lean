import Msos.Syscalls.Streams

namespace Msos.Syscalls

open Msos.Fs Msos.Kernel Msos.Posix Msos.Library Msos.Library.Fallible

section Definitions

-- Outside 0 to 7 the reduced count of the shift misses the descriptors in use.
def Misses (shifter : Shifter) (system : System) (pid : Nat) (fd : Int) : Prop :=
  slot? fd = none → ∀ process, system.processes pid = some process →
    ∀ i : Fin 8, process.fdMap.getLsbD i.val = true → shifter.count fd ≠ i.val

-- The descriptors that a call looks up miss what they do not name.
def Guarded (shifter : Shifter) (system : System) (pid : Nat) : Call → Prop
  | .read fd _ | .write fd _ | .close fd | .ioctl fd _ _ => Misses shifter system pid fd
  | .tcsetattr fd optionalActions _ =>
      optionalActions = 0 ∨ optionalActions = 1 ∨ optionalActions = 2 →
        Misses shifter system pid fd
  | _ => True

end Definitions

section Tables

variable {shifter : Shifter} {process next : Process OpenFile} {fd code : Int}

end Tables

section Steps

variable {platform : Platform} {system next : System} {pid : Nat} {call : Call} {reply : Reply}

end Steps

end Msos.Syscalls
