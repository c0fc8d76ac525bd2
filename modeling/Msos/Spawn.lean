import Msos.Apps
import Msos.DynamicLinker

namespace Msos.Spawn

open Msos.Library Msos.Fs Msos.Apps

-- The fields of ExecInfo that decide what is executed; the arguments are only
-- passed on. No entries is a null pointer.
structure ExecInfo where
  path : Path
  entries : Option (List SymbolEntry)

-- Where exec_process transfers control to, if it does not return at once: a
-- function at an address, or the start address of a module with its table.
inductive Transfer
  | returns (code : Int)
  | calls (address : Nat)
  | executes (startAddress : Option Nat) (lot : Nat)
deriving DecidableEq, Repr

-- What exec_process works with: the mounts, the linker, and the environment
-- that a caller without entries gets. `lexicallyNormal` and `relative` stand
-- for the functions of eul::filesystem::path.
structure Kernel where
  lexicallyNormal : Path → Path
  relative : Path → Path → Path
  points : List (MountPoint (IFileSystem Id IFile))
  linker : DynamicLinker
  environment : List SymbolEntry

namespace Kernel

variable (kernel : Kernel) (memory : Memory) (allocations : Allocations) (info : ExecInfo)

def file : Option IFile :=
  Vfs.get kernel.relative kernel.points (kernel.lexicallyNormal info.path) 0

def destFs : Option (IFileSystem Id IFile) :=
  Vfs.getChildFs kernel.points (kernel.lexicallyNormal info.path)

-- The file lies in the app registry and is not null there.
def isApp (file : IFile) : Prop :=
  (kernel.destFs info).map IFileSystem.name = some AppRegistry.name ∧ file.data ≠ 0

instance (file : IFile) : Decidable (kernel.isApp info file) :=
  inferInstanceAs (Decidable (_ ∧ _))

def load (file : IFile) : DynamicLinker.Outcome :=
  kernel.linker.loadModule memory file.data DynamicLinker.loadingModeCopyText
    (info.entries.getD kernel.environment) allocations

def execProcess : Transfer :=
  match kernel.file info with
  | none => .returns (-1)
  | some file =>
      if kernel.isApp info file then .calls file.data
      else
        let outcome := kernel.load memory allocations info file
        match outcome.result with
        | .ok handle =>
            match outcome.linker.modules.get? handle with
            | some module => .executes module.startAddress module.lot
            | none => .executes none 0
        | .error _ => if file.data ≠ 0 then .calls file.data else .returns (-1)

end Kernel

end Msos.Spawn
