import Msos.Fs.FileSystems
import Msos.Kernel.FileDescriptors

namespace Msos.Posix

open Msos.Fs Msos.Kernel

-- The DIR of opendir: the files of its DIRImpl, and d_namlen of its entry,
-- which readdir starts from.
structure Dir where
  files : List File
  namlen : Nat
deriving DecidableEq, Repr

def pathMax : Nat := 255

-- Process::set_cwd
def setCwd (cwd path : Path) : Path × Bool :=
  if pathMax < path.length then (cwd, false) else (path, true)

def oRdonly : BitVec 32 := 0

def oAccmode : BitVec 32 := 3

def oCreat : BitVec 32 := 0x200

section Calls

variable (library : PathLibrary) (mounts : List (MountPoint Mounted))

def opendir (dirname : Path) : Operation (Option Dir) := do
  let path := library.lexicallyNormal dirname
  match ← Vfs.get library.lexicallyRelative (fileSystems library mounts) path 0 with
  | none => return none
  | some _ =>
      let files ← Vfs.list library.lexicallyRelative (fileSystems library mounts) path
      return some ⟨files, 0⟩

-- The working directory after the call, and what it returns.
def chdir (cwd path : Path) : Operation (Path × Int) := do
  let path := library.lexicallyNormal path
  match ← Vfs.get library.lexicallyRelative (fileSystems library mounts) path 0 with
  | none => return (cwd, -1)
  | some file =>
      let systems ← get
      if systems.stat file &&& sIfdir ≠ 0 then
        let (cwd, isSet) := setCwd cwd path
        return (cwd, if isSet then 0 else -1)
      else
        return (cwd, -1)

-- _open with a current process
def open_ (process : Process File) (filename : Path) (flags : BitVec 32) :
    Operation (Process File × Int) := do
  let path := library.lexicallyNormal filename
  if flags &&& oAccmode = oRdonly then
    match ← Vfs.get library.lexicallyRelative (fileSystems library mounts) path flags.toInt with
    | none => return (process, -1)
    | some file =>
        let systems ← get
        if systems.stat file &&& sIfdir ≠ 0 then
          return (process, -2)
        else
          return process.addFile (some file)
  else if flags &&& oCreat = oCreat then
    match ← Vfs.create library.lexicallyRelative (fileSystems library mounts) path flags.toInt with
    | none => return (process, -1)
    | some file => return process.addFile (some file)
  else
    match ← Vfs.get library.lexicallyRelative (fileSystems library mounts) path flags.toInt with
    | none => return (process, -1)
    | some file => return process.addFile (some file)

end Calls

end Msos.Posix
