import Msos.Fs.MountPoints
import Msos.Library.Machine

namespace Msos.Fs

open Msos.Library.Search

structure RamFsData where
  filename : Path
  data : List UInt8
  isDirectory : Bool
deriving DecidableEq, Repr

namespace RamFsData

def createFile (name : Path) (data : List UInt8) : RamFsData := ⟨name, data, false⟩

def createDirectory (name : Path) : RamFsData := ⟨name, [], true⟩

end RamFsData

-- files_ is a std::list that only grows, so a reference to an entry is its position.
structure RamFs where
  files : List RamFsData
deriving DecidableEq, Repr

-- `data` refers to the entry that data_ references.
structure RamfsFile where
  data : Nat
  position : Nat
  name : Path
deriving DecidableEq, Repr

namespace RamFs

def new : RamFs := ⟨[RamFsData.createDirectory "/".toList]⟩

def mkdir (fs : RamFs) (path : Path) (_mode : Int) : RamFs × Int :=
  match fs.files.find? fun file => file.filename = path with
  | some _ => (fs, -1)
  | none => (⟨fs.files ++ [RamFsData.createDirectory path]⟩, 0)

-- The name keeps its last slash: remove_prefix(last_slash) drops what is before it.
def shortName (filename : Path) : Path :=
  match findLastOf '/' filename with
  | some lastSlash => filename.drop lastSlash
  | none => filename

def get (fs : RamFs) (path : Path) (_flags : Int) : Option RamfsFile :=
  if path = [] then
    fs.files.head?.map fun front => ⟨0, 0, front.filename⟩
  else
    (fs.files.findIdx? fun file => file.filename = path).map fun entry => ⟨entry, 0, shortName path⟩

def create (fs : RamFs) (path : Path) (_flags : Int) : RamFs × RamfsFile :=
  (⟨fs.files ++ [RamFsData.createFile path []]⟩, ⟨fs.files.length, 0, shortName path⟩)

def contents (fs : RamFs) (entry : Nat) : List UInt8 :=
  (fs.files[entry]?.map RamFsData.data).getD []

end RamFs

namespace RamfsFile

-- The bytes delivered into a buffer of the given size, and the handle after it.
def read (fs : RamFs) (file : RamfsFile) (size : Nat) : List UInt8 × RamfsFile :=
  let data := fs.contents file.data
  if data.length ≤ file.position then
    ([], file)
  else
    let len := if size < data.length - file.position then size else data.length - file.position
    ((data.drop file.position).take len, { file with position := file.position + len })

def write (fs : RamFs) (file : RamfsFile) (bytes : List UInt8) : RamFs × Int :=
  (⟨fs.files.modify file.data fun entry => { entry with data := entry.data ++ bytes }⟩, bytes.length)

-- Read into one buffer after the other.
def readAll (fs : RamFs) : RamfsFile → List Nat → List UInt8
  | _, [] => []
  | file, size :: sizes =>
      let (chunk, file) := read fs file size
      chunk ++ readAll fs file sizes

end RamfsFile

namespace RamFs

inductive Call
  | mkdir (path : Path) (mode : Int)
  | create (path : Path) (flags : Int)
  | get (path : Path) (flags : Int)
  | read (handle size : Nat)
  | write (handle : Nat) (bytes : List UInt8)
deriving DecidableEq, Repr

-- A file system together with the handles that its users have been given.
structure Session where
  fs : RamFs
  handles : List RamfsFile
deriving DecidableEq, Repr

namespace Session

def new : Session := ⟨RamFs.new, []⟩

def step (session : Session) : Call → Option Session
  | .mkdir path mode => some { session with fs := (session.fs.mkdir path mode).1 }
  | .create path flags =>
      let (fs, file) := session.fs.create path flags
      some ⟨fs, session.handles ++ [file]⟩
  | .get path flags =>
      some { session with handles := session.handles ++ (session.fs.get path flags).toList }
  | .read handle size => do
      let file ← session.handles[handle]?
      some { session with handles := session.handles.set handle (file.read session.fs size).2 }
  | .write handle bytes => do
      let file ← session.handles[handle]?
      some { session with fs := (file.write session.fs bytes).1 }

-- The path of the entry that a handle writes to.
def pathOf (session : Session) (handle : Nat) : Option Path := do
  let file ← session.handles[handle]?
  let entry ← session.fs.files[file.data]?
  some entry.filename

end Session

-- The bytes written through one handle, in order.
def writtenThrough (handle : Nat) : List Call → List UInt8
  | [] => []
  | .write other bytes :: rest =>
      if other = handle then bytes ++ writtenThrough handle rest else writtenThrough handle rest
  | _ :: rest => writtenThrough handle rest

end RamFs

end Msos.Fs
