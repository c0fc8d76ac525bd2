import Msos.Apps
import Msos.Fs.RamFs

namespace Msos.Fs

open Msos.Library.Search Msos.Apps

-- The functions of eul::filesystem::path that the kernel calls.
structure PathLibrary where
  lexicallyNormal : Path → Path
  lexicallyRelative : Path → Path → Path
  filename : Path → Path

structure DriverEntry where
  path : Path
  usart : Nat
deriving DecidableEq, Repr

structure DeviceFs where
  drivers : List DriverEntry
deriving DecidableEq, Repr

-- The files of the mounted file systems, by their classes.
inductive File
  | ramfsFile (file : RamfsFile)
  | deviceFsRootFile
  | usartFile (usart : Nat) (path : Path)
  | appFile (entry : AppEntry)
deriving DecidableEq, Repr

-- RamFs is constructed with its root, which stays the first entry.
@[ext]
structure FileSystems where
  ramfs : RamFs
  devfs : DeviceFs
  apps : AppRegistry
  ramfs_root : ∃ root rest, ramfs.files = root :: rest ∧ root.filename = "/".toList ∧
    root.isDirectory = true

abbrev Operation := StateM FileSystems

section Operations

variable {α β : Type} (systems : FileSystems)

theorem bind_apply (first : Operation α) (then_ : α → Operation β) :
    (first >>= then_) systems = then_ (first systems).1 (first systems).2 := rfl

theorem pure_apply (value : α) : (pure value : Operation α) systems = (value, systems) := rfl

theorem get_apply : (get : Operation FileSystems) systems = (systems, systems) := rfl

end Operations

def sIfdir : BitVec 16 := 0x4000

def sIfchr : BitVec 16 := 0x2000

def sIfreg : BitVec 16 := 0x8000

namespace RamFs

def getParentPath (path : Path) : Path :=
  match findLastOf '/' path with
  | some lastSlash => path.take lastSlash
  | none => []

def insertWithOrder (file : RamfsFile) : List RamfsFile → List RamfsFile
  | [] => [file]
  | head :: rest => if file.name < head.name then file :: head :: rest else head :: insertWithOrder file rest

def list (fs : RamFs) (path : Path) : List RamfsFile :=
  let entries := fs.files.zipIdx
  if path = [] ∨ path = "/".toList then
    entries.foldl (fun files (entry, id) =>
      if '/' ∈ entry.filename then files else insertWithOrder ⟨id, 0, entry.filename⟩ files) []
  else
    entries.foldl (fun files (entry, id) =>
      let parent := getParentPath entry.filename
      if parent = path then
        insertWithOrder ⟨id, 0, entry.filename.drop (parent.length + 1)⟩ files
      else files) []

end RamFs

namespace DeviceFs

def getDriver (library : PathLibrary) (devfs : DeviceFs) (path : Path) : Option DriverEntry :=
  devfs.drivers.find? fun entry => library.filename path = entry.path

-- The only drivers that open files are those of the usarts.
def get (library : PathLibrary) (devfs : DeviceFs) (path : Path) (_flags : Int) : Option File :=
  if path = [] ∨ path = "/".toList then some .deviceFsRootFile
  else (devfs.getDriver library path).map fun entry => .usartFile entry.usart path

def list (devfs : DeviceFs) (_path : Path) : List File :=
  devfs.drivers.map fun entry => .usartFile entry.usart entry.path

end DeviceFs

namespace FileSystems

-- The loop of AppRegistry::get: what its printf calls print, and the app it ends with.
def searchApps (path : Path) : List AppEntry → List (List Char) × Option AppEntry
  | [] => ([], none)
  | app :: rest =>
      let searched := "seearch ".toList ++ app.name ++ "\n".toList
      if app.name = path then ([searched, "Return app\n".toList], some app)
      else
        let (printed, found) := searchApps path rest
        (searched :: printed, found)

-- AppRegistry::get, with what it prints.
def appGet (apps : AppRegistry) (path : Path) : List (List Char) × Option File :=
  if path = [] ∨ path = "/".toList then ([], some (.appFile .root))
  else
    let (printed, found) := searchApps path apps.apps
    (printed, found.map .appFile)

theorem searchApps_snd (path : Path) (apps : List AppEntry) :
    (searchApps path apps).2 = apps.find? fun app => app.name = path := by
  induction apps with
  | nil => rfl
  | cons app rest ih =>
      by_cases hname : app.name = path
      · rw [searchApps, if_pos hname, List.find?_cons_of_pos (by simpa using hname)]
      · rw [searchApps, if_neg hname, List.find?_cons_of_neg (by simpa using hname), ih]

theorem appGet_snd (apps : AppRegistry) (path : Path) :
    (appGet apps path).2 = if path = [] ∨ path = "/".toList then some (.appFile .root)
      else (apps.apps.find? fun app => app.name = path).map .appFile := by
  by_cases hroot : path = [] ∨ path = "/".toList
  · rw [appGet, if_pos hroot, if_pos hroot]
  · rw [appGet, if_neg hroot, if_neg hroot, ← searchApps_snd]

-- st_mode as the stat of the class of the file leaves it.
def stat (systems : FileSystems) : File → BitVec 16
  | .ramfsFile file =>
      if systems.ramfs.files[file.data]?.any RamFsData.isDirectory then 0 ||| sIfdir else 0 ||| sIfreg
  | .deviceFsRootFile => 0
  | .usartFile _ _ => 0 ||| sIfchr
  | .appFile entry => if entry.name = "/".toList then 0 ||| sIfdir else 0 ||| sIfreg

theorem root_append {files : List RamFsData}
    (h : ∃ root rest, files = root :: rest ∧ root.filename = "/".toList ∧ root.isDirectory = true)
    (added : List RamFsData) :
    ∃ root rest, files ++ added = root :: rest ∧ root.filename = "/".toList ∧
      root.isDirectory = true := by
  obtain ⟨root, rest, rfl, hname, hdir⟩ := h
  exact ⟨root, rest ++ added, rfl, hname, hdir⟩

def mkdir (systems : FileSystems) (path : Path) (mode : Int) : FileSystems × Int :=
  ({ systems with
      ramfs := (systems.ramfs.mkdir path mode).1
      ramfs_root := by
        unfold RamFs.mkdir
        split
        · exact systems.ramfs_root
        · exact root_append systems.ramfs_root _ },
    (systems.ramfs.mkdir path mode).2)

def create (systems : FileSystems) (path : Path) (flags : Int) : FileSystems × File :=
  ({ systems with
      ramfs := (systems.ramfs.create path flags).1
      ramfs_root := root_append systems.ramfs_root _ },
    .ramfsFile (systems.ramfs.create path flags).2)

-- RamfsFile::write on one of the mounted systems
def writeRamFs (systems : FileSystems) (file : RamfsFile) (bytes : List UInt8) : FileSystems :=
  { systems with
    ramfs := (file.write systems.ramfs bytes).1
    ramfs_root := by
      obtain ⟨root, rest, hfiles, hname, hdir⟩ := systems.ramfs_root
      rw [RamfsFile.write, hfiles]
      cases file.data with
      | zero => exact ⟨_, rest, rfl, hname, hdir⟩
      | succ entry => exact ⟨root, _, List.modify_succ_cons .., hname, hdir⟩ }

section Writing

variable (systems : FileSystems) (file : RamfsFile)

theorem writeRamFs_nil : systems.writeRamFs file [] = systems := by
  have hsame : (file.write systems.ramfs []).1 = systems.ramfs := by
    simp only [RamfsFile.write, List.append_nil]
    exact congrArg RamFs.mk (List.modify_id ..)
  exact FileSystems.ext hsame rfl rfl

theorem writeRamFs_append (first second : List UInt8) :
    (systems.writeRamFs file first).writeRamFs file second =
      systems.writeRamFs file (first ++ second) := by
  have hboth : (file.write (file.write systems.ramfs first).1 second).1 =
      (file.write systems.ramfs (first ++ second)).1 := by
    simp only [RamfsFile.write, List.modify_modify_eq]
    congr 2
    funext entry
    simp only [Function.comp_apply, List.append_assoc]
  exact FileSystems.ext hboth rfl rfl

-- A write of a byte to an entry is seen.
theorem writeRamFs_eq_self_iff (bytes : List UInt8) :
    systems.writeRamFs file bytes = systems ↔
      bytes = [] ∨ systems.ramfs.files.length ≤ file.data := by
  constructor
  · intro hsame
    by_contra! hor
    obtain ⟨hbytes, hlt⟩ := hor
    have hdata := congrArg (fun after : FileSystems => after.ramfs.contents file.data) hsame
    simp [writeRamFs, RamfsFile.write, RamFs.contents, List.getElem?_eq_getElem hlt] at hdata
    exact hbytes hdata
  · rintro (rfl | hle)
    · exact systems.writeRamFs_nil file
    · have hsame : (file.write systems.ramfs bytes).1 = systems.ramfs := by
        simp only [RamfsFile.write, List.modify_eq_self hle]
      exact FileSystems.ext hsame rfl rfl

end Writing

end FileSystems

-- The file systems by the classes that implement IFileSystem.
inductive Mounted
  | ramfs
  | devfs
  | apps
deriving DecidableEq, Repr

def Mounted.fileSystem (library : PathLibrary) : Mounted → IFileSystem Operation File
  | .ramfs => {
      mkdir := fun path mode systems => ((systems.mkdir path mode).2, (systems.mkdir path mode).1)
      remove := fun _ => pure 1
      stat := fun _ => pure 1
      get := fun path flags systems => ((systems.ramfs.get path flags).map .ramfsFile, systems)
      create := fun path flags systems =>
        (some (systems.create path flags).2, (systems.create path flags).1)
      list := fun path systems => ((systems.ramfs.list path).map .ramfsFile, systems)
      name := "RamFs".toList }
  | .devfs => {
      mkdir := fun _ _ => pure (-1)
      remove := fun _ => pure (-1)
      stat := fun _ => pure 0
      get := fun path flags systems => (systems.devfs.get library path flags, systems)
      create := fun _ _ => pure none
      list := fun path systems => (systems.devfs.list path, systems)
      name := "DevFs".toList }
  | .apps => {
      mkdir := fun _ _ => pure 0
      remove := fun _ => pure 0
      stat := fun _ => pure 0
      get := fun path _ systems => ((FileSystems.appGet systems.apps path).2, systems)
      create := fun _ _ => pure none
      list := fun _ systems => (systems.apps.apps.map .appFile, systems)
      name := AppRegistry.name }

-- What a lookup prints to the standard output of the current process, which may be a
-- file in another one of the file systems.
def Mounted.printed (systems : FileSystems) (path : Path) : Mounted → List (List Char)
  | .apps => (FileSystems.appGet systems.apps path).1
  | _ => []

def fileSystems (library : PathLibrary) (mounts : List (MountPoint Mounted)) :
    List (MountPoint (IFileSystem Operation File)) :=
  mounts.map fun mp => ⟨mp.point, mp.filesystem.fileSystem library⟩

end Msos.Fs
