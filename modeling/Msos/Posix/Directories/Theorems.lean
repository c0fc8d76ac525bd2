import Msos.Posix.Directories
import Msos.Fs.MountPoints.Theorems

namespace Msos.Posix

open Msos.Fs Msos.Fs.MountPoints Msos.Kernel Msos.Apps

section Lookup

variable (library : PathLibrary) (mounts : List (MountPoint Mounted)) (systems : FileSystems)

-- The file that a mounted file system has under a name relative to its root.
def fileAt (name : Path) (flags : Int) : Mounted → Option File
  | .ramfs => (systems.ramfs.get name flags).map .ramfsFile
  | .devfs => systems.devfs.get library name flags
  | .apps => (FileSystems.appGet systems.apps name).2

-- The file that Vfs::get returns for a path.
def lookup (path : Path) (flags : Int) : Option File :=
  (getBestMountPoint mounts path).bind fun mp =>
    fileAt library systems (library.lexicallyRelative path mp.point) flags mp.filesystem

theorem getBestMountPoint_fileSystems (path : Path) :
    getBestMountPoint (fileSystems library mounts) path =
      (getBestMountPoint mounts path).map fun mp =>
        ⟨mp.point, mp.filesystem.fileSystem library⟩ :=
  getBestMountPoint_map (Mounted.fileSystem library) mounts path

theorem get_eq (path : Path) (flags : Int) :
    Vfs.get library.lexicallyRelative (fileSystems library mounts) path flags systems =
      (lookup library mounts systems path flags, systems) := by
  simp only [Vfs.get, Vfs.forward, getBestMountPoint_fileSystems, lookup]
  cases getBestMountPoint mounts path with
  | none => rfl
  | some mp => cases hf : mp.filesystem <;> simp [Mounted.fileSystem, fileAt, hf]

def IsDirectory (path : Path) : Prop :=
  ∃ file, lookup library mounts systems (library.lexicallyNormal path) 0 = some file ∧
    systems.stat file &&& sIfdir ≠ 0

theorem lookup_flags (path : Path) (flags : Int) :
    lookup library mounts systems path flags = lookup library mounts systems path 0 := rfl

end Lookup

section Calls

variable {library : PathLibrary} {mounts : List (MountPoint Mounted)} {systems : FileSystems}
  {path : Path}

-- opendir asks for a file only.
theorem isSome_opendir :
    (opendir library mounts path systems).1.isSome ↔
      ∃ file, lookup library mounts systems (library.lexicallyNormal path) 0 = some file := by
  simp only [opendir, bind_apply, get_eq]
  cases lookup library mounts systems (library.lexicallyNormal path) 0 with
  | none => simp [pure_apply]
  | some file => simp [bind_apply, pure_apply]

theorem chdir_eq_zero_iff (hlen : (library.lexicallyNormal path).length ≤ 254) (cwd : Path) :
    (chdir library mounts cwd path systems).1.2 = 0 ↔ IsDirectory library mounts systems path := by
  have hset : ¬pathMax < (library.lexicallyNormal path).length := by
    simp only [pathMax]
    omega
  simp only [chdir, bind_apply, get_eq, IsDirectory]
  cases lookup library mounts systems (library.lexicallyNormal path) 0 with
  | none => simp [pure_apply]
  | some file =>
      by_cases hd : systems.stat file &&& sIfdir = 0#16
      · simp [bind_apply, get_apply, pure_apply, hd]
      · simp [bind_apply, get_apply, pure_apply, hd, setCwd, hset]

theorem addFile_ne (process : Process File) (file : Option File) :
    (process.addFile file).2 ≠ -2 := by
  unfold Process.addFile
  split
  · simp only
    omega
  · simp

theorem open_eq_iff {flags : BitVec 32} (hf : flags &&& oAccmode = oRdonly)
    (process : Process File) :
    (open_ library mounts process path flags systems).1.2 = -2 ↔
      IsDirectory library mounts systems path := by
  simp only [open_, hf, ite_true, bind_apply, get_eq, IsDirectory,
    lookup_flags library mounts systems _ flags.toInt]
  cases lookup library mounts systems (library.lexicallyNormal path) 0 with
  | none => simp [pure_apply]
  | some file =>
      by_cases hd : systems.stat file &&& sIfdir = 0#16
      · simp [bind_apply, get_apply, pure_apply, hd, addFile_ne]
      · simp [bind_apply, get_apply, pure_apply, hd]

end Calls

section Agreement

variable (library : PathLibrary) (mounts : List (MountPoint Mounted)) (systems : FileSystems)
  (path : Path)

-- The calls agree on whether the path names a directory; a regular file or a
-- device is not opened as one, and the root of a mounted file system is one.
structure Agrees : Prop where
  opendir_iff : (opendir library mounts path systems).1.isSome ↔
    IsDirectory library mounts systems path
  chdir_iff : ∀ cwd, (chdir library mounts cwd path systems).1.2 = 0 ↔
    IsDirectory library mounts systems path
  open_iff : ∀ process flags, flags &&& oAccmode = oRdonly →
    ((open_ library mounts process path flags systems).1.2 = -2 ↔
      IsDirectory library mounts systems path)
  not_opened : ∀ file, lookup library mounts systems (library.lexicallyNormal path) 0 = some file →
    systems.stat file = sIfreg ∨ systems.stat file = sIfchr →
      (opendir library mounts path systems).1 = none
  root : ∀ mp ∈ mounts, mp.point = library.lexicallyNormal path →
    ∀ cwd, (chdir library mounts cwd path systems).1.2 = 0

-- A name of the root of a file system, relative to it.
def IsRoot (name : Path) : Prop := name = [] ∨ name = "/".toList

instance (name : Path) : Decidable (IsRoot name) := inferInstanceAs (Decidable (_ ∨ _))

-- Under the name the file system has a directory that says so, or nothing.
def DirectoryOrNothing (name : Path) : Mounted → Prop
  | .ramfs => name = [] ∨
      ∀ entry, systems.ramfs.files.find? (fun entry => entry.filename = name) = some entry →
        entry.isDirectory = true
  | .devfs => ¬IsRoot name ∧ systems.devfs.getDriver library name = none
  | .apps => IsRoot name ∨ ∀ app ∈ systems.apps.apps, app.name ≠ name

-- The path leads to no mounted file system, or to a directory or nothing there.
def Served : Prop :=
  ∀ mp, getBestMountPoint mounts (library.lexicallyNormal path) = some mp →
    DirectoryOrNothing library systems
      (library.lexicallyRelative (library.lexicallyNormal path) mp.point) mp.filesystem

theorem stat_directory : (0 ||| sIfdir) &&& sIfdir ≠ 0#16 := by decide

theorem stat_regular : (0 ||| sIfreg) &&& sIfdir = 0#16 := by decide

variable {library} {mounts} {systems} {path}

theorem ramfs_get_directory_iff (name : Path) :
    (∀ file, fileAt library systems name 0 .ramfs = some file →
        systems.stat file &&& sIfdir ≠ 0#16) ↔
      DirectoryOrNothing library systems name .ramfs := by
  obtain ⟨root, rest, hfiles, _, hdir⟩ := systems.ramfs_root
  simp only [fileAt, RamFs.get, DirectoryOrNothing]
  by_cases hname : name = []
  · simp [hname, hfiles, FileSystems.stat, hdir, sIfdir]
  · simp only [hname, ite_false, false_or]
    rw [List.find?_eq_bind_findIdx?_getElem?]
    cases hidx : systems.ramfs.files.findIdx? fun entry => entry.filename = name with
    | none => simp
    | some index =>
        obtain ⟨hlt, _⟩ := List.findIdx?_eq_some_iff_getElem.mp hidx
        cases hd : systems.ramfs.files[index].isDirectory with
        | false => simp [FileSystems.stat, hlt, hd, sIfreg, sIfdir]
        | true => simp [FileSystems.stat, hlt, hd, sIfdir]

theorem devfs_get_directory_iff (name : Path) :
    (∀ file, fileAt library systems name 0 .devfs = some file →
        systems.stat file &&& sIfdir ≠ 0#16) ↔
      DirectoryOrNothing library systems name .devfs := by
  simp only [fileAt, DeviceFs.get, DirectoryOrNothing, IsRoot]
  by_cases hroot : name = [] ∨ name = "/".toList
  · simp only [hroot, ite_true, Option.some.injEq, forall_eq', not_true_eq_false, false_and,
      iff_false]
    simp [FileSystems.stat]
  · simp only [hroot, ite_false, not_false_eq_true, true_and]
    cases systems.devfs.getDriver library name with
    | none => simp
    | some entry => simp [FileSystems.stat, sIfchr, sIfdir]

theorem apps_get_directory_iff (name : Path) :
    (∀ file, fileAt library systems name 0 .apps = some file →
        systems.stat file &&& sIfdir ≠ 0#16) ↔
      DirectoryOrNothing library systems name .apps := by
  simp only [fileAt, FileSystems.appGet_snd, DirectoryOrNothing, IsRoot]
  by_cases hroot : name = [] ∨ name = "/".toList
  · simp only [hroot, ite_true, Option.some.injEq, forall_eq', true_or, iff_true]
    exact stat_directory
  · simp only [hroot, ite_false, false_or]
    cases hf : systems.apps.apps.find? fun app => app.name = name with
    | none =>
        have hnone : ∀ app ∈ systems.apps.apps, app.name ≠ name := by
          simpa using List.find?_eq_none.mp hf
        simpa using hnone
    | some app =>
        have hm := List.mem_of_find?_eq_some hf
        have hname : app.name = name := by simpa using List.find?_some hf
        have hne := (systems.apps.name_ne_root app hm).2
        refine iff_of_false (fun h => h _ rfl ?_) (fun h => h app hm hname)
        simp only [FileSystems.stat, hne, ite_false]
        exact stat_regular

theorem get_directory_iff (name : Path) (mounted : Mounted) :
    (∀ file, fileAt library systems name 0 mounted = some file →
        systems.stat file &&& sIfdir ≠ 0#16) ↔
      DirectoryOrNothing library systems name mounted := by
  cases mounted with
  | ramfs => exact ramfs_get_directory_iff name
  | devfs => exact devfs_get_directory_iff name
  | apps => exact apps_get_directory_iff name

theorem served_iff :
    Served library mounts systems path ↔
      ∀ file, lookup library mounts systems (library.lexicallyNormal path) 0 = some file →
        systems.stat file &&& sIfdir ≠ 0#16 := by
  simp only [Served, lookup]
  cases getBestMountPoint mounts (library.lexicallyNormal path) with
  | none => simp
  | some mp =>
      simp only [Option.some.injEq, forall_eq', Option.bind_some]
      exact (get_directory_iff _ _).symm

-- The point of a mounted file system leads to a file system mounted there.
theorem getBestMountPoint_point {mp : MountPoint Mounted} (hm : mp ∈ mounts) :
    ∃ found ∈ mounts, getBestMountPoint mounts mp.point = some found ∧ found.point = mp.point := by
  have hlen := length_le_bestMountPoint mounts mp.point mp hm (List.infix_refl _)
  have hbest : bestMountPoint mounts mp.point = mp.point := by
    rcases bestMountPoint_nil_or_mem mounts mp.point with hnil | ⟨best, _, hin, he⟩
    · rw [hnil, List.length_nil] at hlen
      have hz : mp.point = [] := List.length_eq_zero_iff.mp (by omega)
      rw [hnil, hz]
    · rw [he] at hlen ⊢
      exact hin.eq_of_length_le hlen
  cases hf : getBestMountPoint mounts mp.point with
  | none =>
      have hnone := List.find?_eq_none.mp hf mp hm
      simp [hbest] at hnone
  | some found =>
      obtain ⟨hfound, hpoint⟩ := getBestMountPoint_some hf
      exact ⟨found, hfound, rfl, hpoint.trans hbest⟩

-- At its root every file system has a file.
theorem exists_fileAt_root (library : PathLibrary) (systems : FileSystems) {name : Path}
    (hroot : IsRoot name) (mounted : Mounted) :
    ∃ file, fileAt library systems name 0 mounted = some file := by
  cases mounted with
  | ramfs =>
      obtain ⟨root, rest, hfiles, hname, _⟩ := systems.ramfs_root
      rcases hroot with rfl | rfl
      · exact ⟨.ramfsFile ⟨0, 0, root.filename⟩, by
          simp only [fileAt, RamFs.get, hfiles, ite_true, List.head?_cons, Option.map_some]⟩
      · have hne : "/".toList ≠ ([] : Path) := by decide
        have hidx : (root :: rest).findIdx? (fun entry => entry.filename = "/".toList) = some 0 := by
          rw [List.findIdx?_cons]
          simp only [hname, decide_true, ite_true]
        exact ⟨.ramfsFile ⟨0, 0, RamFs.shortName "/".toList⟩, by
          simp only [fileAt, RamFs.get, hne, ite_false, hfiles, hidx, Option.map_some]⟩
  | devfs =>
      have hroot' : name = [] ∨ name = "/".toList := hroot
      exact ⟨.deviceFsRootFile, by simp only [fileAt, DeviceFs.get, hroot', ite_true]⟩
  | apps =>
      have hroot' : name = [] ∨ name = "/".toList := hroot
      exact ⟨.appFile .root, by simp only [fileAt, FileSystems.appGet_snd, hroot', ite_true]⟩

theorem isDirectory_root
    (hrelative : ∀ mp ∈ mounts, IsRoot (library.lexicallyRelative mp.point mp.point))
    (hserved : Served library mounts systems path) {mp : MountPoint Mounted} (hm : mp ∈ mounts)
    (hpoint : mp.point = library.lexicallyNormal path) :
    IsDirectory library mounts systems path := by
  obtain ⟨found, hfound, hbest, he⟩ := getBestMountPoint_point hm
  have hroot := hrelative found hfound
  rw [he] at hroot
  obtain ⟨file, hfile⟩ := exists_fileAt_root library systems hroot found.filesystem
  have hlookup : lookup library mounts systems (library.lexicallyNormal path) 0 = some file := by
    rw [lookup, ← hpoint, hbest, Option.bind_some, he]
    exact hfile
  exact ⟨file, hlookup, served_iff.mp hserved file hlookup⟩

-- The calls agree on a path exactly when it leads to a directory that says so,
-- or to nothing. A name relative to itself is a name of the root.
theorem agrees_iff_served
    (hrelative : ∀ mp ∈ mounts, IsRoot (library.lexicallyRelative mp.point mp.point))
    (hlen : (library.lexicallyNormal path).length ≤ 254) :
    Agrees library mounts systems path ↔ Served library mounts systems path := by
  constructor
  · intro h
    rw [served_iff]
    intro file hfile
    obtain ⟨found, hfound, hdir⟩ := h.opendir_iff.mp (isSome_opendir.mpr ⟨file, hfile⟩)
    rw [hfile] at hfound
    obtain rfl := Option.some.inj hfound
    exact hdir
  · intro hserved
    have hopen : (opendir library mounts path systems).1.isSome ↔
        IsDirectory library mounts systems path := by
      rw [isSome_opendir]
      constructor
      · rintro ⟨file, hfile⟩
        exact ⟨file, hfile, served_iff.mp hserved file hfile⟩
      · rintro ⟨file, hfile, _⟩
        exact ⟨file, hfile⟩
    refine ⟨hopen, fun cwd => chdir_eq_zero_iff hlen cwd,
      fun process flags hf => open_eq_iff hf process, fun file hfile hstat => ?_,
      fun mp hm hpoint cwd => ?_⟩
    · have hdir := served_iff.mp hserved file hfile
      rcases hstat with hstat | hstat
      · rw [hstat] at hdir
        exact absurd (by decide) hdir
      · rw [hstat] at hdir
        exact absurd (by decide) hdir
    · exact (chdir_eq_zero_iff hlen cwd).mpr (isDirectory_root hrelative hserved hm hpoint)

-- Paths without dots, as the kernel's own are.
def plainPaths : PathLibrary where
  lexicallyNormal := fun path => path
  lexicallyRelative := fun path base => (path.drop base.length).dropWhile (· = '/')
  filename := fun path =>
    match Msos.Library.Search.findLastOf '/' path with
    | some lastSlash => path.drop (lastSlash + 1)
    | none => path

def kernelMounts : List (MountPoint Mounted) :=
  [⟨"/".toList, .ramfs⟩, ⟨"/dev".toList, .devfs⟩, ⟨"/bin".toList, .apps⟩]

def kernelSystems : FileSystems where
  ramfs := ⟨[RamFsData.createDirectory "/".toList, RamFsData.createDirectory "config".toList,
    RamFsData.createFile "config/shell.cfg".toList []]⟩
  devfs := ⟨[⟨"tty1".toList, 1⟩]⟩
  apps := ⟨[⟨"msos_shell.bin".toList, 0x08020000⟩], by decide⟩
  ramfs_root := ⟨_, _, rfl, rfl, rfl⟩

theorem agrees_iff_served_config :
    Agrees plainPaths kernelMounts kernelSystems "/config".toList ↔
      Served plainPaths kernelMounts kernelSystems "/config".toList :=
  agrees_iff_served (by decide) (by decide)

-- opendir opens a device and a regular file, and chdir fails on the root of
-- the devices.
theorem opendir_opens_device :
    ¬Agrees plainPaths kernelMounts kernelSystems "/dev/tty1".toList ∧
      ¬Agrees plainPaths kernelMounts kernelSystems "/config/shell.cfg".toList ∧
      ¬Agrees plainPaths kernelMounts kernelSystems "/dev".toList := by
  refine ⟨fun h => ?_, fun h => ?_, fun h => ?_⟩
  · have hopen := h.not_opened (.usartFile 1 "tty1".toList) (by rfl) (Or.inr rfl)
    have hsome : (opendir plainPaths kernelMounts "/dev/tty1".toList kernelSystems).1.isSome := by
      rfl
    rw [hopen] at hsome
    exact absurd hsome (by decide)
  · have hopen := h.not_opened (.ramfsFile ⟨2, 0, "/shell.cfg".toList⟩) (by rfl) (Or.inl (by rfl))
    have hsome :
        (opendir plainPaths kernelMounts "/config/shell.cfg".toList kernelSystems).1.isSome := by
      rfl
    rw [hopen] at hsome
    exact absurd hsome (by decide)
  · have hroot := h.root ⟨"/dev".toList, .devfs⟩ (by simp [kernelMounts]) (by rfl) []
    exact absurd hroot (by decide)

end Agreement

end Msos.Posix
