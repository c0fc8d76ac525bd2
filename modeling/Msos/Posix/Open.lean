import Mathlib.Logic.Function.Basic
import Msos.Posix.Directories.Theorems

namespace Msos.Posix

open Msos.Fs Msos.Fs.MountPoints Msos.Kernel Msos.Library

section OpenFile

variable {State OpenedFile : Type} (normal : Path → Path) (relative : Path → Path → Path)
  (points : List (MountPoint (IFileSystem (StateM State) OpenedFile)))
  (stat : State → OpenedFile → BitVec 16)

-- _open over any mounted file systems; without a scheduler or a current
-- process there is no process.
def openFile (current : Option (Process OpenedFile)) (filename : Path) (flags : BitVec 32) :
    StateM State (Option (Process OpenedFile) × Int) := do
  match current with
  | none => return (none, -1)
  | some process =>
      let path := normal filename
      if flags &&& oAccmode = oRdonly then
        match ← Vfs.get relative points path flags.toInt with
        | none => return (process, -1)
        | some file =>
            let state ← get
            if stat state file &&& sIfdir ≠ 0 then
              return (process, -2)
            else
              let (process, fd) := process.addFile (some file)
              return (process, fd)
      else if flags &&& oCreat = oCreat then
        match ← Vfs.create relative points path flags.toInt with
        | none => return (process, -1)
        | some file =>
            let (process, fd) := process.addFile (some file)
            return (process, fd)
      else
        match ← Vfs.get relative points path flags.toInt with
        | none => return (process, -1)
        | some file =>
            let (process, fd) := process.addFile (some file)
            return (process, fd)

end OpenFile

-- RomFs over an image that the romfs library reads: the files that it finds
-- and lists.
structure RomFs (RomFile : Type) where
  get : Path → Option RomFile
  list : Path → List RomFile

-- More than one RamFs may be mounted: each set of file systems has a number.
abbrev Instances := Nat → FileSystems

inductive Volume (RomFile : Type)
  | mounted (id : Nat) (kind : Mounted)
  | romfs (disk : RomFs RomFile)

inductive VolumeFile (RomFile : Type)
  | mounted (id : Nat) (file : File)
  | romFsFile (file : RomFile)

-- stdout of the C library when a call starts: the calls of _write that come of what is
-- printed meanwhile, which depend on its buffer.
structure Stdout where
  writes : List (List Char) → List (List UInt8)
  silent : writes [] = []

-- A buffer that keeps what is printed.
def Stdout.quiet : Stdout := ⟨fun _ => [], rfl⟩

section Volumes

variable {RomFile : Type}

-- The file that Process::get_file finds for the standard output.
def outputFile (process : Process (VolumeFile RomFile)) : Option (VolumeFile RomFile) :=
  if process.fdMap &&& BitMap.bit 32 1 ≠ 0 then process.fd 1 else none

-- What _write to the standard output does to the file systems: the files of the other
-- classes store nothing.
def writeOutput (current : Option (Process (VolumeFile RomFile))) (instances : Instances)
    (bytes : List UInt8) : Instances :=
  match current.bind outputFile with
  | some (.mounted id (.ramfsFile file)) =>
      Function.update instances id ((instances id).writeRamFs file bytes)
  | _ => instances

def print (stdout : Stdout) (current : Option (Process (VolumeFile RomFile)))
    (texts : List (List Char)) : StateM Instances Unit :=
  fun instances => ((), (stdout.writes texts).foldl (writeOutput current) instances)

-- An operation on the file systems of one instance.
def atInstance {α : Type} (id : Nat) (operation : Operation α) : StateM Instances α :=
  fun instances =>
    let (result, systems) := operation (instances id)
    (result, Function.update instances id systems)

def Volume.printed (instances : Instances) (name : Path) : Volume RomFile → List (List Char)
  | .mounted id kind => kind.printed (instances id) name
  | .romfs _ => []

-- `output` is what becomes of what is printed.
def Volume.fileSystem (library : PathLibrary) (output : List (List Char) → StateM Instances Unit) :
    Volume RomFile → IFileSystem (StateM Instances) (VolumeFile RomFile)
  | .mounted id kind =>
      let fs := kind.fileSystem library
      {
        mkdir := fun path mode => atInstance id (fs.mkdir path mode)
        remove := fun path => atInstance id (fs.remove path)
        stat := fun path => atInstance id (fs.stat path)
        get := fun path flags => do
          let instances ← get
          output (Volume.printed instances path (.mounted id kind : Volume RomFile))
          Option.map (.mounted id) <$> atInstance id (fs.get path flags)
        create := fun path flags => Option.map (.mounted id) <$> atInstance id (fs.create path flags)
        list := fun path => List.map (.mounted id) <$> atInstance id (fs.list path)
        name := fs.name
      }
  | .romfs disk =>
      let fs := readOnlyFileSystem "RomFS".toList disk.get disk.list
      {
        mkdir := fun path mode => pure (fs.mkdir path mode)
        remove := fun path => pure (fs.remove path)
        stat := fun path => pure (fs.stat path)
        get := fun path flags => pure (Option.map .romFsFile (fs.get path flags))
        create := fun path flags => pure (Option.map .romFsFile (fs.create path flags))
        list := fun path => pure (List.map .romFsFile (fs.list path))
        name := fs.name
      }

def volumePoints (library : PathLibrary) (output : List (List Char) → StateM Instances Unit)
    (volumes : List (MountPoint (Volume RomFile))) :
    List (MountPoint (IFileSystem (StateM Instances) (VolumeFile RomFile))) :=
  volumes.map fun mp => ⟨mp.point, mp.filesystem.fileSystem library output⟩

def volumeStat (romStat : RomFile → BitVec 16) (instances : Instances) :
    VolumeFile RomFile → BitVec 16
  | .mounted id file => (instances id).stat file
  | .romFsFile file => romStat file

variable (library : PathLibrary) (volumes : List (MountPoint (Volume RomFile)))
  (romStat : RomFile → BitVec 16) (stdout : Stdout)

def openVolumes (current : Option (Process (VolumeFile RomFile))) (filename : Path)
    (flags : BitVec 32) : StateM Instances (Option (Process (VolumeFile RomFile)) × Int) :=
  openFile library.lexicallyNormal library.lexicallyRelative
    (volumePoints library (print stdout current) volumes) (volumeStat romStat) current filename flags

-- O_CREAT is looked at in the modes that write.
def Creates (flags : BitVec 32) : Prop := flags &&& oAccmode ≠ oRdonly ∧ flags &&& oCreat = oCreat

-- The path leads to a name of a RamFs.
structure InRamFs (filename : Path) (id : Nat) (name : Path) : Prop where
  best : ∃ mp, getBestMountPoint volumes (library.lexicallyNormal filename) = some mp ∧
    mp.filesystem = .mounted id .ramfs ∧
    library.lexicallyRelative (library.lexicallyNormal filename) mp.point = name

-- Apart from one name of one RamFs everything is as it was.
structure ChangesOnly (id : Nat) (name : Path) (before after : Instances) : Prop where
  others : ∀ other, other ≠ id → after other = before other
  devfs : (after id).devfs = (before id).devfs
  apps : (after id).apps = (before id).apps
  entries : (after id).ramfs.files.filter (fun entry => entry.filename ≠ name) =
    (before id).ramfs.files.filter fun entry => entry.filename ≠ name

-- The descriptor was free, and no other one has changed.
structure Takes (before after : Process (VolumeFile RomFile)) (fd : Int) : Prop where
  free : ∃ i : Fin 8, fd = i.val ∧ before.fdMap &&& BitMap.bit 32 i.val = 0 ∧
    after.fdMap = before.fdMap ||| BitMap.bit 32 i.val ∧ ∀ j, j ≠ i → after.fd j = before.fd j

-- A failed open changes nothing, and another one what it was asked for.
structure ChangesAsAsked (current : Option (Process (VolumeFile RomFile))) (filename : Path)
    (flags : BitVec 32) (before : Instances)
    (outcome : (Option (Process (VolumeFile RomFile)) × Int) × Instances) : Prop where
  failed : outcome.1.2 < 0 → outcome.1.1 = current ∧ outcome.2 = before
  opened : 0 ≤ outcome.1.2 → (∃ process after, current = some process ∧
      outcome.1.1 = some after ∧ Takes process after outcome.1.2) ∧
    (outcome.2 = before ∨ Creates flags ∧ ∃ id name, InRamFs library volumes filename id name ∧
      ChangesOnly id name before outcome.2)

def Full (process : Process (VolumeFile RomFile)) : Prop :=
  ∀ i : Fin 8, process.fdMap &&& BitMap.bit 32 i.val ≠ 0

-- A new file is asked for that no descriptor is left for.
structure CreatesInVain (current : Option (Process (VolumeFile RomFile))) (filename : Path)
    (flags : BitVec 32) : Prop where
  creates : Creates flags
  full : ∃ process, current = some process ∧ Full process
  inRamFs : ∃ id name, InRamFs library volumes filename id name

-- What Vfs::get prints for a path.
def searchPrints (instances : Instances) (path : Path) : List (List Char) :=
  match getBestMountPoint volumes path with
  | some mp => mp.filesystem.printed instances (library.lexicallyRelative path mp.point)
  | none => []

-- A lookup in a registry prints, and the standard output is a file of a RamFs.
structure PrintsToFile (current : Option (Process (VolumeFile RomFile))) (filename : Path)
    (flags : BitVec 32) (instances : Instances) : Prop where
  looksUp : ¬Creates flags
  prints : ∃ bytes ∈ stdout.writes
    (searchPrints library volumes instances (library.lexicallyNormal filename)), bytes ≠ []
  output : ∃ process id file, current = some process ∧
    outputFile process = some (.mounted id (.ramfsFile file)) ∧
    file.data < (instances id).ramfs.files.length

end Volumes

section Steps

variable {library : PathLibrary} {filename : Path} {flags : BitVec 32}

-- With one set of file systems this is _open of the directory calls.
theorem openFile_fileSystems (mounts : List (MountPoint Mounted)) (current : Process File)
    (systems : FileSystems) :
    openFile library.lexicallyNormal library.lexicallyRelative (fileSystems library mounts)
        FileSystems.stat (some current) filename flags systems =
      let outcome := open_ library mounts current filename flags systems
      ((some outcome.1.1, outcome.1.2), outcome.2) := by
  simp only [openFile, open_]
  split
  · simp only [bind_apply, get_eq]
    cases lookup library mounts systems (library.lexicallyNormal filename) flags.toInt with
    | none => rfl
    | some file =>
        simp only [bind_apply, get_apply]
        by_cases hdir : systems.stat file &&& sIfdir = 0#16
        · simp [hdir, pure_apply]
        · simp [hdir, pure_apply]
  · split
    · simp only [bind_apply]
      cases (Vfs.create library.lexicallyRelative (fileSystems library mounts)
        (library.lexicallyNormal filename) flags.toInt systems).1 <;> rfl
    · simp only [bind_apply, get_eq]
      cases lookup library mounts systems (library.lexicallyNormal filename) flags.toInt <;> rfl

theorem get_bind {State α : Type} (next : State → StateM State α) (state : State) :
    StateT.bind get next state = next state state := rfl

end Steps

section Calls

variable {State OpenedFile : Type} {normal : Path → Path} {relative : Path → Path → Path}
  {points : List (MountPoint (IFileSystem (StateM State) OpenedFile))}
  {stat : State → OpenedFile → BitVec 16} {process : Process OpenedFile} {filename : Path}
  {flags : BitVec 32} {state after : State} {found : Option OpenedFile}

-- What a call with a process returns, for a file that is made or looked up.
theorem openFile_creates (hc : Creates flags)
    (hcreate : Vfs.create relative points (normal filename) flags.toInt state = (found, after)) :
    openFile normal relative points stat (some process) filename flags state =
      match found with
      | none => ((some process, -1), after)
      | some file =>
          ((some (process.addFile (some file)).1, (process.addFile (some file)).2), after) := by
  simp only [openFile, if_neg hc.1, if_pos hc.2, bind, StateT.bind, hcreate]
  cases found <;> rfl

theorem openFile_gets (hc : ¬Creates flags)
    (hget : Vfs.get relative points (normal filename) flags.toInt state = (found, after)) :
    (∃ code < 0, openFile normal relative points stat (some process) filename flags state =
        ((some process, code), after)) ∨ ∃ file,
      openFile normal relative points stat (some process) filename flags state =
        ((some (process.addFile (some file)).1, (process.addFile (some file)).2), after) := by
  by_cases hread : flags &&& oAccmode = oRdonly
  · simp only [openFile, if_pos hread, bind, StateT.bind, hget]
    cases found with
    | none => exact Or.inl ⟨-1, by omega, rfl⟩
    | some file =>
        simp only [get_bind]
        by_cases hdir : stat after file &&& sIfdir = 0
        · simp only [hdir, ne_eq, not_true_eq_false, if_false]
          exact Or.inr ⟨file, rfl⟩
        · simp only [hdir, ne_eq, not_false_eq_true, if_true]
          exact Or.inl ⟨-2, by omega, rfl⟩
  · have hnocreat : ¬flags &&& oCreat = oCreat := fun h => hc ⟨hread, h⟩
    simp only [openFile, if_neg hread, if_neg hnocreat, bind, StateT.bind, hget]
    cases found with
    | none => exact Or.inl ⟨-1, by omega, rfl⟩
    | some file => exact Or.inr ⟨file, rfl⟩

end Calls

section Descriptors

theorem addFile_takes {RomFile : Type} {process : Process (VolumeFile RomFile)}
    (file : VolumeFile RomFile) :
    Full process ∧ process.addFile (some file) = (process, -1) ∨
      ¬Full process ∧ 0 ≤ (process.addFile (some file)).2 ∧
        Takes process (process.addFile (some file)).1 (process.addFile (some file)).2 := by
  unfold Process.addFile
  split
  · rename_i i hfind
    have hfree : process.fdMap &&& BitMap.bit 32 i.val = 0 := by simpa using List.find?_some hfind
    refine Or.inr ⟨fun hfull => hfull i hfree, by simp, ⟨i, rfl, hfree, rfl, fun j hj => ?_⟩⟩
    exact if_neg hj
  · rename_i hfind
    refine Or.inl ⟨fun i => ?_, rfl⟩
    simpa using List.find?_eq_none.mp hfind i (List.mem_finRange i)

end Descriptors

section Outcomes

variable {RomFile : Type} {library : PathLibrary} {volumes : List (MountPoint (Volume RomFile))}
  {romStat : RomFile → BitVec 16} {stdout : Stdout} {filename path : Path} {flags : BitVec 32}
  {code : Int} {instances : Instances} {current : Option (Process (VolumeFile RomFile))}
  {output : List (List Char) → StateM Instances Unit}

theorem getBestMountPoint_volumePoints (path : Path) :
    getBestMountPoint (volumePoints library output volumes) path =
      (getBestMountPoint volumes path).map fun mp =>
        ⟨mp.point, mp.filesystem.fileSystem library output⟩ :=
  getBestMountPoint_map (Volume.fileSystem library output) volumes path

theorem print_nil : print stdout current [] instances = ((), instances) := by
  rw [print, stdout.silent, List.foldl_nil]

-- A lookup changes no file system but by what it prints.
theorem fileSystem_get (volume : Volume RomFile) (name : Path) (code : Int) : ∃ found,
    (volume.fileSystem library (print stdout current)).get name code instances =
      (found, (print stdout current (volume.printed instances name) instances).2) := by
  cases volume with
  | romfs disk =>
      rw [Volume.printed, print_nil]
      exact ⟨_, rfl⟩
  | mounted id kind =>
      have hsame (after : Instances) : Function.update after id (after id) = after :=
        Function.update_eq_self id after
      cases kind <;> exact ⟨_, congrArg (Prod.mk _) (hsame _)⟩

-- Files are made by a RamFs only.
theorem fileSystem_create (volume : Volume RomFile) (name : Path) (code : Int) :
    (∃ id file, volume = .mounted id .ramfs ∧
      (volume.fileSystem library output).create name code instances =
        (some file, Function.update instances id ((instances id).create name code).1)) ∨
    (∀ id, volume ≠ .mounted id .ramfs) ∧
      (volume.fileSystem library output).create name code instances = (none, instances) := by
  cases volume with
  | romfs disk => exact Or.inr ⟨by simp, rfl⟩
  | mounted id kind =>
      have hsame : Function.update instances id (instances id) = instances :=
        Function.update_eq_self id instances
      cases kind with
      | ramfs => exact Or.inl ⟨id, _, rfl, rfl⟩
      | devfs => exact Or.inr ⟨by simp, congrArg (Prod.mk _) hsame⟩
      | apps => exact Or.inr ⟨by simp, congrArg (Prod.mk _) hsame⟩

theorem get_volumes (path : Path) (code : Int) : ∃ found,
    Vfs.get library.lexicallyRelative (volumePoints library (print stdout current) volumes) path
        code instances =
      (found, (print stdout current (searchPrints library volumes instances path) instances).2) := by
  simp only [Vfs.get, Vfs.forward, getBestMountPoint_volumePoints, searchPrints]
  cases getBestMountPoint volumes path with
  | none =>
      rw [print_nil]
      exact ⟨none, rfl⟩
  | some mp => exact fileSystem_get mp.filesystem _ code

theorem create_volumes (filename : Path) (code : Int) :
    (∃ id name file, InRamFs library volumes filename id name ∧
      Vfs.create library.lexicallyRelative (volumePoints library output volumes)
          (library.lexicallyNormal filename) code instances =
        (some file, Function.update instances id ((instances id).create name code).1)) ∨
    (∀ id name, ¬InRamFs library volumes filename id name) ∧
      Vfs.create library.lexicallyRelative (volumePoints library output volumes)
          (library.lexicallyNormal filename) code instances = (none, instances) := by
  simp only [Vfs.create, Vfs.forward, getBestMountPoint_volumePoints]
  cases hbest : getBestMountPoint volumes (library.lexicallyNormal filename) with
  | none =>
      refine Or.inr ⟨fun id name h => ?_, rfl⟩
      obtain ⟨mp, hmp, -⟩ := h.best
      simp [hbest] at hmp
  | some mp =>
      rcases @fileSystem_create _ library instances output mp.filesystem
        (library.lexicallyRelative (library.lexicallyNormal filename) mp.point) code with
        ⟨id, file, hvolume, hcreate⟩ | ⟨hvolume, hcreate⟩
      · exact Or.inl ⟨id, _, file, ⟨mp, hbest, hvolume, rfl⟩, hcreate⟩
      · refine Or.inr ⟨fun id name h => ?_, hcreate⟩
        obtain ⟨other, hother, hramfs, -⟩ := h.best
        obtain rfl := Option.some.inj (hbest.symm.trans hother)
        exact hvolume id hramfs

-- A new entry of a name leaves the entries of all others.
theorem changesOnly_create (id : Nat) (name : Path) (code : Int) :
    ChangesOnly id name instances
      (Function.update instances id ((instances id).create name code).1) := by
  constructor
  · exact fun other hother => Function.update_of_ne hother _ _
  · rw [Function.update_self]
    rfl
  · rw [Function.update_self]
    rfl
  · rw [Function.update_self]
    simp [FileSystems.create, RamFs.create, RamFsData.createFile]

theorem create_ne (id : Nat) (name : Path) (code : Int) :
    Function.update instances id ((instances id).create name code).1 ≠ instances := by
  intro hsame
  have hfiles := congrArg (fun after => (after id).ramfs.files.length) hsame
  simp [FileSystems.create, RamFs.create] at hfiles

theorem openVolumes_creates {process : Process (VolumeFile RomFile)} (hc : Creates flags) :
    (∃ id name file, InRamFs library volumes filename id name ∧
      openVolumes library volumes romStat stdout (some process) filename flags instances =
        ((some (process.addFile (some file)).1, (process.addFile (some file)).2),
          Function.update instances id ((instances id).create name flags.toInt).1)) ∨
    (∀ id name, ¬InRamFs library volumes filename id name) ∧
      openVolumes library volumes romStat stdout (some process) filename flags instances =
        ((some process, -1), instances) := by
  rcases @create_volumes _ library volumes instances (print stdout (some process)) filename
    flags.toInt with
    ⟨id, name, file, hin, hcreate⟩ | ⟨hout, hcreate⟩
  · exact Or.inl ⟨id, name, file, hin, openFile_creates hc hcreate⟩
  · exact Or.inr ⟨hout, openFile_creates hc hcreate⟩

theorem changesAsAsked_of_failed (current : Option (Process (VolumeFile RomFile)))
    (hcode : code < 0) :
    ChangesAsAsked library volumes current filename flags instances
      ((current, code), instances) :=
  ⟨fun _ => ⟨rfl, rfl⟩, fun h => absurd hcode (Int.not_lt.mpr h)⟩

theorem changesAsAsked_of_takes {process after : Process (VolumeFile RomFile)}
    {next : Instances} (hcode : 0 ≤ code) (htakes : Takes process after code)
    (hnext : next = instances ∨ Creates flags ∧ ∃ id name,
      InRamFs library volumes filename id name ∧ ChangesOnly id name instances next) :
    ChangesAsAsked library volumes (some process) filename flags instances
      ((some after, code), next) :=
  ⟨fun h => absurd hcode (Int.not_le.mpr h), fun _ => ⟨⟨process, after, rfl, rfl, htakes⟩, hnext⟩⟩

-- Several writes are one write of their bytes.
theorem foldl_writeOutput {process : Process (VolumeFile RomFile)} {id : Nat} {file : RamfsFile}
    (houtput : outputFile process = some (.mounted id (.ramfsFile file)))
    (chunks : List (List UInt8)) :
    chunks.foldl (writeOutput (some process)) instances =
      Function.update instances id ((instances id).writeRamFs file chunks.flatten) := by
  have hwrite (instances : Instances) (bytes : List UInt8) :
      writeOutput (some process) instances bytes =
        Function.update instances id ((instances id).writeRamFs file bytes) := by
    rw [writeOutput, Option.bind_some, houtput]
  induction chunks generalizing instances with
  | nil =>
      rw [List.foldl_nil, List.flatten_nil, FileSystems.writeRamFs_nil, Function.update_eq_self]
  | cons bytes rest ih =>
      rw [List.foldl_cons, ih, hwrite, Function.update_self, Function.update_idem,
        FileSystems.writeRamFs_append, List.flatten_cons]

theorem foldl_writeOutput_of_ne {process : Process (VolumeFile RomFile)}
    (houtput : ∀ id file, outputFile process ≠ some (.mounted id (.ramfsFile file)))
    (chunks : List (List UInt8)) :
    chunks.foldl (writeOutput (some process)) instances = instances := by
  induction chunks with
  | nil => rfl
  | cons bytes rest ih =>
      have hwrite : writeOutput (some process) instances bytes = instances := by
        rw [writeOutput, Option.bind_some]
        split
        · rename_i hfile
          exact absurd hfile (houtput _ _)
        · rfl
      rw [List.foldl_cons, hwrite, ih]

theorem print_eq_self_iff {process : Process (VolumeFile RomFile)} (texts : List (List Char)) :
    (print stdout (some process) texts instances).2 = instances ↔
      ¬((∃ bytes ∈ stdout.writes texts, bytes ≠ []) ∧ ∃ id file,
        outputFile process = some (.mounted id (.ramfsFile file)) ∧
        file.data < (instances id).ramfs.files.length) := by
  rw [print]
  by_cases houtput : ∃ id file, outputFile process = some (.mounted id (.ramfsFile file))
  · obtain ⟨id, file, houtput⟩ := houtput
    have hflatten : (stdout.writes texts).flatten = [] ↔
        ¬∃ bytes ∈ stdout.writes texts, bytes ≠ [] := by
      rw [List.flatten_eq_nil_iff]
      push Not
      rfl
    rw [foldl_writeOutput houtput, Function.update_eq_self_iff,
      FileSystems.writeRamFs_eq_self_iff, hflatten, not_and_or]
    simp [houtput]
  · have houtput : ∀ id file, outputFile process ≠ some (.mounted id (.ramfsFile file)) :=
      fun id file h => houtput ⟨id, file, h⟩
    refine iff_of_true (foldl_writeOutput_of_ne houtput _) ?_
    rintro ⟨-, id, file, h, -⟩
    exact houtput id file h

-- An open that makes no file leaves behind what it prints.
theorem changesAsAsked_gets_iff {process : Process (VolumeFile RomFile)} (hc : ¬Creates flags) :
    ChangesAsAsked library volumes (some process) filename flags instances
        (openVolumes library volumes romStat stdout (some process) filename flags instances) ↔
      (print stdout (some process)
        (searchPrints library volumes instances (library.lexicallyNormal filename))
          instances).2 = instances := by
  obtain ⟨found, hget⟩ := @get_volumes _ library volumes stdout instances (some process)
    (library.lexicallyNormal filename) flags.toInt
  rcases @openFile_gets _ _ _ _ _ (volumeStat romStat) process _ _ _ _ _ hc hget with
    ⟨code, hcode, houtcome⟩ | ⟨file, houtcome⟩
  · rw [openVolumes, houtcome]
    refine ⟨fun h => (h.failed hcode).2, fun hsame => ?_⟩
    rw [hsame]
    exact changesAsAsked_of_failed (some process) hcode
  · rw [openVolumes, houtcome]
    rcases addFile_takes file with ⟨-, hadd⟩ | ⟨-, hcode, htakes⟩
    · rw [hadd]
      refine ⟨fun h => (h.failed (Int.negSucc_lt_zero 0)).2, fun hsame => ?_⟩
      rw [hsame]
      exact changesAsAsked_of_failed (some process) (Int.negSucc_lt_zero 0)
    · constructor
      · intro h
        exact (h.opened hcode).2.elim id fun hcreates => absurd hcreates.1 hc
      · exact fun hsame => changesAsAsked_of_takes hcode htakes (Or.inl hsame)

theorem changesAsAsked_creates_iff {process : Process (VolumeFile RomFile)} (hc : Creates flags) :
    ChangesAsAsked library volumes (some process) filename flags instances
        (openVolumes library volumes romStat stdout (some process) filename flags instances) ↔
      ¬(Full process ∧ ∃ id name, InRamFs library volumes filename id name) := by
  rcases @openVolumes_creates _ library volumes romStat stdout filename flags instances process hc
    with
    ⟨id, name, file, hin, houtcome⟩ | ⟨hout, houtcome⟩
  · rw [houtcome]
    rcases addFile_takes file with ⟨hfull, hadd⟩ | ⟨hfull, hcode, htakes⟩
    · refine iff_of_false (fun h => ?_) fun h => h ⟨hfull, id, name, hin⟩
      rw [hadd] at h
      exact create_ne id name flags.toInt (h.failed (Int.negSucc_lt_zero 0)).2
    · refine iff_of_true ?_ fun h => hfull h.1
      exact changesAsAsked_of_takes hcode htakes
        (Or.inr ⟨hc, id, name, hin, changesOnly_create id name flags.toInt⟩)
  · rw [houtcome]
    refine iff_of_true (changesAsAsked_of_failed (some process) (by decide)) ?_
    rintro ⟨-, id, name, hin⟩
    exact hout id name hin

-- An open does what it was asked for, or nothing, unless it makes a file that no
-- descriptor is left for, or what is printed on the way goes to a file.
theorem changesAsAsked_iff (library : PathLibrary) (volumes : List (MountPoint (Volume RomFile)))
    (romStat : RomFile → BitVec 16) (stdout : Stdout)
    (current : Option (Process (VolumeFile RomFile))) (filename : Path) (flags : BitVec 32)
    (instances : Instances) :
    ChangesAsAsked library volumes current filename flags instances
        (openVolumes library volumes romStat stdout current filename flags instances) ↔
      ¬CreatesInVain library volumes current filename flags ∧
        ¬PrintsToFile library volumes stdout current filename flags instances := by
  cases current with
  | none =>
      refine iff_of_true (changesAsAsked_of_failed none (by decide)) ⟨fun h => ?_, fun h => ?_⟩
      · obtain ⟨process, hprocess, -⟩ := h.full
        cases hprocess
      · obtain ⟨process, _, _, hprocess, -⟩ := h.output
        cases hprocess
  | some process =>
      by_cases hc : Creates flags
      · rw [changesAsAsked_creates_iff hc, and_iff_left fun h => h.looksUp hc]
        refine not_congr ⟨fun ⟨hfull, hin⟩ => ⟨hc, ⟨process, rfl, hfull⟩, hin⟩, fun h => ?_⟩
        obtain ⟨other, hother, hfull⟩ := h.full
        obtain rfl := Option.some.inj hother
        exact ⟨hfull, h.inRamFs⟩
      · rw [changesAsAsked_gets_iff hc, print_eq_self_iff, and_iff_right fun h => hc h.creates]
        refine not_congr ⟨fun ⟨hprints, id, file, houtput⟩ =>
          ⟨hc, hprints, process, id, file, rfl, houtput⟩, fun h => ?_⟩
        obtain ⟨other, id, file, hother, houtput⟩ := h.output
        obtain rfl := Option.some.inj hother
        exact ⟨h.prints, id, file, houtput⟩

-- A process that has opened a file five times has no descriptor left.
def busyProcess : Process (VolumeFile Unit) where
  fdMap := 0xff
  fd := fun i =>
    if i.val < 3 then none else some (.mounted 0 (.ramfsFile ⟨2, 0, "/shell.cfg".toList⟩))

def rootVolume : List (MountPoint (Volume Unit)) := [⟨"/".toList, .mounted 0 .ramfs⟩]

theorem open_leaves_log :
    (openVolumes plainPaths rootVolume (fun _ => 0) .quiet (some busyProcess) "/log".toList 0x201
        fun _ => kernelSystems).1.2 = -1 ∧
      (((openVolumes plainPaths rootVolume (fun _ => 0) .quiet (some busyProcess) "/log".toList 0x201
        fun _ => kernelSystems).2 0).ramfs.files =
        kernelSystems.ramfs.files ++ [RamFsData.createFile "log".toList []]) ∧
      ¬ChangesAsAsked plainPaths rootVolume (some busyProcess) "/log".toList 0x201
        (fun _ => kernelSystems) (openVolumes plainPaths rootVolume (fun _ => 0) .quiet (some busyProcess)
          "/log".toList 0x201 fun _ => kernelSystems) := by
  refine ⟨by rfl, by rfl, fun h => ?_⟩
  have hsame := (h.failed (by decide)).2
  have hfiles := congrArg (fun after => (after 0).ramfs.files.length) hsame
  revert hfiles
  decide

-- The standard output of a process that has closed it and opened /log, behind which every
-- line is sent at once.
def loggingProcess : Process (VolumeFile Unit) where
  fdMap := 0x7
  fd := fun i => if i = 1 then some (.mounted 0 (.ramfsFile ⟨2, 0, "/shell.cfg".toList⟩)) else none

def lineBuffered : Stdout where
  writes := fun texts => texts.map fun text => text.map fun c => c.toNat.toUInt8
  silent := rfl

def kernelVolumes : List (MountPoint (Volume Unit)) :=
  [⟨"/".toList, .mounted 0 .ramfs⟩, ⟨"/bin".toList, .mounted 0 .apps⟩]

-- No app has the name, and the search for it stays in the file.
example :
    let outcome := openVolumes plainPaths kernelVolumes (fun _ => 0) lineBuffered
      (some loggingProcess) "/bin/ls".toList 0 fun _ => kernelSystems
    outcome.1.2 = -1 ∧ (outcome.2 0).ramfs.contents 2 =
      "seearch msos_shell.bin\n".toList.map fun c => c.toNat.toUInt8 :=
  ⟨by rfl, by rfl⟩

end Outcomes

end Msos.Posix
