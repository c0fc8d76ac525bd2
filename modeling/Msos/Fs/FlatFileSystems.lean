import Msos.Fs.FileSystems

namespace Msos.Fs

open Msos.Apps Msos.Library.Search

-- A file system of a single directory.
structure FlatFileSystem (File : Type) where
  get : Path → Int → Option File
  list : Path → List File
  name : File → Path

-- A path opens exactly if it is the directory or has the name of a listed file.
def FlatFileSystem.ListsWhatItOpens {File : Type} (fs : FlatFileSystem File) (path : Path)
    (flags : Int) : Prop :=
  (fs.get path flags).isSome ↔
    path = [] ∨ path = "/".toList ∨ path ∈ (fs.list "/".toList).map fs.name

namespace FlatFileSystems

section Drivers

variable {File : Type}

-- The file of a driver has the path that it is opened under for its name. Whether
-- there is one depends on the driver alone; the usart and the display give one always.
structure IDriver (name : File → Path) where
  file : Path → Int → Option File
  name_file : ∀ path flags opened, file path flags = some opened → name opened = path
  isSome_file : ∀ path other flags otherFlags,
    (file path flags).isSome = (file other otherFlags).isSome

structure DriverEntry (name : File → Path) where
  path : Path
  driver : IDriver name

variable {name : File → Path} (filename : Path → Path) (drivers : List (DriverEntry name))

-- add_driver only ever appends, so the list is the history of the registrations.
def addDriver (path : Path) (driver : IDriver name) : List (DriverEntry name) :=
  drivers ++ [⟨path, driver⟩]

def getDriver (path : Path) : Option (IDriver name) :=
  (drivers.find? fun entry => filename path = entry.path).map DriverEntry.driver

def deviceGet (root : File) (path : Path) (flags : Int) : Option File :=
  if path = [] ∨ path = "/".toList then some root
  else (getDriver filename drivers path).bind fun driver => driver.file path flags

def deviceList (_path : Path) : List File :=
  drivers.filterMap fun entry => entry.driver.file entry.path 0

def deviceFs (root : File) : FlatFileSystem File where
  get := deviceGet filename drivers root
  list := deviceList drivers
  name := name

end Drivers

-- The file of an app is its entry.
def appGet (apps : List AppEntry) (path : Path) (_flags : Int) : Option AppEntry :=
  if path = [] ∨ path = "/".toList then some .root
  else apps.find? fun app => app.name = path

def appList (apps : List AppEntry) (_path : Path) : List AppEntry := apps

def appRegistry (apps : List AppEntry) : FlatFileSystem AppEntry where
  get := appGet apps
  list := appList apps
  name := AppEntry.name

section Registered

variable {File : Type} {name : File → Path} {filename : Path → Path}
  {drivers : List (DriverEntry name)} {path : Path}

def IDriver.Provides (driver : IDriver name) : Prop := ∃ path flags, (driver.file path flags).isSome

-- The first driver of a name gives files.
def FirstProvides (drivers : List (DriverEntry name)) (path : Path) : Prop :=
  ∃ entry, drivers.find? (fun entry => path = entry.path) = some entry ∧ entry.driver.Provides

-- Any of them does.
def AnyProvides (drivers : List (DriverEntry name)) (path : Path) : Prop :=
  ∃ entry ∈ drivers, path = entry.path ∧ entry.driver.Provides

theorem IDriver.isSome_iff (driver : IDriver name) (path : Path) (flags : Int) :
    (driver.file path flags).isSome ↔ driver.Provides := by
  constructor
  · exact fun h => ⟨path, flags, h⟩
  · rintro ⟨other, otherFlags, h⟩
    rwa [driver.isSome_file path other flags otherFlags]

theorem AnyProvides.of_first (h : FirstProvides drivers path) : AnyProvides drivers path := by
  obtain ⟨entry, hfind, hprovides⟩ := h
  exact ⟨entry, List.mem_of_find?_eq_some hfind, by simpa using List.find?_some hfind, hprovides⟩

theorem isSome_deviceGet_iff (root : File) (flags : Int)
    (h : ¬(path = [] ∨ path = "/".toList)) :
    (deviceGet filename drivers root path flags).isSome ↔
      FirstProvides drivers (filename path) := by
  rw [deviceGet, if_neg h, getDriver, FirstProvides]
  cases hfind : drivers.find? fun entry => filename path = entry.path with
  | none => simp
  | some entry => simpa using entry.driver.isSome_iff path flags

theorem mem_deviceList_iff (directory : Path) :
    path ∈ (deviceList drivers directory).map name ↔ AnyProvides drivers path := by
  simp only [deviceList, List.mem_map, List.mem_filterMap]
  constructor
  · rintro ⟨opened, ⟨entry, hm, hfile⟩, rfl⟩
    refine ⟨entry, hm, entry.driver.name_file _ _ _ hfile, ?_⟩
    exact ⟨_, _, Option.isSome_of_eq_some hfile⟩
  · rintro ⟨entry, hm, rfl, hprovides⟩
    obtain ⟨opened, hopened⟩ :=
      Option.isSome_iff_exists.mp ((entry.driver.isSome_iff entry.path 0).mpr hprovides)
    exact ⟨opened, ⟨entry, hm, hopened⟩, entry.driver.name_file _ _ _ hopened⟩

end Registered

section Agreement

variable {File : Type} {name : File → Path}

-- The path is the directory, or a name whose first driver gives files if any of its
-- drivers does, or a longer path whose last part opens nothing that is not listed.
def Agrees (filename : Path → Path) (drivers : List (DriverEntry name)) (path : Path) : Prop :=
  path = [] ∨ path = "/".toList ∨
    if '/' ∈ path then FirstProvides drivers (filename path) ↔ AnyProvides drivers path
    else AnyProvides drivers path → FirstProvides drivers path

theorem deviceFs_listsWhatItOpens_iff {filename : Path → Path}
    (hplain : ∀ path, '/' ∉ path → filename path = path) (drivers : List (DriverEntry name))
    (root : File) (path : Path) (flags : Int) :
    (deviceFs filename drivers root).ListsWhatItOpens path flags ↔ Agrees filename drivers path := by
  unfold FlatFileSystem.ListsWhatItOpens Agrees
  by_cases hroot : path = [] ∨ path = "/".toList
  · have hget : (deviceGet filename drivers root path flags).isSome := by
      rw [deviceGet, if_pos hroot]
      rfl
    constructor
    · exact fun _ => hroot.elim Or.inl fun h => Or.inr (Or.inl h)
    · exact fun _ => iff_of_true hget (hroot.elim Or.inl fun h => Or.inr (Or.inl h))
  · have hget := @isSome_deviceGet_iff _ _ filename drivers path root flags hroot
    have hlist := @mem_deviceList_iff _ _ drivers path "/".toList
    rw [not_or] at hroot
    simp only [deviceFs, hget, hlist, hroot.1, hroot.2, false_or]
    by_cases hslash : '/' ∈ path
    · rw [if_pos hslash]
    · rw [if_neg hslash, hplain path hslash]
      exact ⟨Iff.mpr, fun h => ⟨AnyProvides.of_first, h⟩⟩

theorem appRegistry_listsWhatItOpens (apps : List AppEntry) (path : Path) (flags : Int) :
    (appRegistry apps).ListsWhatItOpens path flags := by
  unfold FlatFileSystem.ListsWhatItOpens
  by_cases hroot : path = [] ∨ path = "/".toList
  · have hget : (appGet apps path flags).isSome := by
      rw [appGet, if_pos hroot]
      rfl
    exact iff_of_true hget (hroot.elim Or.inl fun h => Or.inr (Or.inl h))
  · have hget : (appGet apps path flags).isSome ↔ path ∈ apps.map AppEntry.name := by
      rw [appGet, if_neg hroot, List.find?_isSome, List.mem_map]
      simp
    rw [not_or] at hroot
    simp only [appRegistry, hget, appList, hroot.1, hroot.2, false_or]

-- Apps are found by the whole path, devices by its last part.
theorem listsWhatItOpens_iff (filename : Path → Path)
    (hplain : ∀ path, '/' ∉ path → filename path = path) :
    (∀ (apps : List AppEntry) (path : Path) (flags : Int),
      (appRegistry apps).ListsWhatItOpens path flags) ∧
    ∀ {File : Type} {name : File → Path} (drivers : List (DriverEntry name)) (root : File)
      (path : Path) (flags : Int),
      (deviceFs filename drivers root).ListsWhatItOpens path flags ↔
        Agrees filename drivers path :=
  ⟨appRegistry_listsWhatItOpens, deviceFs_listsWhatItOpens_iff hplain⟩

end Agreement

section Systems

variable {name : File → Path} (hname : ∀ usart path, name (.usartFile usart path) = path)

def usartDriver (usart : Nat) : IDriver name where
  file := fun path _ => some (.usartFile usart path)
  name_file := by
    rintro path flags opened h
    rw [← Option.some.inj h, hname]
  isSome_file := fun _ _ _ _ => rfl

-- The mounted file systems are of this kind, with the usarts for drivers.
theorem deviceGet_usarts (library : PathLibrary) (devfs : DeviceFs) (path : Path) (flags : Int) :
    deviceGet library.filename
      (devfs.drivers.map fun entry => ⟨entry.path, usartDriver hname entry.usart⟩)
      .deviceFsRootFile path flags = devfs.get library path flags := by
  unfold deviceGet DeviceFs.get
  by_cases hroot : path = [] ∨ path = "/".toList
  · rw [if_pos hroot, if_pos hroot]
  · rw [if_neg hroot, if_neg hroot, getDriver, DeviceFs.getDriver, List.find?_map]
    simp only [Function.comp_def]
    cases devfs.drivers.find? fun entry => library.filename path = entry.path with
    | none => rfl
    | some entry => rfl

theorem deviceList_usarts (devfs : DeviceFs) (path : Path) :
    deviceList (devfs.drivers.map fun entry => ⟨entry.path, usartDriver hname entry.usart⟩) path =
      devfs.list path := by
  rw [deviceList, DeviceFs.list, List.filterMap_map]
  exact congrFun List.filterMap_eq_map' _

theorem appGet_apps (registry : AppRegistry) (path : Path) (flags : Int) :
    (appGet registry.apps path flags).map File.appFile = (FileSystems.appGet registry path).2 := by
  rw [appGet, FileSystems.appGet_snd]
  split
  · rfl
  · rfl

end Systems

section Examples

-- What is behind the last slash
def lastPart (path : Path) : Path :=
  match findLastOf '/' path with
  | some lastSlash => path.drop (lastSlash + 1)
  | none => path

def ttyDriver : IDriver (id : Path → Path) where
  file := fun path _ => some path
  name_file := fun _ _ _ h => (Option.some.inj h).symm
  isSome_file := fun _ _ _ _ => rfl

theorem listsWhatItOpens_iff_lastPart :
    (deviceFs lastPart (addDriver [] "tty1".toList ttyDriver) []).ListsWhatItOpens "tty1".toList 0 ↔
      Agrees lastPart (addDriver [] "tty1".toList ttyDriver) "tty1".toList := by
  have hplain : ∀ path, '/' ∉ path → lastPart path = path := by
    intro path h
    rw [lastPart, findLastOf_of_notMem h]
  exact (listsWhatItOpens_iff lastPart hplain).2 _ _ _ _

-- A path below a device opens the device.
theorem below_tty_not_listed :
    ¬(deviceFs lastPart (addDriver [] "tty1".toList ttyDriver) []).ListsWhatItOpens
      "x/tty1".toList 0 := by
  intro h
  obtain h | h | h := h.mp (by decide)
  · cases h
  · exact absurd h (by decide)
  · exact absurd h (by decide)

end Examples

end FlatFileSystems

end Msos.Fs
