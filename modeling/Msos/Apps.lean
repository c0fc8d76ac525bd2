import Msos.Fs.MountPoints

namespace Msos.Apps

open Msos.Fs

structure AppEntry where
  name : List Char
  address : Nat
deriving DecidableEq, Repr

-- The default constructor of AppEntry
def AppEntry.root : AppEntry := ⟨"/".toList, 0xdeadbeef⟩

-- The file of exec_process: data() is the address of an app in the registry,
-- and of the contents in the other file systems.
structure IFile where
  data : Nat
deriving DecidableEq, Repr

def AppFile (entry : AppEntry) : IFile := ⟨entry.address⟩

-- register_executable is called through REGISTER_APP, which ends every name
-- in ".bin", so none is a name of the directory itself.
structure AppRegistry where
  apps : List AppEntry
  name_ne_root : ∀ app ∈ apps, app.name ≠ [] ∧ app.name ≠ "/".toList

namespace AppRegistry

def name : List Char := "AppFs".toList

def get (registry : AppRegistry) (path : Path) : Option IFile :=
  if path = [] ∨ path = "/".toList then some (AppFile .root)
  else (registry.apps.find? fun app => app.name = path).map AppFile

def list (registry : AppRegistry) (_path : Path) : List IFile := registry.apps.map AppFile

def fileSystem (registry : AppRegistry) : IFileSystem Id IFile where
  mkdir _ _ := (0 : Int)
  remove _ := (0 : Int)
  stat _ := (0 : Int)
  get path _ := registry.get path
  create _ _ := none
  list path := registry.list path
  name := name

-- A file of the registry has the address of a registered app unless it is the
-- directory.
theorem registered_iff {registry : AppRegistry} {path : Path} {file : IFile}
    (h : registry.get path = some file) :
    (∃ app ∈ registry.apps, app.name = path ∧ app.address = file.data) ↔
      path ≠ [] ∧ path ≠ "/".toList := by
  unfold get at h
  constructor
  · rintro ⟨app, hm, rfl, _⟩
    exact registry.name_ne_root app hm
  · intro hp
    rw [ite_cond_eq_false _ _ (eq_false (not_or.mpr hp)), Option.map_eq_some_iff] at h
    obtain ⟨app, hf, rfl⟩ := h
    exact ⟨app, List.mem_of_find?_eq_some hf, by simpa using List.find?_some hf, rfl⟩

end AppRegistry

end Msos.Apps
