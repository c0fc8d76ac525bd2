import Msos.Spawn
import Msos.DynamicLinker.Theorems

namespace Msos.Spawn.Kernel

open Msos.Library Msos.Fs Msos.Apps Msos.DynamicLinker ModuleHeader

-- The symbol that load_module takes the start address from.
def mainSymbol (memory : Memory) (header : Nat) : Option Nat :=
  findSymbol memory 1 (symbolSectionAddress memory header) (numberOfSymbols memory header)

section StartAddress

variable {linker : DynamicLinker} {memory : Memory} {header mode : Nat}
  {entries : List SymbolEntry} {allocations : Allocations}

-- The start address that load_module computes from the symbol main, behind the
-- placement of text and data.
def startOf (memory : Memory) (header mode : Nat) (allocations : Allocations) : Option Nat :=
  let (text, placed) := placeText memory header mode allocations
  let placed := placeData placed header allocations.data (dataAddress memory header)
  (mainSymbol memory header).map fun symbol => wrap (text + Symbol.offset placed symbol)

theorem startAddress_fillModule
    (h : (fillModule memory header mode entries allocations).1 = .ok ()) :
    (fillModule memory header mode entries allocations).2.1.startAddress =
      startOf memory header mode allocations := by
  simp only [fillModule] at h ⊢
  split at h
  · cases h
  · rename_i ht
    rw [ite_cond_eq_false _ _ (eq_false ht)]
    split at h
    · cases h
    · rename_i hd
      rw [ite_cond_eq_false _ _ (eq_false hd)]
      split at h
      · cases h
      · rename_i hl
        rw [ite_cond_eq_false _ _ (eq_false hl)]
        split at h
        · rename_i hs
          rw [ite_cond_eq_true _ _ (eq_true hs)]
          rfl
        · cases h

theorem get?_of_ok {handle : Nat}
    (h : (linker.loadModule memory header mode entries allocations).result = .ok handle) :
    (linker.loadModule memory header mode entries allocations).linker.modules.get? handle =
        some (fillModule memory header mode entries allocations).2.1 ∧
      (fillModule memory header mode entries allocations).1 = .ok () := by
  have hc := cookie_of_ok h
  constructor
  · rw [result_of_ok h, modules_loadModule hc]
    exact AddressedVector.get?_back (by decide) _ _
  · simp only [loadModule, hc, ne_eq, not_true_eq_false, ite_false] at h
    cases hr : (fillModule memory header mode entries allocations).1 with
    | ok done => rfl
    | error error =>
        rw [hr] at h
        cases h

end StartAddress

section Exec

variable (kernel : Kernel) (memory : Memory) (allocations : Allocations) (info : ExecInfo)

def mountPoint : Option (MountPoint (IFileSystem Id IFile)) :=
  MountPoints.getBestMountPoint kernel.points (kernel.lexicallyNormal info.path)

def pathInMount (mp : MountPoint (IFileSystem Id IFile)) : Path :=
  kernel.relative (kernel.lexicallyNormal info.path) mp.point

-- exec_process executes registered apps and the main functions of modules that
-- it loaded, and returns -1 otherwise.
def RunsLoaded (registry : AppRegistry) : Prop :=
  match kernel.execProcess memory allocations info with
  | .returns code => code = -1
  | .calls address => ∃ mp, kernel.mountPoint info = some mp ∧
      mp.filesystem.name = AppRegistry.name ∧
        ∃ app ∈ registry.apps, app.name = kernel.pathInMount info mp ∧ app.address = address
  | .executes startAddress _ => ∃ file handle address, kernel.file info = some file ∧
      (kernel.load memory allocations info file).result = .ok handle ∧
        startOf memory file.data loadingModeCopyText allocations = some address ∧
          startAddress = some address

-- The file is missing, or an app that is not the directory of the registry, or
-- a module with main, or has no data to fall back on.
def Executable : Prop :=
  ∀ file, kernel.file info = some file →
    if kernel.isApp info file then
      ∀ mp, kernel.mountPoint info = some mp →
        kernel.pathInMount info mp ≠ [] ∧ kernel.pathInMount info mp ≠ "/".toList
    else
      match (kernel.load memory allocations info file).result with
      | .ok _ => (mainSymbol memory file.data).isSome
      | .error _ => file.data = 0

variable {kernel memory allocations info}

theorem file_eq_some {file : IFile} (h : kernel.file info = some file) :
    ∃ mp, kernel.mountPoint info = some mp ∧
      mp.filesystem.get (kernel.pathInMount info mp) 0 = some file := by
  unfold Kernel.file Vfs.get Vfs.forward at h
  unfold mountPoint
  cases hm : MountPoints.getBestMountPoint kernel.points (kernel.lexicallyNormal info.path) with
  | none =>
      rw [hm] at h
      cases h
  | some mp =>
      rw [hm] at h
      exact ⟨mp, rfl, h⟩

theorem execProcess_of_app {file : IFile} (hf : kernel.file info = some file)
    (ha : kernel.isApp info file) :
    kernel.execProcess memory allocations info = .calls file.data := by
  simp [execProcess, hf, ha]

theorem execProcess_of_loaded {file : IFile} (hf : kernel.file info = some file)
    (ha : ¬kernel.isApp info file) {handle : Nat}
    (hr : (kernel.load memory allocations info file).result = .ok handle) :
    ∃ lot, kernel.execProcess memory allocations info =
      .executes (startOf memory file.data loadingModeCopyText allocations) lot := by
  obtain ⟨hg, hok⟩ := get?_of_ok hr
  have hs := startAddress_fillModule hok
  refine ⟨(fillModule memory file.data loadingModeCopyText
    (info.entries.getD kernel.environment) allocations).2.1.lot, ?_⟩
  simp only [execProcess, hf, ha, ite_false, hr]
  rw [load, hg]
  simp only [hs]

theorem execProcess_of_error {file : IFile} (hf : kernel.file info = some file)
    (ha : ¬kernel.isApp info file) {error : DynamicLinkerErrors}
    (hr : (kernel.load memory allocations info file).result = .error error) :
    kernel.execProcess memory allocations info =
      if file.data ≠ 0 then .calls file.data else .returns (-1) := by
  simp only [execProcess, hf, ha, ite_false, hr]

theorem runsLoaded_iff_executable {registry : AppRegistry}
    (hregistry : ∀ mp ∈ kernel.points, mp.filesystem.name = AppRegistry.name →
      mp.filesystem = registry.fileSystem) :
    kernel.RunsLoaded memory allocations info registry ↔
      kernel.Executable memory allocations info := by
  cases hf : kernel.file info with
  | none => simp [RunsLoaded, Executable, execProcess, hf]
  | some file =>
      obtain ⟨mp, hmp, hget⟩ := file_eq_some hf
      have hname : kernel.isApp info file ↔
          mp.filesystem.name = AppRegistry.name ∧ file.data ≠ 0 := by
        simp only [mountPoint] at hmp
        simp [isApp, destFs, Vfs.getChildFs, hmp]
      have hexec : kernel.Executable memory allocations info ↔
          if kernel.isApp info file then
            kernel.pathInMount info mp ≠ [] ∧ kernel.pathInMount info mp ≠ "/".toList
          else
            match (kernel.load memory allocations info file).result with
            | .ok _ => ((mainSymbol memory file.data).isSome : Prop)
            | .error _ => file.data = 0 := by
        simp [Executable, hf, hmp]
      rw [hexec]
      by_cases ha : kernel.isApp info file
      · obtain ⟨hn, _⟩ := hname.mp ha
        have hm : mp ∈ kernel.points := List.mem_of_find?_eq_some hmp
        rw [hregistry mp hm hn] at hget
        rw [ite_cond_eq_true _ _ (eq_true ha), ← AppRegistry.registered_iff hget, RunsLoaded,
          execProcess_of_app hf ha]
        simp [hmp, hn]
      · rw [ite_cond_eq_false _ _ (eq_false ha), RunsLoaded]
        cases hr : (kernel.load memory allocations info file).result with
        | ok handle =>
            obtain ⟨lot, he⟩ := @execProcess_of_loaded kernel memory allocations info file hf ha
              handle hr
            rw [he]
            have hsome : (mainSymbol memory file.data).isSome ↔
                ∃ address, startOf memory file.data loadingModeCopyText allocations =
                  some address := by
              rw [← Option.isSome_iff_exists, startOf, Option.isSome_map]
            simp [hf, hr, hsome]
        | error error =>
            rw [execProcess_of_error hf ha hr]
            by_cases hz : file.data = 0
            · simp [hz]
            · have hapart : mp.filesystem.name ≠ AppRegistry.name :=
                fun hn => ha (hname.mpr ⟨hn, hz⟩)
              simp [hz, hmp, hapart]

end Exec

section Images

def shell : AppRegistry := ⟨[⟨"msos_shell.bin".toList, 0x08000200⟩], by decide⟩

-- A kernel whose root file system has one file, with an image at an address.
def withImage (address : Nat) : Kernel where
  lexicallyNormal := id
  relative path point := path.drop point.length
  points := [⟨"/".toList, readOnlyFileSystem "RomFS".toList
    (fun path => if path = "app.bin".toList then some ⟨address⟩ else none) fun _ => [⟨address⟩]⟩,
    ⟨"/bin".toList, shell.fileSystem⟩]
  linker := DynamicLinker.new
  environment := []

theorem runsLoaded_returnImage :
    (withImage 0x08010000).RunsLoaded Client.returnMemory
      ⟨0x20004000, 0x20004100, 0x20004200, 0x20004300⟩ ⟨"/app.bin".toList, none⟩ shell := by
  refine (runsLoaded_iff_executable fun mp hm hn => ?_).mpr fun file hf => ?_
  · simp only [withImage, List.mem_cons, List.not_mem_nil, or_false] at hm
    rcases hm with rfl | rfl
    · exact absurd hn (by decide)
    · rfl
  · obtain rfl : ⟨0x08010000⟩ = file := Option.some.inj hf
    exact (by decide : (mainSymbol Client.returnMemory 0x08010000).isSome)

-- The image without the symbol main: its code is 2 and not 1.
def mainlessMemory : Memory := Client.returnMemory.writeWord 0x08010020 2

-- An image with a missing symbol is called at its first byte, and an image
-- without main at an address that nothing has set.
theorem runsLoaded_unresolved_false :
    (withImage 0x08010000).execProcess importMemory
        ⟨0x20004000, 0x20004100, 0x20004200, 0x20004300⟩ ⟨"/app.bin".toList, none⟩ =
      .calls 0x08010000 ∧
    ¬(withImage 0x08010000).RunsLoaded importMemory
      ⟨0x20004000, 0x20004100, 0x20004200, 0x20004300⟩ ⟨"/app.bin".toList, none⟩ shell ∧
    (withImage 0x08010000).execProcess mainlessMemory
        ⟨0x20004000, 0x20004100, 0x20004200, 0x20004300⟩ ⟨"/app.bin".toList, none⟩ =
      .executes none 0x20004300 ∧
    ¬(withImage 0x08010000).RunsLoaded mainlessMemory
      ⟨0x20004000, 0x20004100, 0x20004200, 0x20004300⟩ ⟨"/app.bin".toList, none⟩ shell := by
  have hcalls : (withImage 0x08010000).execProcess importMemory
      ⟨0x20004000, 0x20004100, 0x20004200, 0x20004300⟩ ⟨"/app.bin".toList, none⟩ =
        .calls 0x08010000 := by decide
  have hexecutes : (withImage 0x08010000).execProcess mainlessMemory
      ⟨0x20004000, 0x20004100, 0x20004200, 0x20004300⟩ ⟨"/app.bin".toList, none⟩ =
        .executes none 0x20004300 := by decide
  refine ⟨hcalls, fun h => ?_, hexecutes, fun h => ?_⟩
  · rw [RunsLoaded, hcalls] at h
    obtain ⟨_, _, _, app, hm, _, ha⟩ := h
    rw [List.mem_singleton.mp hm] at ha
    exact absurd ha (by decide)
  · rw [RunsLoaded, hexecutes] at h
    obtain ⟨_, _, _, _, _, _, hs⟩ := h
    cases hs

end Images

end Msos.Spawn.Kernel
