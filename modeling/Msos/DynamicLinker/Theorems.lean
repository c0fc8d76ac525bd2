import Msos.DynamicLinker
import Msos.Library.Machine

namespace Msos.DynamicLinker

open Msos.Library Msos.Library.Machine ModuleHeader

section Load

variable {linker : DynamicLinker} {memory : Memory} {header mode : Nat}
  {entries : List SymbolEntry} {allocations : Allocations}

theorem loadModule_of_cookie (hc : cookie memory header ≠ expectedCookie) :
    linker.loadModule memory header mode entries allocations =
      ⟨.error .cookieValidationFailure, linker, memory⟩ := by
  simp [loadModule, hc]

-- Behind the cookie every call appends one record, whatever it returns.
theorem modules_loadModule (hc : cookie memory header = expectedCookie) :
    (linker.loadModule memory header mode entries allocations).linker.modules =
      linker.modules.emplaceBack (fillModule memory header mode entries allocations).2.1
        allocations.modules := by
  simp [loadModule, hc]

theorem cookie_of_ok {module : Nat}
    (h : (linker.loadModule memory header mode entries allocations).result = .ok module) :
    cookie memory header = expectedCookie := by
  by_contra hc
  rw [loadModule_of_cookie hc] at h
  cases h

theorem result_of_ok {module : Nat}
    (h : (linker.loadModule memory header mode entries allocations).result = .ok module) :
    module = (linker.loadModule memory header mode entries allocations).linker.modules.back := by
  have hc := cookie_of_ok h
  rw [modules_loadModule hc]
  simp only [loadModule, hc, ne_eq, not_true_eq_false, ite_false] at h
  cases hr : (fillModule memory header mode entries allocations).1 with
  | error e =>
      rw [hr] at h
      cases h
  | ok done =>
      rw [hr] at h
      exact (Except.ok.inj h).symm

end Load

section Handles

-- The linker with the pointers that were returned and not yet unloaded, in the
-- order of their loads, each with the record that it was returned for.
structure Client where
  linker : DynamicLinker
  handles : List (Nat × LoadedModule)

inductive Call
  | load (memory : Memory) (header mode : Nat) (entries : List SymbolEntry)
      (allocations : Allocations)
  | unload (i : Nat)

namespace Client

def new : Client := ⟨DynamicLinker.new, []⟩

-- A new block for the records cannot overlap the one they are moved from.
def Allocated (modules : AddressedVector LoadedModule sizeofLoadedModule) (storage : Nat) : Prop :=
  modules.elements.length < modules.capacity ∨ modules.Apart storage modules.grown

instance (modules : AddressedVector LoadedModule sizeofLoadedModule) (storage : Nat) :
    Decidable (Allocated modules storage) :=
  inferInstanceAs (Decidable (_ ∨ _ ∨ _))

-- A load_module that succeeds, or unload_module of an outstanding handle.
def step (client : Client) : Call → Option Client
  | .load memory header mode entries allocations =>
      if Allocated client.linker.modules allocations.modules then
        let outcome := client.linker.loadModule memory header mode entries allocations
        match outcome.result with
        | .ok handle => some ⟨outcome.linker, client.handles ++
            [(handle, (fillModule memory header mode entries allocations).2.1)]⟩
        | .error _ => none
      else none
  | .unload i =>
      match client.handles[i]? with
      | some handle => some ⟨client.linker.unloadModule handle.1, client.handles.eraseIdx i⟩
      | none => none

-- The loaded modules are those with an outstanding handle, and each handle
-- still points to its own.
def Stable (client : Client) : Prop :=
  client.linker.modules.elements = client.handles.map Prod.snd ∧
    ∀ handle ∈ client.handles, client.linker.modules.get? handle.1 = some handle.2

instance : DecidablePred Stable := fun client =>
  inferInstanceAs (Decidable (_ = client.handles.map Prod.snd ∧ ∀ handle ∈ client.handles, _))

def LoadsAlone (client : Client) : Call → Prop
  | .load _ _ _ _ _ => client.linker.modules.elements = []
  | .unload _ => True

-- The block never holds more than one record as long as loads do not nest.
inductive Single (client : Client) : Prop
  | idle (hh : client.handles = []) (he : client.linker.modules.elements = [])
      (hc : client.linker.modules.capacity ≤ 1)
  | loaded (module : LoadedModule)
      (hh : client.handles = [(client.linker.modules.address 0, module)])
      (he : client.linker.modules.elements = [module])
      (hc : client.linker.modules.capacity = 1)

variable {client next : Client}

theorem Single.stable (h : client.Single) : client.Stable := by
  cases h with
  | idle hh he _ => simp [Stable, hh, he]
  | loaded module hh he _ =>
      have hl : 0 < client.linker.modules.elements.length := by simp [he]
      have hg := AddressedVector.get?_address (by decide) hl
      simp [Stable, hh, he, hg]

theorem step_load {memory : Memory} {header mode : Nat} {entries : List SymbolEntry}
    {allocations : Allocations}
    (hs : client.step (.load memory header mode entries allocations) = some next) :
    ∃ module, Allocated client.linker.modules allocations.modules ∧
      next.linker.modules = client.linker.modules.emplaceBack module allocations.modules ∧
      next.handles = client.handles ++ [(next.linker.modules.back, module)] := by
  simp only [step] at hs
  split at hs
  · rename_i ha
    split at hs
    · rename_i handle hr
      obtain rfl := Option.some.inj hs
      refine ⟨_, ha, modules_loadModule (cookie_of_ok hr), ?_⟩
      rw [result_of_ok hr]
    · cases hs
  · cases hs

theorem single_load {memory : Memory} {header mode : Nat} {entries : List SymbolEntry}
    {allocations : Allocations} (h : client.Single) (he : client.linker.modules.elements = [])
    (hs : client.step (.load memory header mode entries allocations) = some next) :
    next.Single := by
  obtain ⟨module, _, hm, hn⟩ := step_load hs
  cases h with
  | loaded _ _ hne _ => simp [he] at hne
  | idle hh _ hc =>
      apply Single.loaded module
      · rw [hn, hh, hm, AddressedVector.back_emplaceBack, he]
        rfl
      · rw [hm, AddressedVector.elements_emplaceBack, he]
        rfl
      · rw [hm]
        unfold AddressedVector.emplaceBack
        by_cases hroom : 0 < client.linker.modules.capacity
        · simp only [he, List.length_nil, hroom, ite_true]
          omega
        · simp [he, hroom, AddressedVector.grown]

theorem single_unload {i : Nat} (h : client.Single) (hs : client.step (.unload i) = some next) :
    next.Single := by
  simp only [step] at hs
  split at hs
  · rename_i handle hi
    obtain rfl := Option.some.inj hs
    cases h with
    | idle hh _ _ => simp [hh] at hi
    | loaded module hh he hc =>
        have hzero : i = 0 := by
          have := (List.getElem?_eq_some_iff.mp hi).1
          simp only [hh, List.length_singleton] at this
          omega
        subst hzero
        obtain rfl : (client.linker.modules.address 0, module) = handle := by simpa [hh] using hi
        have hl : 0 < client.linker.modules.elements.length := by simp [he]
        have hx := AddressedVector.indexOf?_address (by decide) hl
        apply Single.idle
        · simp [hh]
        · simp [unloadModule, hx, AddressedVector.eraseAt, he]
        · simp [unloadModule, hx, AddressedVector.eraseAt, hc]
  · cases hs

-- A second record moves the first one away from its handle.
theorem not_stable_of_nested {memory : Memory} {header mode : Nat} {entries : List SymbolEntry}
    {allocations : Allocations} (h : client.Single) (hne : client.linker.modules.elements ≠ [])
    (hs : client.step (.load memory header mode entries allocations) = some next) :
    ¬next.Stable := by
  obtain ⟨module, ha, hm, hn⟩ := step_load hs
  cases h with
  | idle _ he _ => exact absurd he hne
  | loaded old hh he hc =>
      intro hstable
      have hlen : client.linker.modules.elements.length = 1 := by simp [he]
      have hapart : client.linker.modules.Apart allocations.modules client.linker.modules.grown :=
        ha.resolve_left (by omega)
      have hgone := AddressedVector.get?_moved (by decide) module (hlen.trans hc.symm)
        (show 0 < client.linker.modules.elements.length by omega) hapart
      have hfirst := hstable.2 (client.linker.modules.address 0, old) (by simp [hn, hh])
      rw [hm, hgone] at hfirst
      cases hfirst

theorem single_new : new.Single := .idle rfl rfl (by decide)

theorem stable_iff_loadsAlone (calls : List Call) :
    Throughout step Stable new calls ↔ Respects step LoadsAlone new calls := by
  refine throughout_iff_respects Single (fun _ h => h.stable) ?_ ?_ single_new
  · intro client call next h hg hs
    cases call with
    | load memory header mode entries allocations => exact single_load h hg hs
    | unload i => exact single_unload h hs
  · intro client call next h hg hs
    cases call with
    | load memory header mode entries allocations => exact not_stable_of_nested h hg hs
    | unload i => exact absurd trivial hg

-- A module of one function, as the generator lays it out: header, the symbol
-- main, padding, and "bx lr; nop".
def returnImage : List UInt8 :=
  expectedCookie ++ Memory.encode 4 4 ++ Memory.encode 4 0 ++ Memory.encode 4 0 ++
    Memory.encode 4 0 ++ Memory.encode 4 0 ++
    Memory.encode 2 12 ++ Memory.encode 2 0 ++ Memory.encode 4 1 ++ Memory.encode 4 1 ++
    List.replicate 12 0 ++ [0x70, 0x47, 0x00, 0xbf]

def returnMemory : Memory := Memory.store (fun _ => 0) 0x08010000 returnImage

theorem nested_exec_not_stable :
    ¬Throughout step Stable new
      [.load returnMemory 0x08010000 loadingModeCopyText []
          ⟨0x20004000, 0x20004100, 0x20004200, 0x20004300⟩,
        .load returnMemory 0x08010000 loadingModeCopyText []
          ⟨0x20005000, 0x20005100, 0x20005200, 0x20005300⟩] := by
  decide

end Client

end Handles

section FailedLoad

inductive LinkerCall
  | load (memory : Memory) (header mode : Nat) (entries : List SymbolEntry)
      (allocations : Allocations)
  | unload (module : Nat)

def after (linker : DynamicLinker) (calls : List LinkerCall) : DynamicLinker :=
  calls.foldl (fun linker call => match call with
    | .load memory header mode entries allocations =>
        (linker.loadModule memory header mode entries allocations).linker
    | .unload module => linker.unloadModule module) linker

-- The same modules are loaded, and no later lookup tells the two apart.
def NoTrace (before after : DynamicLinker) : Prop :=
  after.modules.elements = before.modules.elements ∧
    ∀ calls memory address, (after.after calls).getLotForModuleAt memory address =
      (before.after calls).getLotForModuleAt memory address

variable {linker : DynamicLinker} {memory : Memory} {header mode : Nat}
  {entries : List SymbolEntry} {allocations : Allocations}

theorem noTrace_loadModule_iff :
    NoTrace linker (linker.loadModule memory header mode entries allocations).linker ↔
      cookie memory header ≠ expectedCookie := by
  constructor
  · intro ht hc
    have he := ht.1
    rw [modules_loadModule hc, AddressedVector.elements_emplaceBack] at he
    have := congrArg List.length he
    simp at this
  · intro hc
    rw [loadModule_of_cookie hc]
    exact ⟨rfl, fun _ _ _ => rfl⟩

theorem fillModule_ne_cookie :
    (fillModule memory header mode entries allocations).1 ≠ .error .cookieValidationFailure := by
  simp only [fillModule]
  split
  · simp
  · split
    · simp
    · split
      · simp
      · split <;> simp

-- Only the check of the cookie comes before the record is created, so of all
-- failures the one with its error code is the only one that leaves no trace.
theorem failed_noTrace_iff_cookie {error : DynamicLinkerErrors}
    (h : (linker.loadModule memory header mode entries allocations).result = .error error) :
    (NoTrace linker (linker.loadModule memory header mode entries allocations).linker ↔
        cookie memory header ≠ expectedCookie) ∧
      (cookie memory header ≠ expectedCookie ↔ error = .cookieValidationFailure) := by
  refine ⟨noTrace_loadModule_iff, ?_⟩
  by_cases hc : cookie memory header = expectedCookie
  · have hne := @fillModule_ne_cookie memory header mode entries allocations
    simp only [loadModule, hc, ne_eq, not_true_eq_false, ite_false] at h
    cases hr : (fillModule memory header mode entries allocations).1 with
    | ok done =>
        rw [hr] at h
        cases h
    | error other =>
        rw [hr] at h
        obtain rfl := Except.error.inj h
        exact iff_of_false (fun hn => hn hc) fun he => hne (hr.trans (congrArg _ he))
  · rw [loadModule_of_cookie hc] at h
    exact iff_of_true hc (Except.error.inj h).symm

-- A module whose code calls one function of the environment, with code 7.
def importImage : List UInt8 :=
  expectedCookie ++ Memory.encode 4 4 ++ Memory.encode 4 0 ++ Memory.encode 4 0 ++
    Memory.encode 2 1 ++ Memory.encode 2 0 ++ Memory.encode 2 0 ++ Memory.encode 2 1 ++
    Memory.encode 4 0 ++ Memory.encode 4 20 ++
    Memory.encode 2 12 ++ Memory.encode 2 0 ++ Memory.encode 4 1 ++ Memory.encode 4 1 ++
    Memory.encode 2 12 ++ Memory.encode 2 2 ++ Memory.encode 4 0 ++ Memory.encode 4 7 ++
    List.replicate 8 0 ++ Memory.encode 4 0

def importMemory : Memory := Memory.store (fun _ => 0) 0x08010000 importImage

theorem failed_noTrace_iff_cookie_import :
    (NoTrace new (new.loadModule importMemory 0x08010000 0 []
          ⟨0x20004000, 0, 0x20004200, 0x20004300⟩).linker ↔
        cookie importMemory 0x08010000 ≠ expectedCookie) ∧
      (cookie importMemory 0x08010000 ≠ expectedCookie ↔
        DynamicLinkerErrors.externalRelocationFailure = .cookieValidationFailure) :=
  failed_noTrace_iff_cookie rfl

-- After a load in place that missed a symbol, the code of the module is found
-- with the table of the failed attempt for good.
theorem failed_import_leaves_trace :
    let failed := new.loadModule importMemory 0x08010000 0 []
      ⟨0x20004000, 0, 0x20004200, 0x20004300⟩
    let retry := LinkerCall.load importMemory 0x08010000 0 [⟨7, 0x08000101⟩]
      ⟨0x20005000, 0, 0x20005200, 0x20005300⟩
    failed.result = .error .externalRelocationFailure ∧
      (new.after [retry]).getLotForModuleAt importMemory 0x08010040 = 0x20005300 ∧
      (failed.linker.after [retry]).getLotForModuleAt importMemory 0x08010040 = 0x20004300 ∧
      ¬NoTrace new failed.linker := by
  intro failed retry
  have hretry : (new.after [retry]).getLotForModuleAt importMemory 0x08010040 = 0x20005300 := by
    decide
  have hfailed : (failed.linker.after [retry]).getLotForModuleAt importMemory 0x08010040 =
      0x20004300 := by
    decide
  refine ⟨rfl, hretry, hfailed, fun h => ?_⟩
  have := h.2 [retry] importMemory 0x08010040
  rw [hretry, hfailed] at this
  exact absurd this (by decide)

end FailedLoad

end Msos.DynamicLinker
