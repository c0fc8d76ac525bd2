import Msos.Library.AddressedVector
import Msos.Library.Memory

namespace Msos

open Msos.Library

-- std::size_t is 32 bits wide.
def wrap (value : Nat) : Nat := value % 2 ^ 32

@[simp] theorem wrap_wrap (value : Nat) : wrap (wrap value) = wrap value := Nat.mod_mod ..

section Image

variable (memory : Memory)

def sizeofModuleHeader : Nat := 24

namespace ModuleHeader

variable (header : Nat)

def cookie : List UInt8 := memory.bytes header 4

def codeSize : Nat := memory.readWord (header + 4)

def dataSize : Nat := memory.readWord (header + 8)

def bssSize : Nat := memory.readWord (header + 12)

def numberOfExternalRelocations : Nat := memory.readHalf (header + 16)

def numberOfLocalRelocations : Nat := memory.readHalf (header + 18)

def numberOfDataRelocations : Nat := memory.readHalf (header + 20)

def numberOfExternalSymbols : Nat := memory.readHalf (header + 22)

def numberOfExportedSymbols : Nat := 1

def numberOfRelocations : Nat :=
  numberOfExternalRelocations memory header + numberOfLocalRelocations memory header +
    numberOfDataRelocations memory header

end ModuleHeader

def sizeofRelocation : Nat := 8

namespace Relocation

variable (relocation : Nat)

def index : Nat := memory.readWord relocation

def offset : Nat := memory.readWord (relocation + 4)

-- The symbol lies at an offset from the relocation itself.
def symbol : Nat := wrap (relocation + offset memory relocation)

end Relocation

def sizeofSymbol : Nat := 12

namespace Symbol

variable (symbol : Nat)

-- Two half words, the stored size and the section, come first; size() is the
-- constant sizeofSymbol.
def offset : Nat := memory.readWord (symbol + 4)

def code : Nat := memory.readWord (symbol + 8)

end Symbol

end Image

structure SymbolEntry where
  code : Nat
  address : Nat
deriving DecidableEq, Repr

-- The members of LoadedModule and its Module; none is a member that no
-- constructor initialises, and a lot of 0 is the null unique_ptr.
structure LoadedModule where
  header : Nat
  text : Option Nat
  data : Option Nat
  lot : Nat
  startAddress : Option Nat
deriving DecidableEq, Repr

def LoadedModule.new (header : Nat) : LoadedModule where
  header := header
  text := none
  data := none
  lot := 0
  startAddress := none

def sizeofLoadedModule : Nat := 28

inductive DynamicLinkerErrors
  | cookieValidationFailure
  | textAllocationFailure
  | dataAllocationFailure
  | lotAllocationFailure
  | externalRelocationFailure
deriving DecidableEq, Repr

-- The answers of operator new during one load; 0 is a failed allocation.
structure Allocations where
  modules : Nat
  text : Nat
  data : Nat
  lot : Nat
deriving DecidableEq, Repr

structure DynamicLinker where
  modules : AddressedVector LoadedModule sizeofLoadedModule

namespace DynamicLinker

open ModuleHeader

def new : DynamicLinker := ⟨AddressedVector.empty⟩

-- The bytes "MSDL"
def expectedCookie : List UInt8 := [0x4d, 0x53, 0x44, 0x4c]

def loadingModeCopyText : Nat := 0x02

section Layout

variable (memory : Memory) (header : Nat)

def relocationSectionAddress : Nat := wrap (header + sizeofModuleHeader)

def symbolSectionAddress : Nat :=
  wrap (relocationSectionAddress header + sizeofRelocation * numberOfRelocations memory header)

def numberOfSymbols : Nat := numberOfExternalSymbols memory header + numberOfExportedSymbols

def codeAddress : Nat :=
  let notAligned := wrap (symbolSectionAddress memory header +
    sizeofSymbol * numberOfSymbols memory header)
  if notAligned % 16 ≠ 0 then wrap (notAligned + (16 - notAligned % 16)) else notAligned

def dataAddress : Nat := wrap (codeAddress memory header + codeSize memory header)

end Layout

-- find_symbol over the symbols of an image
def findSymbol (memory : Memory) (code : Nat) : Nat → Nat → Option Nat
  | _, 0 => none
  | address, count + 1 =>
      if Symbol.code memory address = code then some address
      else findSymbol memory code (wrap (address + sizeofSymbol)) count

-- find_symbol over the entries of an environment
def findEntry (entries : List SymbolEntry) (code : Nat) : Option SymbolEntry :=
  entries.find? fun entry => entry.code = code

-- The loop shared by the three relocation passes.
def overRelocations {State : Type} (body : Nat → State → State) : Nat → Nat → State → State
  | _, 0, state => state
  | address, count + 1, state =>
      overRelocations body (wrap (address + sizeofRelocation)) count (body address state)

def lotEntry (lot index : Nat) : Nat := wrap (lot + 4 * index)

-- One round of process_external_relocations; the flag is its status.
def externalRelocation (entries : List SymbolEntry) (lot address : Nat) :
    Memory × Bool → Memory × Bool
  | (memory, status) =>
      match findEntry entries (Symbol.code memory (Relocation.symbol memory address)) with
      | some entry =>
          (memory.writeWord (lotEntry lot (Relocation.index memory address)) entry.address, status)
      | none => (memory, false)

def processExternalRelocations (entries : List SymbolEntry) (header lot address : Nat)
    (memory : Memory) : Memory × Bool :=
  overRelocations (externalRelocation entries lot) address
    (numberOfExternalRelocations memory header) (memory, true)

def localRelocation (text data lot address : Nat) (memory : Memory) : Memory :=
  let index := Relocation.index memory address
  let base := if index &&& 0x01 = 0 then text else data
  memory.writeWord (lotEntry lot (index >>> 1)) (wrap (base + Relocation.offset memory address))

def processLocalRelocations (header text data lot address : Nat) (memory : Memory) : Memory :=
  overRelocations (localRelocation text data lot) address
    (numberOfLocalRelocations memory header) memory

def dataRelocation (data address : Nat) (memory : Memory) : Memory :=
  memory.writeWord (wrap (data + 4 * Relocation.index memory address))
    (wrap (data + Relocation.offset memory address))

def processDataRelocations (header data address : Nat) (memory : Memory) : Memory :=
  overRelocations (dataRelocation data) address (numberOfDataRelocations memory header) memory

def copiesText (mode : Nat) : Prop := mode &&& loadingModeCopyText ≠ 0

instance (mode : Nat) : Decidable (copiesText mode) :=
  inferInstanceAs (Decidable (_ ≠ _))

-- Where the text of the module lies, and the memory once it lies there.
def placeText (memory : Memory) (header mode : Nat) (allocations : Allocations) : Nat × Memory :=
  if copiesText mode then
    (allocations.text,
      memory.copy allocations.text (codeAddress memory header) (codeSize memory header))
  else
    (codeAddress memory header, memory)

def placeData (memory : Memory) (header data source : Nat) : Memory :=
  let copied := memory.copy data source (dataSize memory header)
  copied.fill (wrap (data + dataSize copied header)) (bssSize copied header) 0

-- load_module from the new record on: its outcome, the record as it is left
-- behind, and the memory.
def fillModule (memory : Memory) (header mode : Nat) (entries : List SymbolEntry)
    (allocations : Allocations) : Except DynamicLinkerErrors Unit × LoadedModule × Memory :=
  let main := findSymbol memory 1 (symbolSectionAddress memory header) (numberOfSymbols memory header)
  let source := dataAddress memory header
  let relocations := relocationSectionAddress header
  let module := LoadedModule.new header
  if copiesText mode ∧ allocations.text = 0 then
    (.error .textAllocationFailure, { module with text := some 0 }, memory)
  else
    let (text, memory) := placeText memory header mode allocations
    let module := { module with text := some text }
    if allocations.data = 0 then
      (.error .dataAllocationFailure, { module with data := some 0 }, memory)
    else
      let memory := placeData memory header allocations.data source
      let module := { module with
        data := some allocations.data
        startAddress := main.map fun symbol => wrap (text + Symbol.offset memory symbol) }
      if allocations.lot = 0 then
        (.error .lotAllocationFailure, module, memory)
      else
        let module := { module with lot := allocations.lot }
        let (memory, status) :=
          processExternalRelocations entries header allocations.lot relocations memory
        if status then
          let locals := wrap (relocations +
            sizeofRelocation * numberOfExternalRelocations memory header)
          let memory :=
            processLocalRelocations header text allocations.data allocations.lot locals memory
          -- The table of the local relocations is passed again.
          let memory := processDataRelocations header allocations.data locals memory
          (.ok (), module, memory)
        else
          (.error .externalRelocationFailure, module, memory)

-- What a call of load_module returns and leaves behind; a pointer to the
-- record, or the null pointer with the error code.
structure Outcome where
  result : Except DynamicLinkerErrors Nat
  linker : DynamicLinker
  memory : Memory

-- The record is filled where emplace_back has put it, and nothing reads
-- modules_ before that is done.
def loadModule (linker : DynamicLinker) (memory : Memory) (header mode : Nat)
    (entries : List SymbolEntry) (allocations : Allocations) : Outcome :=
  if cookie memory header ≠ expectedCookie then
    ⟨.error .cookieValidationFailure, linker, memory⟩
  else
    let (result, module, memory) := fillModule memory header mode entries allocations
    let modules := linker.modules.emplaceBack module allocations.modules
    ⟨result.map fun _ => modules.back, ⟨modules⟩, memory⟩

def unloadModule (linker : DynamicLinker) (module : Nat) : DynamicLinker :=
  match linker.modules.indexOf? module with
  | some i => ⟨linker.modules.eraseAt i⟩
  | none => linker

def Contains (memory : Memory) (address : Nat) (module : LoadedModule) : Prop :=
  ∃ text ∈ module.text, text ≤ address ∧ address < wrap (text + codeSize memory module.header)

instance (memory : Memory) (address : Nat) (module : LoadedModule) :
    Decidable (Contains memory address module) :=
  inferInstanceAs (Decidable (∃ text ∈ module.text, _))

def getLotForModuleAt (linker : DynamicLinker) (memory : Memory) (address : Nat) : Nat :=
  match linker.modules.elements.find? fun module => Contains memory address module with
  | some module => module.lot
  | none => 0xffffffff

end DynamicLinker

end Msos
