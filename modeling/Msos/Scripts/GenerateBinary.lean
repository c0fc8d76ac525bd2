import Msos.Library.Memory
import Msos.Scripts.ElfParser

namespace Msos.Scripts

open Msos.Library ElfParser

-- struct.pack with little-endian fields, each of a width in bytes; a value
-- that does not fit raises.
def pack (fields : List (Nat × Int)) : Except GenerateError (List UInt8) :=
  if ∀ field ∈ fields, 0 ≤ field.2 ∧ field.2 < 256 ^ field.1 then
    .ok (fields.flatMap fun field => Memory.encode field.1 field.2.toNat)
  else
    .error .structError

def processSection (elf : ElfFile) (sectionName : Name) (position : Nat) :
    Except GenerateError (Nat × Section) :=
  match (getSections elf).get? sectionName with
  | none => .error (.missingSection sectionName)
  | some (index, section_) =>
      if section_.address ≠ position then .error (.misplacedSection sectionName)
      else .ok (index, section_)

def dlOriginal : Name := "_dl_original".toList

-- objcopy -L for every wrapped symbol; `objcopy` stands for the program.
def changeVisibilityOfWrappedSymbols (objcopy : ElfFile → Name → ElfFile) (elf : ElfFile) : ElfFile :=
  ((getSymbols elf).items.filter fun item => dlOriginal.isSuffixOf item.1).foldl
    (fun elf item => objcopy elf item.1) elf

inductive Localization
  | external
  | exported
  | internal
deriving DecidableEq, Repr

def main : Name := "main".toList

def localization (symbol : Symbol) : Localization :=
  if symbol.name = main ∨ (symbol.binding = .global_ ∧ symbol.visibility ≠ .hidden) then
    if symbol.sectionIndex = .undef then .external else .exported
  else .internal

def isProcessed (symbol : Symbol) : Prop :=
  symbol.name ≠ [] ∧ symbol.name ≠ "$t".toList ∧ symbol.name ≠ "$d".toList ∧ symbol.type ≠ .file

instance (symbol : Symbol) : Decidable (isProcessed symbol) :=
  inferInstanceAs (Decidable (_ ∧ _ ∧ _ ∧ _))

-- process_symbols_visiblity: the symbols that get a localization, which are
-- entries of one dictionary and so have distinct names.
def processedSymbols (symbols : Dict Name Symbol) : List Symbol :=
  (symbols.items.map Prod.snd).filter fun symbol => isProcessed symbol

def findProcessed (processed : List Symbol) (name : Name) : Option Symbol :=
  processed.find? fun symbol => symbol.name = name

structure NamedRelocation where
  name : Name
  offset : Nat
  index : Int
deriving DecidableEq, Repr

structure LocalRelocation where
  symbolValue : Nat
  offset : Nat
  index : Int
  sectionIndex : SectionIndex
deriving DecidableEq, Repr

-- The three lists that extract_relocations builds, and the next index of the
-- lookup table.
structure Extracted where
  locals : List LocalRelocation
  externals : List NamedRelocation
  exporteds : List NamedRelocation
  index : Int

def Extracted.empty : Extracted := ⟨[], [], [], 0⟩

def hasRelocation (relocations : List NamedRelocation) (name : Name) : Prop :=
  ∃ relocation ∈ relocations, relocation.name = name

instance (relocations : List NamedRelocation) (name : Name) :
    Decidable (hasRelocation relocations name) :=
  inferInstanceAs (Decidable (∃ relocation ∈ relocations, _ = _))

def getIndexOfRelocation (relocations : List NamedRelocation) (name : Name) : Int :=
  match relocations.find? fun relocation => relocation.name = name with
  | some relocation => relocation.index
  | none => -1

-- A global offset table relocation, by the localization of its symbol.
def extractGot (extracted : Extracted) (relocation : Relocation) : Localization → Extracted
  | .external =>
      if hasRelocation extracted.externals relocation.symbolName then
        { extracted with
          externals := extracted.externals ++ [⟨relocation.symbolName, relocation.offset,
            getIndexOfRelocation extracted.externals relocation.symbolName⟩] }
      else
        { extracted with
          externals := extracted.externals ++
            [⟨relocation.symbolName, relocation.offset, extracted.index⟩]
          index := extracted.index + 1 }
  | .exported =>
      if relocation.symbolName = main then
        -- The index of a repeated main is looked up in the external ones.
        if hasRelocation extracted.exporteds relocation.symbolName then
          { extracted with
            exporteds := extracted.exporteds ++ [⟨relocation.symbolName, relocation.offset,
              getIndexOfRelocation extracted.externals relocation.symbolName⟩] }
        else
          { extracted with
            exporteds := extracted.exporteds ++
              [⟨relocation.symbolName, relocation.offset, extracted.index⟩]
            index := extracted.index + 1 }
      else extracted
  | .internal =>
      { extracted with
        locals := extracted.locals ++ [⟨relocation.symbolValue, relocation.offset, extracted.index,
          relocation.sectionIndex⟩]
        index := extracted.index + 1 }

def extractRelocation (processed : List Symbol) (extracted : Extracted) (relocation : Relocation) :
    Except GenerateError Extracted :=
  match relocation.infoType with
  | .gotBrel =>
      match findProcessed processed relocation.symbolName with
      | some symbol => .ok (extractGot extracted relocation (localization symbol))
      | none => .error .keyError
  | .other => .error .unknownRelocation
  | .thmCall | .abs32 | .thmJump24 | .thmJump11 => .ok extracted

def extractRelocations (processed : List Symbol) (relocations : List Relocation) :
    Except GenerateError Extracted :=
  relocations.foldlM (extractRelocation processed) Extracted.empty

structure DataRelocation where
  symbolValue : Nat
  offset : Int
deriving DecidableEq, Repr

-- A pointer in the data; int() rounds towards zero.
def extractDataRelocation (symbols : Dict Name Symbol) (codeLength : Nat) (lotOffset : Int)
    (relocation : Relocation) : Option DataRelocation :=
  if relocation.infoType = .abs32 then
    match symbols.get? relocation.symbolName with
    | some symbol =>
        if symbol.type = .object ∨ symbol.type = .func then
          some ⟨relocation.symbolValue,
            ((relocation.offset : Int) - codeLength).tdiv 4 + lotOffset⟩
        else none
    | none => none
  else none

-- extract_data_relocations raises for the same types as extract_relocations,
-- which comes before it.
def extractDataRelocations (symbols : Dict Name Symbol) (codeLength : Nat) (lotOffset : Int)
    (relocations : List Relocation) : List DataRelocation :=
  relocations.filterMap (extractDataRelocation symbols codeLength lotOffset)

-- unpack_from and pack_into on one word of the code
def patchWord (code : List UInt8) (offset : Nat) (value : Int) : Except GenerateError (List UInt8) :=
  if offset + 4 ≤ code.length ∧ 0 ≤ value ∧ value < 256 ^ 4 then
    .ok (code.take offset ++ Memory.encode 4 value.toNat ++ code.drop (offset + 4))
  else
    .error .structError

-- The offsets that are patched, in order, each with its index.
def patches (extracted : Extracted) : List (Nat × Int) :=
  extracted.locals.map (fun relocation => (relocation.offset, relocation.index)) ++
    extracted.externals.map (fun relocation => (relocation.offset, relocation.index)) ++
      extracted.exporteds.map (fun relocation => (relocation.offset, relocation.index))

def patchOffsets (code : List UInt8) (extracted : Extracted) : Except GenerateError (List UInt8) :=
  (patches extracted).foldlM (fun code patch => patchWord code patch.1 (patch.2 * 4)) code

-- The first relocation of each name
def unique (relocations : List NamedRelocation) : List NamedRelocation :=
  relocations.foldl (fun processed relocation =>
    if hasRelocation processed relocation.name then processed else processed ++ [relocation]) []

-- A symbol of the image; its size is always 12.
structure ImageSymbol where
  name : Name
  section_ : Nat
  value : Nat
deriving DecidableEq, Repr

def sizeofImageSymbol : Nat := 4 + 2 + 2 + 4

def sizeofImageRelocation : Nat := 8

-- The indices of the three sections that a module is made of.
structure SectionIndices where
  code : Nat
  data : Nat
  bss : Nat

def imageSection (indices : SectionIndices) (sectionIndex : SectionIndex) : Nat :=
  if sectionIndex = .at indices.code then 0
  else if sectionIndex = .at indices.data ∨ sectionIndex = .at indices.bss then 1
  else 2

def symbolsOf (indices : SectionIndices) (processed : List Symbol) (wanted : Localization) :
    List ImageSymbol :=
  (processed.filter fun symbol => localization symbol = wanted).map fun symbol =>
    ⟨symbol.name, imageSection indices symbol.sectionIndex, symbol.value⟩

-- The bytes of external_symbols up to the symbol with a name.
def symbolOffset (externals : List ImageSymbol) (name : Name) : Nat :=
  sizeofImageSymbol * (externals.takeWhile fun symbol => symbol.name ≠ name).length

def externalEntries (totalRelocations exportedSize : Nat) (externals : List ImageSymbol)
    (relocations : List NamedRelocation) : List (Int × Int) :=
  relocations.zipIdx.map fun (relocation, position) =>
    (relocation.index, ((totalRelocations : Int) - position) * sizeofImageRelocation + exportedSize +
      symbolOffset externals relocation.name)

-- (lot_index << 1) | section, and the value in that section
def localEntry (indices : SectionIndices) (codeLength : Nat) (relocation : LocalRelocation) :
    Except GenerateError (Int × Int) :=
  if relocation.sectionIndex = .at indices.code then
    .ok (2 * relocation.index, relocation.symbolValue)
  else if relocation.sectionIndex = .at indices.data ∨ relocation.sectionIndex = .at indices.bss then
    .ok (2 * relocation.index + 1, (relocation.symbolValue : Int) - codeLength)
  else .error .unsupportedSection

def dataEntry (relocation : DataRelocation) : Int × Int := (relocation.offset, relocation.symbolValue)

def packEntries (entries : List (Int × Int)) : Except GenerateError (List UInt8) :=
  pack (entries.flatMap fun entry => [(4, entry.1), (4, entry.2)])

def findSymbolCode (api : Name → Option Nat) (name : Name) : Except GenerateError Nat :=
  match api name with
  | some code => .ok code
  | none => .error (.missingSymbolCode name)

def packSymbol (codeLength : Nat) (symbol : ImageSymbol) (code : Nat) :
    Except GenerateError (List UInt8) :=
  let value : Int := if symbol.section_ = 1 then (symbol.value : Int) - codeLength else symbol.value
  pack [(2, sizeofImageSymbol), (2, symbol.section_), (4, value), (4, code)]

def packExportedSymbol (api : Name → Option Nat) (codeLength : Nat) (symbol : ImageSymbol) :
    Except GenerateError (List UInt8) := do
  let code ← findSymbolCode api (if symbol.name = main then main else "undefined".toList)
  packSymbol codeLength symbol code

def packExternalSymbol (api : Name → Option Nat) (codeLength : Nat) (symbol : ImageSymbol) :
    Except GenerateError (List UInt8) := do
  let code ← findSymbolCode api symbol.name
  packSymbol codeLength symbol code

def packSymbols (api : Name → Option Nat) (codeLength : Nat) (exporteds externals : List ImageSymbol) :
    Except GenerateError (List UInt8) := do
  let exported ← exporteds.mapM (packExportedSymbol api codeLength)
  let external ← externals.mapM (packExternalSymbol api codeLength)
  return exported.flatten ++ external.flatten

def padding (length : Nat) : List UInt8 :=
  if length % 16 ≠ 0 then List.replicate (16 - length % 16) 0 else []

-- The bytes "MSDL"
def cookie : List UInt8 := [0x4d, 0x53, 0x44, 0x4c]

-- The three sections that a module is made of
structure ModuleSections where
  indices : SectionIndices
  code : Section
  data : Section
  bss : Section

def moduleSections (elf : ElfFile) : Except GenerateError ModuleSections := do
  let (codeIndex, code) ← processSection elf ".text".toList 0
  let (dataIndex, data) ← processSection elf ".data".toList (code.address + code.size)
  let (bssIndex, bss) ← processSection elf ".bss".toList (data.address + data.size)
  return ⟨⟨codeIndex, dataIndex, bssIndex⟩, code, data, bss⟩

-- The part of generate_module from the relocations on.
def generateImage (api : Name → Option Nat) (sections : ModuleSections) (symbols : Dict Name Symbol)
    (relocations : List Relocation) : Except GenerateError (List UInt8) := do
  let code := sections.code.data
  let processed := processedSymbols symbols
  let extracted ← extractRelocations processed relocations
  let sizes ← pack [(4, code.length), (4, sections.data.size), (4, sections.bss.size)]
  let externalSymbols := symbolsOf sections.indices processed .external
  let exportedSymbols := symbolsOf sections.indices processed .exported
  let dataRelocations := extractDataRelocations symbols code.length extracted.index relocations
  let patched ← patchOffsets code extracted
  let externals := unique extracted.externals
  let exporteds := unique extracted.exporteds
  let total := dataRelocations.length + extracted.locals.length + externals.length + exporteds.length
  let counts ← pack [(2, externals.length), (2, extracted.locals.length), (2, dataRelocations.length),
    (2, externalSymbols.length)]
  let externalTable ← packEntries (externalEntries total
    (sizeofImageSymbol * exportedSymbols.length) externalSymbols externals)
  let localEntries ← extracted.locals.mapM (localEntry sections.indices code.length)
  let localTable ← packEntries localEntries
  let dataTable ← packEntries (dataRelocations.map dataEntry)
  let symbolTable ← packSymbols api code.length exportedSymbols externalSymbols
  let tables := cookie ++ sizes ++ counts ++ externalTable ++ localTable ++ dataTable ++ symbolTable
  return tables ++ padding tables.length ++ patched ++ sections.data.data

def generateModule (objcopy : ElfFile → Name → ElfFile) (api : Name → Option Nat) (elf : ElfFile) :
    Except GenerateError (List UInt8) := do
  let sections ← moduleSections elf
  let elf := changeVisibilityOfWrappedSymbols objcopy elf
  let relocations ← getRelocations elf
  generateImage api sections (getSymbols elf) relocations

end Msos.Scripts
