import Msos.Library.Dict

namespace Msos.Scripts

open Msos.Library

abbrev Name := List Char

inductive SymbolType
  | noType
  | object
  | func
  | section_
  | file
  | other
deriving DecidableEq, Repr

inductive Binding
  | local_
  | global_
  | weak
  | other
deriving DecidableEq, Repr

inductive Visibility
  | default_
  | hidden
  | other
deriving DecidableEq, Repr

-- st_shndx: the reserved indices come out of the parser as strings.
inductive SectionIndex
  | undef
  | abs
  | common
  | at (index : Nat)
deriving DecidableEq, Repr

structure Symbol where
  name : Name
  type : SymbolType
  binding : Binding
  visibility : Visibility
  value : Nat
  sectionIndex : SectionIndex
deriving DecidableEq, Repr

structure Section where
  name : Name
  address : Nat
  data : List UInt8
deriving DecidableEq, Repr

def Section.size (section_ : Section) : Nat := section_.data.length

inductive RelocationType
  | thmCall
  | gotBrel
  | abs32
  | thmJump24
  | thmJump11
  | other
deriving DecidableEq, Repr

-- An entry of a relocation section; `symbol` indexes the symbol table.
structure RelocationEntry where
  offset : Nat
  type : RelocationType
  symbol : Nat
deriving DecidableEq, Repr

structure ElfFile where
  sections : List Section
  symbols : List Symbol
  relocations : List RelocationEntry
deriving DecidableEq, Repr

inductive GenerateError
  | missingSection (name : Name)
  | misplacedSection (name : Name)
  | keyError
  | unknownRelocation
  | unsupportedSection
  | missingSymbolCode (name : Name)
  | structError
deriving DecidableEq, Repr

-- What get_relocations returns for an entry.
structure Relocation where
  offset : Nat
  infoType : RelocationType
  symbolName : Name
  symbolValue : Nat
  sectionIndex : SectionIndex
deriving DecidableEq, Repr

namespace ElfParser

def getSymbols (elf : ElfFile) : Dict Name Symbol :=
  Dict.ofList (elf.symbols.map fun symbol => (symbol.name, symbol))

def getSections (elf : ElfFile) : Dict Name (Nat × Section) :=
  Dict.ofList (elf.sections.zipIdx.map fun (section_, i) => (section_.name, (i, section_)))

-- The name of a symbol in a relocation: one without a name gets the name of
-- its section.
def symbolName (elf : ElfFile) (symbol : Symbol) : Except GenerateError Name :=
  if symbol.name ≠ [] then .ok symbol.name
  else
    match symbol.sectionIndex with
    | .at index =>
        match elf.sections[index]? with
        | some section_ => .ok section_.name
        | none => .error .keyError
    | _ => .error .keyError

def getRelocation (elf : ElfFile) (entry : RelocationEntry) : Except GenerateError Relocation :=
  match elf.symbols[entry.symbol]? with
  | none => .error .keyError
  | some symbol => (symbolName elf symbol).map fun name =>
      ⟨entry.offset, entry.type, name, symbol.value, symbol.sectionIndex⟩

-- Entries without a symbol are skipped.
def getRelocations (elf : ElfFile) : Except GenerateError (List Relocation) :=
  (elf.relocations.filter fun entry => entry.symbol ≠ 0).mapM (getRelocation elf)

end ElfParser

end Msos.Scripts
