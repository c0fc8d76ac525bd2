import Msos.DynamicLinker
import Msos.Library.Block

namespace Msos

open Msos.Library Msos.Library.Memory

structure ModuleSymbol where
  section_ : Nat
  value : Nat
  code : Nat
deriving DecidableEq, Repr

-- A module file by its contents: what the generator writes and the loader
-- reads, apart from the order of the bytes. An external relocation names its
-- symbol by position; the others are pairs of the two words of an entry. The
-- header counts the external symbols only.
structure Image where
  code : List UInt8
  data : List UInt8
  bssSize : Nat
  externals : List (Nat × Nat)
  locals : List (Nat × Nat)
  pointers : List (Nat × Nat)
  symbols : List ModuleSymbol
  externalSymbols : Nat
deriving DecidableEq, Repr

namespace Image

def word (entry : Nat × Nat) : List UInt8 := encode 4 entry.1 ++ encode 4 entry.2

def symbolRecord (symbol : ModuleSymbol) : List UInt8 :=
  encode 2 12 ++ encode 2 symbol.section_ ++ encode 4 symbol.value ++ encode 4 symbol.code

section Bytes

variable (image : Image)

def numberOfRelocations : Nat :=
  image.externals.length + image.locals.length + image.pointers.length

def header : List UInt8 :=
  DynamicLinker.expectedCookie ++ encode 4 image.code.length ++ encode 4 image.data.length ++
    encode 4 image.bssSize ++ encode 2 image.externals.length ++ encode 2 image.locals.length ++
      encode 2 image.pointers.length ++ encode 2 image.externalSymbols

-- The offset from the external relocation at a position to its symbol.
def externalEntries : List (Nat × Nat) :=
  image.externals.zipIdx.map fun (external, position) =>
    (external.1, (image.numberOfRelocations - position) * sizeofRelocation +
      sizeofSymbol * external.2)

def entries : List (Nat × Nat) := image.externalEntries ++ image.locals ++ image.pointers

def tables : List UInt8 :=
  image.header ++ (image.entries.flatMap word ++ image.symbols.flatMap symbolRecord)

def padding (length : Nat) : List UInt8 :=
  if length % 16 ≠ 0 then List.replicate (16 - length % 16) 0 else []

-- The offset of the next section
def aligned (length : Nat) : Nat := length + (padding length).length

def codeOffset : Nat := aligned image.tables.length

def bytes : List UInt8 :=
  image.tables ++ (padding image.tables.length ++ (image.code ++ image.data))

-- Where the loader looks for the code of a file at an address with a residue:
-- it aligns the address, and counts one exported symbol.
def loadedOffset (residue : Nat) : Nat :=
  aligned (residue + (sizeofModuleHeader + sizeofRelocation * image.numberOfRelocations +
    sizeofSymbol * (image.externalSymbols + ModuleHeader.numberOfExportedSymbols))) - residue

-- The byte of the file that the loader takes for one of the data
def loadedByte (residue i : Nat) : Option UInt8 :=
  image.bytes[image.loadedOffset residue + image.code.length + i]?

end Bytes

-- Every number fits into its field.
structure Fits (image : Image) : Prop where
  code : image.code.length < 2 ^ 32
  data : image.data.length < 2 ^ 32
  bss : image.bssSize < 2 ^ 32
  externals : image.externals.length < 2 ^ 16
  locals : image.locals.length < 2 ^ 16
  pointers : image.pointers.length < 2 ^ 16
  symbols : image.externalSymbols < 2 ^ 16
  symbols_le : image.externalSymbols ≤ image.symbols.length
  external : ∀ entry ∈ image.externals, entry.2 < image.symbols.length
  entry : ∀ entry ∈ image.entries, entry.1 < 2 ^ 32 ∧ entry.2 < 2 ^ 32
  symbol : ∀ symbol ∈ image.symbols,
    symbol.section_ < 2 ^ 16 ∧ symbol.value < 2 ^ 32 ∧ symbol.code < 2 ^ 32

section Lengths

variable (image : Image)

theorem length_word (entry : Nat × Nat) : (word entry).length = sizeofRelocation := by
  simp [word, sizeofRelocation]

theorem length_symbolRecord (symbol : ModuleSymbol) :
    (symbolRecord symbol).length = sizeofSymbol := by
  simp [symbolRecord, sizeofSymbol]

theorem length_header : image.header.length = sizeofModuleHeader := by
  simp [header, DynamicLinker.expectedCookie, sizeofModuleHeader]

theorem length_externalEntries : image.externalEntries.length = image.externals.length := by
  simp [externalEntries]

theorem length_entries : image.entries.length = image.numberOfRelocations := by
  simp only [entries, numberOfRelocations, List.length_append, length_externalEntries]

theorem length_tables : image.tables.length = sizeofModuleHeader +
    sizeofRelocation * image.numberOfRelocations + sizeofSymbol * image.symbols.length := by
  rw [tables, List.length_append, List.length_append, length_header,
    length_flatMap_record length_word, length_flatMap_record length_symbolRecord, length_entries]
  omega

theorem aligned_eq (length : Nat) : aligned length =
    length + if length % 16 ≠ 0 then 16 - length % 16 else 0 := by
  unfold aligned padding
  split
  · rw [List.length_replicate]
  · rfl

theorem length_bytes : image.bytes.length =
    image.codeOffset + image.code.length + image.data.length := by
  simp only [bytes, codeOffset, aligned, List.length_append]
  omega

-- At an aligned address and with one exported symbol that is the right place.
theorem loadedOffset_eq (h : image.symbols.length = image.externalSymbols + 1) :
    image.loadedOffset 0 = image.codeOffset := by
  rw [loadedOffset, Nat.zero_add, codeOffset, length_tables, h]
  rfl

theorem loadedByte_eq (h : image.symbols.length = image.externalSymbols + 1) (i : Nat) :
    image.loadedByte 0 i = image.data[i]? := by
  have hoffset : image.loadedOffset 0 + image.code.length + i = image.tables.length +
      ((padding image.tables.length).length + (image.code.length + i)) := by
    rw [image.loadedOffset_eq h, codeOffset, aligned]
    omega
  rw [loadedByte, hoffset, bytes, List.getElem?_append_right (by omega), Nat.add_sub_cancel_left,
    List.getElem?_append_right (by omega), Nat.add_sub_cancel_left,
    List.getElem?_append_right (by omega), Nat.add_sub_cancel_left]

theorem loadedOffset_le (h : image.externalSymbols ≤ image.symbols.length) (residue : Nat) :
    image.loadedOffset residue ≤ image.codeOffset + 32 := by
  have htables := length_tables image
  simp only [loadedOffset, codeOffset, aligned_eq, sizeofSymbol,
    ModuleHeader.numberOfExportedSymbols] at htables ⊢
  split <;> split <;> omega

end Lengths

end Image

end Msos
