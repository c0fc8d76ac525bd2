import Msos.DynamicLinker.Loading
import Msos.DynamicLinker.Theorems
import Msos.ModuleFile

namespace Msos.Load

open Msos.Library Msos.Library.Memory
open DynamicLinker ModuleHeader

variable {load : Load} {file : ModuleFile}

section Blocks

theorem wrap_add_of_lt {address offset : Nat} (h : address + wrap offset < 2 ^ 32) :
    wrap (address + offset) = address + wrap offset := by
  rw [wrap, ← Nat.add_mod_mod]
  exact Nat.mod_eq_of_lt h

theorem Valid.below {bytes : List UInt8} (h : load.Valid bytes) :
    load.header + bytes.length < 2 ^ 32 := h.inSpace _ List.mem_cons_self

theorem Valid.data_lt {bytes : List UInt8} (h : load.Valid bytes) : load.allocations.data +
    (dataSize load.memory load.header + bssSize load.memory load.header) < 2 ^ 32 := by
  refine h.inSpace (load.allocations.data, _) (List.mem_cons_of_mem _ (List.mem_append_right _ ?_))
  exact List.mem_cons_self

theorem Valid.file_data {bytes : List UInt8} (h : load.Valid bytes) :
    Apart (load.header, bytes.length) (load.allocations.data,
      dataSize load.memory load.header + bssSize load.memory load.header) := by
  refine (List.pairwise_cons.mp h.apart).1 _ (List.mem_append_right _ ?_)
  exact List.mem_cons_self

theorem Valid.allocated_ne {bytes : List UInt8} (h : load.Valid bytes) :
    ¬(copiesText load.mode ∧ load.allocations.text = 0) ∧ load.allocations.data ≠ 0 ∧
      load.allocations.lot ≠ 0 := by
  refine ⟨?_, ?_, ?_⟩
  · rintro ⟨hc, htext⟩
    refine h.succeeds (load.allocations.text, codeSize load.memory load.header) ?_ htext
    rw [allocated, if_pos hc]
    exact List.mem_cons_self
  · exact h.succeeds (load.allocations.data, _) (List.mem_append_right _ List.mem_cons_self)
  · exact h.succeeds (load.allocations.lot, _)
      (List.mem_append_right _ (List.mem_cons_of_mem _ List.mem_cons_self))

variable {bytes : List UInt8} (h : load.Valid bytes) (hc : copiesText load.mode)
include h hc

theorem Valid.file_text : Apart (load.header, bytes.length)
    (load.allocations.text, codeSize load.memory load.header) := by
  refine (List.pairwise_cons.mp h.apart).1 _ ?_
  rw [allocated, if_pos hc]
  exact List.mem_cons_self

theorem Valid.text_data : Apart (load.allocations.text, codeSize load.memory load.header)
    (load.allocations.data, dataSize load.memory load.header + bssSize load.memory load.header) := by
  have hpairs := (List.pairwise_cons.mp h.apart).2
  rw [allocated, if_pos hc, List.singleton_append] at hpairs
  exact (List.pairwise_cons.mp hpairs).1 _ List.mem_cons_self

end Blocks

section Placing

variable (h : load.Valid file.bytes)
include h

theorem Valid.withText_holds : Holds load.withText load.header file.bytes :=
  h.holds.of_agree (agree_withText h.file_text)

theorem Valid.placed_eq : load.placed = (load.withText.store load.allocations.data
      (load.withText.bytes (dataAddress load.memory load.header) file.dataSize)).store
        (load.allocations.data + file.dataSize) (List.replicate file.bssSize 0) := by
  have hlt := h.data_lt
  have hapart := h.file_data
  rw [ModuleFile.dataSize_of_holds h.holds, ModuleFile.bssSize_of_holds h.holds] at hlt hapart
  exact placed_eq_of_holds h.withText_holds hlt hapart

theorem Valid.placed_outside {address : Nat} (ha : address < load.allocations.data ∨
      load.allocations.data + (file.dataSize + file.bssSize) ≤ address) :
    load.placed address = load.withText address := by
  rw [h.placed_eq]
  rcases ha with ha | ha
  · rw [store_of_lt _ _ (by omega), store_of_lt _ _ ha]
  · rw [store_of_le _ (by rw [List.length_replicate]; omega),
      store_of_le _ (by rw [length_bytes]; omega)]

-- The bytes of the text are the ones of the file at the place where the loader
-- looks for the code.
theorem Valid.placed_text {i : Nat} (hi : i < file.codeSize) {byte : UInt8}
    (hb : file.bytes[wrap (file.codeOffset (load.header % 16)) + i]? = some byte) :
    load.placed (load.text + i) = byte := by
  obtain ⟨hlt, rfl⟩ := List.getElem?_eq_some_iff.mp hb
  have hbelow := h.below
  have hcode : codeAddress load.memory load.header =
      load.header + wrap (file.codeOffset (load.header % 16)) := by
    rw [ModuleFile.codeAddress_of_holds h.holds]
    exact wrap_add_of_lt (by omega)
  have hbyte : load.memory (codeAddress load.memory load.header + i) =
      file.bytes[wrap (file.codeOffset (load.header % 16)) + i] := by
    rw [hcode, Nat.add_assoc, h.holds.getElem hlt]
  by_cases hc : copiesText load.mode
  · have hapart := h.text_data hc
    rw [ModuleFile.codeSize_of_holds h.holds, ModuleFile.dataSize_of_holds h.holds,
      ModuleFile.bssSize_of_holds h.holds] at hapart
    simp only [Apart] at hapart
    have hcopied : i < (load.memory.bytes (codeAddress load.memory load.header)
        (codeSize load.memory load.header)).length := by
      rwa [length_bytes, ModuleFile.codeSize_of_holds h.holds]
    rw [text_of_copies hc, h.placed_outside (by omega), withText_copied hc, store_at _ hcopied,
      getElem_bytes, hbyte]
  · have hapart := h.file_data
    rw [ModuleFile.dataSize_of_holds h.holds, ModuleFile.bssSize_of_holds h.holds] at hapart
    simp only [Apart] at hapart
    have htext : load.text = codeAddress load.memory load.header := by
      rw [text, placeText, if_neg hc]
    rw [htext, h.placed_outside (by omega), withText_in_place hc, hbyte]

theorem Valid.placed_data {i : Nat} (hi : i < file.dataSize) {byte : UInt8}
    (hb : file.bytes[wrap (file.dataOffset (load.header % 16)) + i]? = some byte) :
    load.placed (load.allocations.data + i) = byte := by
  obtain ⟨hlt, rfl⟩ := List.getElem?_eq_some_iff.mp hb
  have hbelow := h.below
  have haddress : dataAddress load.memory load.header =
      load.header + wrap (file.dataOffset (load.header % 16)) := by
    rw [ModuleFile.dataAddress_of_holds h.holds]
    exact wrap_add_of_lt (by omega)
  have hcopied : i < (load.withText.bytes (dataAddress load.memory load.header)
      file.dataSize).length := by rwa [length_bytes]
  rw [h.placed_eq, store_of_lt _ _ (by omega), store_at _ hcopied, getElem_bytes, haddress,
    Nat.add_assoc, h.withText_holds.getElem hlt]

theorem Valid.placed_bss {i : Nat} (hi : i < file.bssSize) :
    load.placed (load.allocations.data + file.dataSize + i) = 0 := by
  have hlength : i < (List.replicate file.bssSize (0 : UInt8)).length := by
    rwa [List.length_replicate]
  rw [h.placed_eq, store_at _ hlength, List.getElem_replicate]

-- The record that load_module makes has the text and the data of the load,
-- also when an external symbol is missing.
theorem Valid.modules_outcome (linker : DynamicLinker) : ∃ start,
    (load.outcome linker).linker.modules =
      linker.modules.emplaceBack (load.record start) load.allocations.modules := by
  obtain ⟨hfail, hdata, hlot⟩ := h.allocated_ne
  have htext : (placeText load.memory load.header load.mode load.allocations).1 = load.text := rfl
  rw [outcome, modules_loadModule (ModuleFile.cookie_of_holds h.holds)]
  simp only [fillModule, hfail, hdata, hlot, ite_false, htext]
  split <;> exact ⟨_, rfl⟩

end Placing

section Positions

variable (load)

-- The offsets in the image at which a load takes the text and the data
def textOffset : Nat := wrap (codeAddress load.memory load.header + (2 ^ 32 - load.header))

def dataOffset : Nat := wrap (dataAddress load.memory load.header + (2 ^ 32 - load.header))

-- Two loads of one file take its text and its data from the same places, so
-- that what they copy is the same as far as the file goes.
structure PositionIndependent (first second : Load) (bytes : List UInt8) : Prop where
  text : first.textOffset = second.textOffset
  data : first.dataOffset = second.dataOffset
  copiedText : ∀ i < codeSize first.memory first.header, first.textOffset + i < bytes.length →
    first.placed (first.text + i) = second.placed (second.text + i)
  copiedData : ∀ i < dataSize first.memory first.header, first.dataOffset + i < bytes.length →
    first.placed (first.allocations.data + i) = second.placed (second.allocations.data + i)

variable {load}

theorem Valid.textOffset_eq (h : load.Valid file.bytes) :
    load.textOffset = wrap (file.codeOffset (load.header % 16)) := by
  have hbelow := h.below
  rw [textOffset, ModuleFile.codeAddress_of_holds h.holds]
  simp only [wrap]
  omega

theorem Valid.dataOffset_eq (h : load.Valid file.bytes) :
    load.dataOffset = wrap (file.dataOffset (load.header % 16)) := by
  have hbelow := h.below
  rw [dataOffset, ModuleFile.dataAddress_of_holds h.holds]
  simp only [wrap]
  omega

variable {first second : Load} (hf : first.Valid file.bytes) (hs : second.Valid file.bytes)
include hf hs

theorem Valid.positionIndependent (h : first.header % 16 = second.header % 16) :
    PositionIndependent first second file.bytes := by
  refine ⟨?_, ?_, ?_, ?_⟩
  · rw [hf.textOffset_eq, hs.textOffset_eq, h]
  · rw [hf.dataOffset_eq, hs.dataOffset_eq, h]
  · intro i hi hin
    rw [ModuleFile.codeSize_of_holds hf.holds] at hi
    rw [hf.textOffset_eq] at hin
    obtain ⟨byte, hbyte⟩ : ∃ byte, file.bytes[wrap (file.codeOffset (first.header % 16)) + i]? =
      some byte := ⟨_, List.getElem?_eq_getElem hin⟩
    have hother := hbyte
    rw [h] at hother
    rw [hf.placed_text hi hbyte, hs.placed_text hi hother]
  · intro i hi hin
    rw [ModuleFile.dataSize_of_holds hf.holds] at hi
    rw [hf.dataOffset_eq] at hin
    obtain ⟨byte, hbyte⟩ : ∃ byte, file.bytes[wrap (file.dataOffset (first.header % 16)) + i]? =
      some byte := ⟨_, List.getElem?_eq_getElem hin⟩
    have hother := hbyte
    rw [h] at hother
    rw [hf.placed_data hi hbyte, hs.placed_data hi hother]

-- Only the residue of the address matters, and it always does.
theorem positionIndependent_iff :
    PositionIndependent first second file.bytes ↔ first.header % 16 = second.header % 16 := by
  refine ⟨fun h => ?_, hf.positionIndependent hs⟩
  have htext := h.text
  rw [hf.textOffset_eq, hs.textOffset_eq] at htext
  exact (file.wrap_codeOffset_inj (Nat.mod_lt _ (by decide)) (Nat.mod_lt _ (by decide))).mp htext

end Positions

section Return

-- A module of two instructions, with main as its only symbol
def returnFile : ModuleFile where
  bytes := expectedCookie ++ encode 4 4 ++ encode 4 0 ++ encode 4 0 ++ encode 2 0 ++ encode 2 0 ++
    encode 2 0 ++ encode 2 0 ++ (encode 2 12 ++ encode 2 0 ++ encode 4 0 ++ encode 4 1) ++
      List.replicate 12 0 ++ [0x00, 0x20, 0x70, 0x47]
  whole := by decide
  cookie_eq := by decide

def loadReturn (address : Nat) : Load where
  memory := Memory.store (fun _ => 0) address returnFile.bytes
  header := address
  mode := loadingModeCopyText
  entries := []
  allocations := ⟨0x20004000, 0x20004100, 0x20004200, 0x20004300⟩

theorem positionIndependent_iff_return :
    PositionIndependent (loadReturn 0x08010000) (loadReturn 0x2000100c) returnFile.bytes ↔
      (loadReturn 0x08010000).header % 16 = (loadReturn 0x2000100c).header % 16 :=
  positionIndependent_iff (by decide +kernel) (by decide +kernel)

-- In flash the code is found; in a block of the heap, four bytes behind an
-- aligned address, the padding in front of it is taken for the code.
theorem return_moved :
    (loadReturn 0x08010000).header % 4 = 0 ∧ (loadReturn 0x2000100c).header % 4 = 0 ∧
      (loadReturn 0x08010000).Valid returnFile.bytes ∧
      (loadReturn 0x2000100c).Valid returnFile.bytes ∧
      ¬PositionIndependent (loadReturn 0x08010000) (loadReturn 0x2000100c) returnFile.bytes := by
  refine ⟨rfl, rfl, by decide +kernel, by decide +kernel, fun h => ?_⟩
  have htext := h.text
  revert htext
  decide +kernel

end Return

end Msos.Load
