import Mathlib.Data.List.Basic
import Mathlib.Tactic.Ring

namespace Msos.Library

-- Byte-addressed memory, with little-endian words in it.
abbrev Memory := Nat → UInt8

namespace Memory

def encode : Nat → Nat → List UInt8
  | 0, _ => []
  | width + 1, value => UInt8.ofNat value :: encode width (value / 256)

def decode : List UInt8 → Nat
  | [] => 0
  | byte :: rest => byte.toNat + 256 * decode rest

def bytes (memory : Memory) (address count : Nat) : List UInt8 :=
  (List.range count).map fun i => memory (address + i)

def store (memory : Memory) (address : Nat) (contents : List UInt8) : Memory := fun other =>
  if address ≤ other then contents.getD (other - address) (memory other) else memory other

def readHalf (memory : Memory) (address : Nat) : Nat := decode (memory.bytes address 2)

def readWord (memory : Memory) (address : Nat) : Nat := decode (memory.bytes address 4)

def writeWord (memory : Memory) (address value : Nat) : Memory :=
  memory.store address (encode 4 value)

def copy (memory : Memory) (destination source count : Nat) : Memory :=
  memory.store destination (memory.bytes source count)

def fill (memory : Memory) (address count : Nat) (byte : UInt8) : Memory :=
  memory.store address (List.replicate count byte)

abbrev Word := BitVec 32

def loadWords (memory : Memory) : Nat → Nat → List Word
  | _, 0 => []
  | address, count + 1 =>
      BitVec.ofNat 32 (memory.readWord address) :: loadWords memory (address + 4) count

def storeWords (memory : Memory) : Nat → List Word → Memory
  | _, [] => memory
  | address, word :: rest => (storeWords memory (address + 4) rest).writeWord address word.toNat

section Words

@[simp] theorem length_encode (width value : Nat) : (encode width value).length = width := by
  induction width generalizing value with
  | zero => rfl
  | succ width ih => simp [encode, ih]

theorem decode_encode (width value : Nat) : decode (encode width value) = value % 256 ^ width := by
  induction width generalizing value with
  | zero => simp [encode, decode, Nat.mod_one]
  | succ width ih =>
      rw [encode, decode, ih, pow_succ', Nat.mod_mul, UInt8.toNat_ofNat']

end Words

section Accesses

variable (memory : Memory)

@[simp] theorem length_bytes (address count : Nat) : (memory.bytes address count).length = count := by
  simp [bytes]

theorem getElem_bytes {address count i : Nat} (hi : i < (memory.bytes address count).length) :
    (memory.bytes address count)[i] = memory (address + i) := by
  simp [bytes]

theorem bytes_add (address first second : Nat) :
    memory.bytes address (first + second) =
      memory.bytes address first ++ memory.bytes (address + first) second := by
  simp [bytes, List.range_add, Function.comp_def, Nat.add_assoc]

theorem bytes_congr {other : Memory} {address count : Nat}
    (h : ∀ i < count, memory (address + i) = other (address + i)) :
    memory.bytes address count = other.bytes address count := by
  apply List.map_congr_left
  intro i hi
  exact h i (List.mem_range.mp hi)

-- What lies in memory as one block lies there piece by piece.
theorem bytes_eq_append {address : Nat} {first second : List UInt8} :
    memory.bytes address (first ++ second).length = first ++ second ↔
      memory.bytes address first.length = first ∧
        memory.bytes (address + first.length) second.length = second := by
  rw [List.length_append, bytes_add]
  constructor
  · intro h
    exact List.append_inj h (length_bytes ..)
  · intro ⟨hf, hs⟩
    rw [hf, hs]

theorem store_of_lt {address other : Nat} (contents : List UInt8) (h : other < address) :
    memory.store address contents other = memory other := by
  simp [store, Nat.not_le.mpr h]

theorem store_of_le {address other : Nat} {contents : List UInt8}
    (h : address + contents.length ≤ other) : memory.store address contents other = memory other := by
  have hge : contents.length ≤ other - address := by omega
  simp [store, List.getElem?_eq_none hge]

theorem store_at {address i : Nat} {contents : List UInt8} (hi : i < contents.length) :
    memory.store address contents (address + i) = contents[i] := by
  simp [store, hi]

theorem bytes_store_self (address : Nat) (contents : List UInt8) :
    (memory.store address contents).bytes address contents.length = contents := by
  apply List.ext_getElem
  · rw [length_bytes]
  · intro i hi hc
    rw [getElem_bytes, store_at _ hc]

theorem bytes_store_of_disjoint {address other count : Nat} {contents : List UInt8}
    (h : other + count ≤ address ∨ address + contents.length ≤ other) :
    (memory.store address contents).bytes other count = memory.bytes other count := by
  apply bytes_congr
  intro i hi
  rcases h with h | h
  · exact store_of_lt _ _ (by omega)
  · exact store_of_le _ (by omega)

theorem readWord_writeWord_self (address value : Nat) :
    (memory.writeWord address value).readWord address = value % 2 ^ 32 := by
  have h := memory.bytes_store_self address (encode 4 value)
  rw [length_encode] at h
  rw [readWord, writeWord, h, decode_encode]
  norm_num

theorem readWord_store_of_disjoint {address other : Nat} {contents : List UInt8}
    (h : other + 4 ≤ address ∨ address + contents.length ≤ other) :
    (memory.store address contents).readWord other = memory.readWord other := by
  rw [readWord, bytes_store_of_disjoint _ h, readWord]

theorem readWord_congr {other : Memory} {address : Nat}
    (h : ∀ i < 4, memory (address + i) = other (address + i)) :
    memory.readWord address = other.readWord address := by
  rw [readWord, bytes_congr _ h, readWord]

end Accesses

section Blocks

variable (memory : Memory)

theorem loadWords_congr {other : Memory} {address count : Nat}
    (h : ∀ i < 4 * count, memory (address + i) = other (address + i)) :
    memory.loadWords address count = other.loadWords address count := by
  induction count generalizing address with
  | zero => rfl
  | succ count ih =>
      have hfirst := memory.readWord_congr (fun i hi => h i (by omega))
      have hrest := @ih (address + 4) fun i hi => by
        have := h (4 + i) (by omega)
        rwa [← Nat.add_assoc] at this
      rw [loadWords, loadWords, hfirst, hrest]

theorem loadWords_add (address first second : Nat) :
    memory.loadWords address (first + second) =
      memory.loadWords address first ++ memory.loadWords (address + 4 * first) second := by
  induction first generalizing address with
  | zero => simp [loadWords]
  | succ first ih =>
      have hs : first + 1 + second = (first + second) + 1 := by omega
      have ha : address + 4 + 4 * first = address + 4 * (first + 1) := by omega
      rw [hs, loadWords, ih, loadWords, ha, List.cons_append]

theorem writeWord_outside {address other : Nat} (value : Nat)
    (h : other < address ∨ address + 4 ≤ other) :
    memory.writeWord address value other = memory other := by
  rcases h with h | h
  · exact store_of_lt _ _ h
  · exact store_of_le _ (by rw [length_encode]; exact h)

theorem storeWords_outside {address other : Nat} {words : List Word}
    (h : other < address ∨ address + 4 * words.length ≤ other) :
    memory.storeWords address words other = memory other := by
  induction words generalizing address with
  | nil => rfl
  | cons word rest ih =>
      rw [List.length_cons] at h
      rw [storeWords, writeWord_outside _ _ (by omega), ih (by omega)]

theorem loadWords_storeWords (address : Nat) (words : List Word) :
    (memory.storeWords address words).loadWords address words.length = words := by
  induction words generalizing address with
  | nil => rfl
  | cons word rest ih =>
      have hrest : ((memory.storeWords (address + 4) rest).writeWord address
          word.toNat).loadWords (address + 4) rest.length =
            (memory.storeWords (address + 4) rest).loadWords (address + 4) rest.length := by
        apply loadWords_congr
        intro i _
        exact writeWord_outside _ _ (by omega)
      have hword : BitVec.ofNat 32 (word.toNat % 2 ^ 32) = word := by
        rw [Nat.mod_eq_of_lt word.isLt, BitVec.ofNat_toNat, BitVec.setWidth_eq]
      rw [List.length_cons, storeWords, loadWords, readWord_writeWord_self, hword, hrest, ih]

-- Words that later stores leave alone are read back.
theorem loadWords_eq {other : Memory} {address : Nat} (words : List Word)
    (h : ∀ i < 4 * words.length, other (address + i) = memory.storeWords address words (address + i)) :
    other.loadWords address words.length = words :=
  (loadWords_congr _ h).trans (loadWords_storeWords memory address words)

theorem fill_inside {address other count : Nat} (byte : UInt8) (hl : address ≤ other)
    (hu : other < address + count) : memory.fill address count byte other = byte := by
  obtain ⟨i, rfl⟩ := Nat.exists_eq_add_of_le hl
  rw [fill, store_at _ (by rw [List.length_replicate]; omega), List.getElem_replicate]

theorem fill_outside {address other count : Nat} (byte : UInt8)
    (h : other < address ∨ address + count ≤ other) :
    memory.fill address count byte other = memory other := by
  rcases h with h | h
  · exact store_of_lt _ _ h
  · exact store_of_le _ (by rw [List.length_replicate]; exact h)

theorem readWord_fill_zero {address other count : Nat} (hl : address ≤ other)
    (hu : other + 4 ≤ address + count) : (memory.fill address count 0).readWord other = 0 := by
  have h : (memory.fill address count 0).readWord other = readWord (fun _ => 0) other :=
    readWord_congr _ fun i _ => fill_inside _ _ (by omega) (by omega)
  rw [h]
  rfl

end Blocks

end Memory

end Msos.Library
