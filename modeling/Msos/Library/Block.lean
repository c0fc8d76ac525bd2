import Msos.Library.Memory
import Mathlib.Data.List.Nodup

namespace Msos.Library.Memory

section Holds

variable {memory other : Memory}

-- The bytes lie in memory, from an address on.
def Holds (memory : Memory) (address : Nat) (contents : List UInt8) : Prop :=
  memory.bytes address contents.length = contents

instance (memory : Memory) (address : Nat) (contents : List UInt8) :
    Decidable (Holds memory address contents) := inferInstanceAs (Decidable (_ = _))

def Agree (memory other : Memory) (address size : Nat) : Prop :=
  ∀ i, address ≤ i → i < address + size → other i = memory i

theorem Holds.of_agree {address : Nat} {contents : List UInt8} (h : Holds memory address contents)
    (ha : Agree memory other address contents.length) : Holds other address contents := by
  refine Eq.trans ?_ h
  apply bytes_congr
  intro i hi
  exact ha _ (by omega) (by omega)

theorem Agree.trans {third : Memory} {address size : Nat} (h : Agree memory other address size)
    (h' : Agree other third address size) : Agree memory third address size :=
  fun i hl hu => (h' i hl hu).trans (h i hl hu)

theorem agree_store {address size target : Nat} {contents : List UInt8}
    (h : address + size ≤ target ∨ target + contents.length ≤ address) :
    Agree memory (memory.store target contents) address size := by
  intro i hl hu
  rcases h with h | h
  · exact store_of_lt _ _ (by omega)
  · exact store_of_le _ (by omega)

-- The bytes of a word
theorem byte_of_readWord {address value i : Nat} (h : memory.readWord address = value)
    (hi : i < 4) : (memory (address + i)).toNat = value / 256 ^ i % 256 := by
  have hbytes : ∀ i, (memory (address + i)).toNat < 256 := fun i => UInt8.toNat_lt _
  have h0 := hbytes 0
  have h1 := hbytes 1
  have h2 := hbytes 2
  have h3 := hbytes 3
  simp only [Memory.readWord, bytes, List.range_succ, List.range_zero, List.map_cons, List.map_nil,
    List.nil_append, List.cons_append, decode] at h
  have hcases : i = 0 ∨ i = 1 ∨ i = 2 ∨ i = 3 := by omega
  rcases hcases with rfl | rfl | rfl | rfl <;> omega

theorem Agree.readWord {address size target : Nat} (h : Agree memory other address size)
    (hl : address ≤ target) (hu : target + 4 ≤ address + size) :
    other.readWord target = memory.readWord target :=
  readWord_congr _ fun i hi => h _ (by omega) (by omega)

theorem Agree.readHalf {address size target : Nat} (h : Agree memory other address size)
    (hl : address ≤ target) (hu : target + 2 ≤ address + size) :
    other.readHalf target = memory.readHalf target :=
  congrArg decode (bytes_congr _ fun i hi => h _ (by omega) (by omega))

-- A byte that is the same before a store is the same after it.
theorem store_congr {target i : Nat} (contents : List UInt8) (h : other i = memory i) :
    other.store target contents i = memory.store target contents i := by
  rw [store, store, h]

-- Inside a store nothing is left of what was there.
theorem store_inside {target i : Nat} {contents : List UInt8} (hl : target ≤ i)
    (hu : i < target + contents.length) :
    other.store target contents i = memory.store target contents i := by
  obtain ⟨k, rfl⟩ := Nat.exists_eq_add_of_le hl
  have hk : k < contents.length := by omega
  rw [store_at _ hk, store_at _ hk]

theorem Agree.store {address size : Nat} (h : Agree memory other address size) (target : Nat)
    (contents : List UInt8) :
    Agree (memory.store target contents) (other.store target contents) address size :=
  fun i hl hu => store_congr contents (h i hl hu)

theorem holds_append {address : Nat} {first second : List UInt8} :
    Holds memory address (first ++ second) ↔
      Holds memory address first ∧ Holds memory (address + first.length) second :=
  bytes_eq_append memory

theorem holds_store (address : Nat) (contents : List UInt8) :
    Holds (memory.store address contents) address contents :=
  bytes_store_self memory address contents

theorem Holds.readWord {address value : Nat} (h : Holds memory address (encode 4 value))
    (hv : value < 2 ^ 32) : memory.readWord address = value := by
  unfold Holds at h
  rw [length_encode] at h
  rw [Memory.readWord, h, decode_encode]
  exact Nat.mod_eq_of_lt (by norm_num; exact hv)

theorem Holds.readHalf {address value : Nat} (h : Holds memory address (encode 2 value))
    (hv : value < 2 ^ 16) : memory.readHalf address = value := by
  unfold Holds at h
  rw [length_encode] at h
  rw [Memory.readHalf, h, decode_encode]
  exact Nat.mod_eq_of_lt (by norm_num; exact hv)

-- A table of records of one width, record by record.
theorem Holds.record {α : Type*} {record : α → List UInt8} {width : Nat}
    (hw : ∀ entry, (record entry).length = width) {table : List α} {address : Nat}
    (h : Holds memory address (table.flatMap record)) {k : Nat} (hk : k < table.length) :
    Holds memory (address + width * k) (record table[k]) := by
  induction table generalizing address k with
  | nil => simp at hk
  | cons entry rest ih =>
      rw [List.flatMap_cons, holds_append, hw] at h
      cases k with
      | zero => exact h.1
      | succ k =>
          have hrest := ih h.2 (Nat.lt_of_succ_lt_succ hk)
          rwa [show address + width * (k + 1) = address + width + width * k by ring]

theorem length_flatMap_record {α : Type*} {record : α → List UInt8} {width : Nat}
    (hw : ∀ entry, (record entry).length = width) (table : List α) :
    (table.flatMap record).length = width * table.length := by
  induction table with
  | nil => rfl
  | cons entry rest ih =>
      rw [List.flatMap_cons, List.length_append, hw, ih, List.length_cons]
      ring

theorem Holds.getElem {address : Nat} {contents : List UInt8} (h : Holds memory address contents)
    {i : Nat} (hi : i < contents.length) : memory (address + i) = contents[i] := by
  have hi' : i < (memory.bytes address contents.length).length := by rwa [length_bytes]
  rw [← getElem_bytes memory hi']
  exact List.getElem_of_eq h hi'

theorem readWord_of_bytes {address offset : Nat} {contents : List UInt8}
    (h : ∀ i < 4, contents[offset + i]? = some (memory (address + i))) :
    memory.readWord address = decode ((contents.drop offset).take 4) := by
  rw [Memory.readWord]
  congr 1
  apply List.ext_getElem?
  intro i
  by_cases hi : i < 4
  · have hb : i < (memory.bytes address 4).length := by rwa [length_bytes]
    rw [List.getElem?_take_of_lt hi, List.getElem?_drop, h i hi, List.getElem?_eq_getElem hb,
      getElem_bytes]
  · rw [List.getElem?_eq_none (by rw [length_bytes]; omega),
      List.getElem?_eq_none (by rw [List.length_take]; omega)]

-- A part of what lies in memory
theorem Holds.slice {address : Nat} {contents : List UInt8} (h : Holds memory address contents)
    {offset count : Nat} (ho : offset + count ≤ contents.length) :
    memory.bytes (address + offset) count = (contents.drop offset).take count := by
  have hsplit : contents = contents.take offset ++
      ((contents.drop offset).take count ++ (contents.drop offset).drop count) := by
    rw [List.take_append_drop, List.take_append_drop]
  rw [hsplit, holds_append, holds_append] at h
  have hl : (contents.take offset).length = offset := by
    rw [List.length_take]
    omega
  have hcount : ((contents.drop offset).take count).length = count := by
    rw [List.length_take, List.length_drop]
    omega
  have hpart := h.2.1
  rw [hl] at hpart
  unfold Holds at hpart
  rwa [hcount] at hpart

theorem Holds.readWord_slice {address : Nat} {contents : List UInt8}
    (h : Holds memory address contents) {offset : Nat} (ho : offset + 4 ≤ contents.length) :
    memory.readWord (address + offset) = decode ((contents.drop offset).take 4) := by
  rw [Memory.readWord, h.slice ho]

end Holds

section Writes

variable (base : Nat)

-- Words written one after the other into an array, by index.
def writeAll (memory : Memory) (writes : List (Nat × Nat)) : Memory :=
  writes.foldl (fun memory write => memory.writeWord (base + 4 * write.1) write.2) memory

-- The value that stands at an index after all the writes.
def lastWrite : List (Nat × Nat) → Nat → Option Nat
  | [], _ => none
  | write :: rest, i =>
      match lastWrite rest i with
      | some value => some value
      | none => if write.1 = i then some write.2 else none

variable {base} {memory : Memory}

theorem lastWrite_eq_none_iff {writes : List (Nat × Nat)} {i : Nat} :
    lastWrite writes i = none ↔ ∀ write ∈ writes, write.1 ≠ i := by
  induction writes with
  | nil => simp [lastWrite]
  | cons write rest ih =>
      rw [List.forall_mem_cons, ← ih, lastWrite]
      cases lastWrite rest i with
      | some value => simp
      | none => simp

theorem mem_of_lastWrite {writes : List (Nat × Nat)} {i value : Nat}
    (h : lastWrite writes i = some value) : (i, value) ∈ writes := by
  induction writes with
  | nil => simp [lastWrite] at h
  | cons write rest ih =>
      rw [lastWrite] at h
      cases hr : lastWrite rest i with
      | some found =>
          rw [hr] at h
          exact List.mem_cons_of_mem _ (ih (hr.trans h))
      | none =>
          rw [hr] at h
          by_cases he : write.1 = i
          · simp only [he, ite_true, Option.some.injEq] at h
            rw [← he, ← h]
            exact List.mem_cons_self
          · simp [he] at h

theorem lastWrite_map (f : Nat → Nat) (writes : List (Nat × Nat)) (i : Nat) :
    lastWrite (writes.map fun write => (write.1, f write.2)) i = (lastWrite writes i).map f := by
  induction writes with
  | nil => rfl
  | cons write rest ih =>
      rw [List.map_cons, lastWrite, lastWrite, ih]
      cases lastWrite rest i with
      | some value => rfl
      | none => by_cases he : write.1 = i <;> simp [he]

theorem lastWrite_of_nodup {writes : List (Nat × Nat)} (hn : (writes.map Prod.fst).Nodup)
    {write : Nat × Nat} (hm : write ∈ writes) : lastWrite writes write.1 = some write.2 := by
  cases hl : lastWrite writes write.1 with
  | none => exact absurd rfl (lastWrite_eq_none_iff.mp hl write hm)
  | some value =>
      have hmem := mem_of_lastWrite hl
      exact congrArg some (congrArg Prod.snd (List.inj_on_of_nodup_map hn hmem hm rfl))

theorem writeAll_append (first second : List (Nat × Nat)) :
    writeAll base memory (first ++ second) = writeAll base (writeAll base memory first) second :=
  List.foldl_append

theorem writeAll_outside {writes : List (Nat × Nat)} {address : Nat}
    (h : ∀ write ∈ writes, address < base + 4 * write.1 ∨ base + 4 * write.1 + 4 ≤ address) :
    writeAll base memory writes address = memory address := by
  induction writes generalizing memory with
  | nil => rfl
  | cons write rest ih =>
      have hrest := @ih (memory.writeWord (base + 4 * write.1) write.2)
        fun other hm => h other (List.mem_cons_of_mem _ hm)
      exact hrest.trans (writeWord_outside _ _ (h write List.mem_cons_self))

theorem agree_writeAll {writes : List (Nat × Nat)} {count address size : Nat}
    (hi : ∀ write ∈ writes, write.1 < count)
    (h : address + size ≤ base ∨ base + 4 * count ≤ address) :
    Agree memory (writeAll base memory writes) address size := by
  intro i hl hu
  apply writeAll_outside
  intro write hm
  have := hi write hm
  omega

theorem readWord_writeAll (writes : List (Nat × Nat)) (i : Nat) :
    (writeAll base memory writes).readWord (base + 4 * i) =
      match lastWrite writes i with
      | some value => value % 2 ^ 32
      | none => memory.readWord (base + 4 * i) := by
  induction writes generalizing memory with
  | nil => rfl
  | cons write rest ih =>
      have hrest := @ih (memory.writeWord (base + 4 * write.1) write.2)
      rw [show writeAll base memory (write :: rest) =
        writeAll base (memory.writeWord (base + 4 * write.1) write.2) rest from rfl, hrest, lastWrite]
      cases lastWrite rest i with
      | some value => rfl
      | none =>
          by_cases he : write.1 = i
          · simp only [he, ite_true]
            exact readWord_writeWord_self ..
          · simp only [he, ite_false]
            apply readWord_store_of_disjoint
            rw [length_encode]
            omega

end Writes

end Msos.Library.Memory
