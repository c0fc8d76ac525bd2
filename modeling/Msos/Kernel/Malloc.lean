import Mathlib.Algebra.BigOperators.Group.List.Basic
import Mathlib.Algebra.Ring.Nat
import Mathlib.Data.Nat.Notation
import Msos.Library.Machine

namespace Msos.Kernel

-- A pointer that the C library did not hand out, or that it already took back.
inductive HeapFault
  | invalidPointer
deriving DecidableEq, Repr

-- A block by its address and its size.
structure HeapBlock where
  address : Nat
  size : Nat
deriving DecidableEq, Repr

-- The counter of the wrappers, the words in memory by their addresses, and the
-- live blocks of the C library.
structure Heap where
  currentUsage : BitVec 32
  word : Nat → BitVec 32
  real : List HeapBlock

-- What the C library is free to choose: where a new block lies, and what it
-- leaves in the memory outside the live blocks.
structure Placement where
  address : Nat
  scratch : Nat → BitVec 32

namespace Heap

def sizeofSize : Nat := 4

def Covered (real : List HeapBlock) (address : Nat) : Prop :=
  ∃ block ∈ real, block.address ≤ address ∧ address < block.address + block.size

instance (real : List HeapBlock) (address : Nat) : Decidable (Covered real address) :=
  inferInstanceAs (Decidable (∃ block ∈ real, _ ∧ _))

-- A new block is aligned for every type, lies in the address space and apart
-- from the live ones.
def Fits (real : List HeapBlock) (address size : Nat) : Prop :=
  address % 8 = 0 ∧ 0 < address ∧ address + size ≤ 2 ^ 32 ∧
    ∀ block ∈ real, address ≠ block.address ∧
      (address + size ≤ block.address ∨ block.address + block.size ≤ address)

instance (real : List HeapBlock) (address size : Nat) : Decidable (Fits real address size) :=
  inferInstanceAs (Decidable (_ ∧ _ ∧ _ ∧ ∀ block ∈ real, _ ∧ _))

-- The C library writes into memory outside the live blocks only.
def scribble (heap : Heap) (real : List HeapBlock) (scratch : Nat → BitVec 32) : Nat → BitVec 32 :=
  fun address => if Covered real address then heap.word address else scratch address

-- __real_malloc with success; none where the library would not place a block.
def realMalloc (heap : Heap) (size : BitVec 32) (placement : Placement) : Option (Heap × Nat) :=
  if Fits heap.real placement.address size.toNat then
    some ({ heap with
      word := heap.scribble heap.real placement.scratch
      real := ⟨placement.address, size.toNat⟩ :: heap.real }, placement.address)
  else none

def realFree (heap : Heap) (data : Nat) (placement : Placement) : Except HeapFault Heap :=
  if data ∈ heap.real.map HeapBlock.address then
    let real := heap.real.filter fun block => block.address ≠ data
    .ok { heap with word := heap.scribble real placement.scratch, real := real }
  else .error .invalidPointer

-- __real_realloc with success: the contents move to the new block.
def realRealloc (heap : Heap) (address : Nat) (size : BitVec 32) (placement : Placement) :
    Except HeapFault (Option (Heap × Nat)) :=
  match heap.real.find? fun block => block.address = address with
  | none => .error .invalidPointer
  | some block =>
      let real := heap.real.filter fun block => block.address ≠ address
      if Fits real placement.address size.toNat then
        let word := fun target =>
          if placement.address ≤ target ∧ target < placement.address + min block.size size.toNat then
            heap.word (address + (target - placement.address))
          else heap.scribble real placement.scratch target
        .ok (some ({ heap with
          word := word
          real := ⟨placement.address, size.toNat⟩ :: real }, placement.address))
      else .ok none

def store (heap : Heap) (address : Nat) (value : BitVec 32) : Heap :=
  { heap with word := fun target => if target = address then value else heap.word target }

-- __wrap_malloc
def malloc (heap : Heap) (sz : BitVec 32) (placement : Placement) : Option (Heap × Nat) := do
  let (heap, mem) ← heap.realMalloc (sz + BitVec.ofNat 32 sizeofSize) placement
  let heap := heap.store mem (sz + BitVec.ofNat 32 sizeofSize)
  let heap := { heap with currentUsage := heap.currentUsage + (sz + BitVec.ofNat 32 sizeofSize) }
  return (heap, mem + sizeofSize)

-- __wrap_free
def free (heap : Heap) (data : Nat) (placement : Placement) : Except HeapFault Heap :=
  let memory := data - sizeofSize
  let heap := { heap with currentUsage := heap.currentUsage - heap.word memory }
  heap.realFree memory placement

-- __wrap_realloc passes on the pointer that it was given, not the one in front
-- of the header.
def realloc (heap : Heap) (addr : Nat) (sz : BitVec 32) (placement : Placement) :
    Except HeapFault (Option (Heap × Nat)) := do
  let memory := addr - sizeofSize
  let heap := { heap with currentUsage := heap.currentUsage - heap.word memory }
  match ← heap.realRealloc addr (sz + BitVec.ofNat 32 sizeofSize) placement with
  | none => return none
  | some (heap, mem) =>
      let heap := { heap with currentUsage := heap.currentUsage + sz }
      return some (heap, mem + sizeofSize)

inductive Call
  | malloc (sz : BitVec 32)
  | free (data : Nat)
  | realloc (addr : Nat) (sz : BitVec 32)
deriving DecidableEq, Repr

-- The heap and the blocks that its users hold: the pointers that the wrappers
-- returned, with the sizes that were asked for.
structure Session where
  heap : Heap
  blocks : List HeapBlock

namespace Session

def new (word : Nat → BitVec 32) : Session := ⟨⟨0, word, []⟩, []⟩

def pointers (session : Session) : List Nat := session.blocks.map HeapBlock.address

def without (session : Session) (pointer : Nat) : List HeapBlock :=
  session.blocks.filter fun block => block.address ≠ pointer

-- free and realloc are called with pointers of live blocks only.
def step : Except HeapFault Session → Call × Placement → Option (Except HeapFault Session)
  | .error _, _ => none
  | .ok session, (.malloc sz, placement) =>
      (session.heap.malloc sz placement).map fun (heap, pointer) =>
        .ok ⟨heap, ⟨pointer, sz.toNat⟩ :: session.blocks⟩
  | .ok session, (.free data, placement) =>
      if data ∈ session.pointers then
        some ((session.heap.free data placement).map fun heap => ⟨heap, session.without data⟩)
      else none
  | .ok session, (.realloc addr sz, placement) =>
      if addr ∈ session.pointers then
        match session.heap.realloc addr sz placement with
        | .error fault => some (.error fault)
        | .ok none => none
        | .ok (some (heap, pointer)) =>
            some (.ok ⟨heap, ⟨pointer, sz.toNat⟩ :: session.without addr⟩)
      else none

-- The bytes of the live blocks with their headers.
def usage (session : Session) : Nat :=
  (session.blocks.map fun block => block.size + sizeofSize).sum

structure Exact (session : Session) : Prop where
  usage_eq : session.heap.currentUsage.toInt = session.usage
  header_eq : ∀ block ∈ session.blocks,
    (session.heap.word (block.address - sizeofSize)).toNat = block.size + sizeofSize
  freed : session.blocks = [] → session.heap.currentUsage = 0

def Good : Except HeapFault Session → Prop
  | .error _ => False
  | .ok session => session.Exact

-- No realloc, and the live blocks stay below the largest int.
def Guarded : Except HeapFault Session → Call × Placement → Prop
  | .error _, _ => True
  | .ok session, (.malloc sz, _) => session.usage + sz.toNat + sizeofSize < 2 ^ 31
  | .ok _, (.free _, _) => True
  | .ok _, (.realloc _ _, _) => False

end Session

end Heap

end Msos.Kernel
