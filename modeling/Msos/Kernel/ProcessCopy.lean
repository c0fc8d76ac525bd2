import Msos.Kernel.ContextSwitch.StackFrames
import Msos.Kernel.FileDescriptors
import Msos.Library.Fallible

namespace Msos.Kernel.ProcessCopy

open Msos.Library Msos.Library.Fallible Msos.Library.Memory StackFrames

-- A call through a null pointer, or a memcpy over the end of an array.
inductive CopyFault
  | emptySlot
  | outOfBounds
deriving DecidableEq, Repr

section Constructors

variable {File : Type}

-- The loop over the slots
def cloneFiles (clone : File → File) (other : Fin 8 → Option File) :
    List (Fin 8) → (Fin 8 → Option File) → Except CopyFault (Fin 8 → Option File)
  | [], fd => .ok fd
  | i :: rest, fd =>
      match other i with
      | none => .error .emptySlot
      | some file => cloneFiles clone other rest (Function.update fd i (some (clone file)))

-- Process(const Process&)
def copyProcess (clone : File → File) (other : Process File) : Except CopyFault (Process File) :=
  (cloneFiles clone other.fd (List.finRange 8) fun _ => none).map fun fd => ⟨other.fdMap, fd⟩

def stackUsage (process : ArmProcess) : Nat :=
  (process.stack + process.stackSize + 2 ^ 32 - process.currentStackPointer) % 2 ^ 32

-- ArmProcess(const ArmProcess&) behind its base class; `stack` is the address that
-- new returned. The pointer to words is moved by the counts of bytes.
def copyStack (memory : Memory) (process : ArmProcess) (stack : Nat) :
    Except CopyFault (Memory × ArmProcess) :=
  if process.stack ≠ 0 then
    if process.stackSize ≤ allocatedSize process.stackSize then
      .ok (memory.copy stack process.stack process.stackSize,
        { process with
          stack := stack
          currentStackPointer :=
            (stack + 4 * process.stackSize + 4 * (2 ^ 32 - stackUsage process)) % 2 ^ 32
          locks := [] })
    else
      .error .outOfBounds
  else
    .ok (memory, { process with stack := 0, locks := [] })

-- An ArmProcess with its base class
structure Task (File : Type) where
  base : Process File
  arm : ArmProcess

def Task.copy (clone : File → File) (memory : Memory) (task : Task File) (stack : Nat) :
    Except CopyFault (Memory × Task File) := do
  let base ← copyProcess clone task.base
  let (memory, arm) ← copyStack memory task.arm stack
  return (memory, ⟨base, arm⟩)

def Open (process : Process File) (i : Fin 8) : Prop :=
  process.fdMap &&& BitMap.bit 32 i.val ≠ 0

-- The same descriptors on clones of the files, and the same stack in its own array.
structure IsCopy (clone : File → File) (memory : Memory) (task : Task File) (after : Memory)
    (copied : Task File) : Prop where
  open_iff : ∀ i, Open copied.base i ↔ Open task.base i
  clones : ∀ i, Open task.base i → copied.base.fd i = (task.base.fd i).map clone
  bytes_eq : after.bytes copied.arm.stack (allocatedSize task.arm.stackSize) =
    memory.bytes task.arm.stack (allocatedSize task.arm.stackSize)
  usage_eq : stackUsage copied.arm = stackUsage task.arm
  offset : ∃ offset ≤ allocatedSize task.arm.stackSize,
    task.arm.currentStackPointer = task.arm.stack + offset ∧
      copied.arm.currentStackPointer = copied.arm.stack + offset

def Copies (clone : File → File) (memory : Memory) (task : Task File) (stack : Nat) : Prop :=
  ∃ after copied, task.copy clone memory stack = .ok (after, copied) ∧
    copied.arm.stack = stack ∧ IsCopy clone memory task after copied

end Constructors

section Slots

variable {File : Type} {clone : File → File} {other fd copied : Fin 8 → Option File}

-- The loop reaches its end only if no slot is empty.
theorem cloneFiles_eq_ok_iff (slots : List (Fin 8)) :
    cloneFiles clone other slots fd = .ok copied ↔
      (∀ i ∈ slots, (other i).isSome) ∧
        copied = fun i => if i ∈ slots then (other i).map clone else fd i := by
  induction slots generalizing fd with
  | nil =>
      simp only [cloneFiles, Except.ok.injEq, List.not_mem_nil, if_false]
      exact ⟨fun h => ⟨fun _ hi => hi.elim, h.symm⟩, fun h => h.2.symm⟩
  | cons slot rest ih =>
      simp only [cloneFiles, List.forall_mem_cons]
      cases hfile : other slot with
      | none => simp
      | some file =>
          simp only [ih, Option.isSome_some, true_and]
          have hsame : (fun i => if i ∈ rest then (other i).map clone
                else Function.update fd slot (some (clone file)) i) =
              fun i => if i ∈ slot :: rest then (other i).map clone else fd i := by
            funext i
            by_cases hrest : i ∈ rest
            · simp [hrest]
            · by_cases hi : i = slot
              · subst hi
                simp [hrest, hfile]
              · simp [hrest, hi]
          rw [hsame]

theorem copyProcess_eq_ok_iff {process result : Process File} :
    copyProcess clone process = .ok result ↔
      (∀ i, (process.fd i).isSome) ∧
        result = ⟨process.fdMap, fun i => (process.fd i).map clone⟩ := by
  have hloop : ∀ fd, cloneFiles clone process.fd (List.finRange 8) (fun _ => none) = .ok fd ↔
      (∀ i, (process.fd i).isSome) ∧ fd = fun i => (process.fd i).map clone := by
    intro fd
    rw [cloneFiles_eq_ok_iff]
    simp
  rw [copyProcess, map_eq_ok]
  constructor
  · rintro ⟨fd, hfd, rfl⟩
    obtain ⟨hall, rfl⟩ := (hloop fd).mp hfd
    exact ⟨hall, rfl⟩
  · rintro ⟨hall, rfl⟩
    exact ⟨_, (hloop _).mpr ⟨hall, rfl⟩, rfl⟩

end Slots

section Stacks

variable {memory : Memory} {process : ArmProcess} {stack : Nat}

theorem le_allocatedSize_iff (stackSize : Nat) :
    stackSize ≤ allocatedSize stackSize ↔ stackSize % 4 = 0 := by
  unfold allocatedSize
  omega

-- The moved pointer has the offset of the original four times.
theorem copyStack_of_aligned (hstack : process.stack ≠ 0) (halign : process.stackSize % 4 = 0) :
    copyStack memory process stack =
      .ok (memory.copy stack process.stack process.stackSize,
        { process with
          stack := stack
          currentStackPointer :=
            (stack + 4 * process.stackSize + 4 * (2 ^ 32 - stackUsage process)) % 2 ^ 32
          locks := [] }) := by
  rw [copyStack, if_pos hstack, if_pos ((le_allocatedSize_iff _).mpr halign)]

theorem aligned_of_copyStack {result : Memory × ArmProcess} (hstack : process.stack ≠ 0)
    (h : copyStack memory process stack = .ok result) : process.stackSize % 4 = 0 := by
  rw [copyStack, if_pos hstack] at h
  by_cases hsize : process.stackSize ≤ allocatedSize process.stackSize
  · exact (le_allocatedSize_iff _).mp hsize
  · rw [if_neg hsize] at h
    cases h

theorem stackUsage_eq {offset : Nat} (hpointer : process.currentStackPointer = process.stack + offset)
    (hle : offset ≤ process.stackSize) :
    stackUsage process = (process.stackSize - offset) % 2 ^ 32 := by
  have hsum : process.stack + process.stackSize + 2 ^ 32 - (process.stack + offset) =
      process.stackSize - offset + 2 ^ 32 := by omega
  rw [stackUsage, hpointer, hsum, Nat.add_mod_right]

-- The words that the pointer is moved by are the bytes of the offset.
theorem copiedPointer_eq {offset : Nat}
    (hpointer : process.currentStackPointer = process.stack + offset)
    (hle : offset ≤ process.stackSize) (hsize : process.stackSize < 2 ^ 32) :
    (stack + 4 * process.stackSize + 4 * (2 ^ 32 - stackUsage process)) % 2 ^ 32 =
      (stack + 4 * offset) % 2 ^ 32 := by
  have husage : stackUsage process = process.stackSize - offset := by
    rw [stackUsage_eq hpointer hle, Nat.mod_eq_of_lt (by omega)]
  have hsum : stack + 4 * process.stackSize + 4 * (2 ^ 32 - (process.stackSize - offset)) =
      stack + 4 * offset + 4 * 2 ^ 32 := by omega
  rw [husage, hsum, Nat.add_mul_mod_self_right]

-- The modulus is not a multiple of three.
theorem offset_eq_zero {modulus turns offset : Nat} (hmodulus : modulus % 3 = 1)
    (hoffset : offset < modulus)
    (h : modulus * turns + (stack + offset) = stack + 4 * offset) : offset = 0 := by
  have hthree : 3 ∣ turns := by
    have hcoprime : Nat.Coprime 3 modulus := by
      rw [Nat.coprime_iff_gcd_eq_one, Nat.gcd_rec, hmodulus, Nat.gcd_one_left]
    apply Nat.Coprime.dvd_of_dvd_mul_left hcoprime
    exact ⟨offset, by omega⟩
  obtain ⟨third, rfl⟩ := hthree
  have hsame : modulus * third = offset := by
    rw [Nat.mul_left_comm] at h
    omega
  cases third with
  | zero => rw [← hsame, Nat.mul_zero]
  | succ third =>
      have hle : modulus ≤ modulus * (third + 1) :=
        Nat.le_mul_of_pos_right modulus (Nat.succ_pos third)
      omega

theorem bytes_copy (memory : Memory) (destination source count : Nat) :
    (memory.copy destination source count).bytes destination count =
      memory.bytes source count := by
  have h := memory.bytes_store_self destination (memory.bytes source count)
  rwa [length_bytes] at h

end Stacks

section Copying

variable {File : Type} {clone : File → File} {memory : Memory} {task : Task File} {stack : Nat}

-- Both constructors have to end.
theorem Task.copy_eq_ok_iff {after : Memory} {copied : Task File} :
    task.copy clone memory stack = .ok (after, copied) ↔
      copyProcess clone task.base = .ok copied.base ∧
        copyStack memory task.arm stack = .ok (after, copied.arm) := by
  rw [Task.copy]
  constructor
  · intro h
    obtain ⟨base, hbase, hrest⟩ := bind_eq_ok.mp h
    obtain ⟨⟨memory', arm⟩, harm, hdone⟩ := bind_eq_ok.mp hrest
    obtain ⟨rfl, rfl⟩ := Prod.mk.inj (Except.ok.inj hdone)
    exact ⟨hbase, harm⟩
  · rintro ⟨hbase, harm⟩
    exact bind_eq_ok.mpr ⟨_, hbase, bind_eq_ok.mpr ⟨_, harm, rfl⟩⟩

variable (clone memory task stack)

-- The copy succeeds only for a full table, and its stack pointer is right only
-- where its offset is zero.
theorem copies_iff (hstack : task.arm.stack ≠ 0) (hsize : task.arm.stackSize < 2 ^ 32)
    (hwidth : stack < 2 ^ 32) :
    Copies clone memory task stack ↔
      (∀ i, (task.base.fd i).isSome) ∧ task.arm.stackSize % 4 = 0 ∧
        task.arm.currentStackPointer = task.arm.stack := by
  constructor
  · rintro ⟨after, copied, hcopy, hat, hcopied⟩
    obtain ⟨hbase, harm⟩ := Task.copy_eq_ok_iff.mp hcopy
    have halign := aligned_of_copyStack hstack harm
    refine ⟨(copyProcess_eq_ok_iff.mp hbase).1, halign, ?_⟩
    rw [copyStack_of_aligned hstack halign] at harm
    obtain ⟨-, harm⟩ := Prod.mk.inj (Except.ok.inj harm)
    obtain ⟨offset, hle, horiginal, hpointer⟩ := hcopied.offset
    have hsmall : offset ≤ task.arm.stackSize := by
      unfold allocatedSize at hle
      omega
    rw [← harm] at hpointer
    have hsame : stack + offset = (stack + 4 * offset) % 2 ^ 32 :=
      hpointer.symm.trans (copiedPointer_eq horiginal hsmall hsize)
    have hturns := Nat.div_add_mod (stack + 4 * offset) (2 ^ 32)
    rw [← hsame] at hturns
    have hzero : offset = 0 :=
      offset_eq_zero (by decide) (Nat.lt_of_le_of_lt hsmall hsize) hturns
    rw [horiginal, hzero, Nat.add_zero]
  · rintro ⟨hall, halign, hbottom⟩
    have hbase := (@copyProcess_eq_ok_iff _ clone _ _).mpr ⟨hall, rfl⟩
    have hzero : task.arm.currentStackPointer = task.arm.stack + 0 := hbottom
    have hpointer := @copiedPointer_eq _ stack 0 hzero (Nat.zero_le _) hsize
    rw [Nat.mul_zero, Nat.add_zero, Nat.mod_eq_of_lt hwidth] at hpointer
    have hsize' : allocatedSize task.arm.stackSize = task.arm.stackSize := allocatedSize_of_dvd halign
    refine ⟨_, ⟨_, _⟩, Task.copy_eq_ok_iff.mpr
      ⟨hbase, copyStack_of_aligned hstack halign⟩, rfl, ?_⟩
    refine ⟨fun _ => Iff.rfl, fun _ _ => rfl, ?_, ?_, 0, Nat.zero_le _, hzero, hpointer⟩
    · rw [hsize']
      exact bytes_copy ..
    · exact (@stackUsage_eq _ 0 hpointer (Nat.zero_le _)).trans
        (stackUsage_eq hzero (Nat.zero_le _)).symm

theorem copies_iff_full : Copies (id : Nat → Nat) (fun _ => 0)
      ⟨⟨0xff, fun i => some i.val⟩, ArmProcess.new 1 1024 0x20000000⟩ 0x20001000 ↔
    (∀ i : Fin 8, (some i.val).isSome) ∧ 1024 % 4 = 0 ∧
      (ArmProcess.new 1 1024 0x20000000).currentStackPointer = 0x20000000 :=
  copies_iff id (fun _ => 0) ⟨⟨0xff, fun i => some i.val⟩, ArmProcess.new 1 1024 0x20000000⟩
    0x20001000 (by decide) (by decide) (by decide)

-- The constructor leaves five slots empty, so a new process is never copied.
theorem new_not_copies (tty : Option (Fin 3 → Option File)) (arm : ArmProcess) :
    ¬Copies clone memory ⟨Process.new tty, arm⟩ stack := by
  rintro ⟨after, copied, hcopy, -⟩
  obtain ⟨hbase, -⟩ := Task.copy_eq_ok_iff.mp hcopy
  have hslot := (copyProcess_eq_ok_iff.mp hbase).1 3
  cases tty with
  | none => cases hslot
  | some files => cases hslot

-- With all slots in use the pointer of a new process leaves the stack.
theorem full_not_copies : ¬Copies (id : Nat → Nat) (fun _ => 0)
    ⟨⟨0xff, fun i => some i.val⟩, ArmProcess.new 1 1024 0x20000000⟩ 0x20001000 := by
  rintro ⟨after, copied, hcopy, -, hcopied⟩
  obtain ⟨-, harm⟩ := Task.copy_eq_ok_iff.mp hcopy
  rw [copyStack_of_aligned (by decide) (by decide)] at harm
  obtain ⟨-, harm⟩ := Prod.mk.inj (Except.ok.inj harm)
  obtain ⟨offset, hle, -, hpointer⟩ := hcopied.offset
  rw [← harm] at hpointer
  have hbad : 0x20001000 + 956 * 4 = 0x20001000 + offset := hpointer
  rw [← Nat.add_left_cancel hbad] at hle
  exact absurd hle (by decide)

end Copying

end Msos.Kernel.ProcessCopy
