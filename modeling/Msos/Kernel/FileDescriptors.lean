import Mathlib.Data.List.FinRange
import Msos.Library.BitMap

namespace Msos.Kernel

open Msos.Library

-- How the processor reduces the count of a shift by a register.
inductive Shifter
  | x86
  | arm
deriving DecidableEq, Repr

namespace Shifter

-- The low five bits, or the low byte.
def count (shifter : Shifter) (fd : Int) : Nat :=
  match shifter with
  | .x86 => (fd % 32).toNat
  | .arm => (fd % 256).toNat

-- 1 << fd; a count of 32 and more shifts the one out.
def one (shifter : Shifter) (fd : Int) : BitVec 32 := BitMap.bit 32 (shifter.count fd)

end Shifter

-- An access behind the ends of the array fd_.
inductive AccessFault
  | outOfBounds
deriving DecidableEq, Repr

-- fd_map_ and fd_ of Process; a null unique_ptr is none.
structure Process (File : Type*) where
  fdMap : BitVec 32
  fd : Fin 8 → Option File

inductive FileCall (File : Type*)
  | addFile (file : Option File)
  | removeFile (fd : Int)
  | getFile (fd : Int)

inductive FileReply (File : Type*)
  | code (value : Int)
  | file (found : Option File)

-- The element of an array of eight that an index selects.
def slot? (fd : Int) : Option (Fin 8) :=
  if h : 0 ≤ fd ∧ fd < 8 then some ⟨fd.toNat, by omega⟩ else none

namespace Process

variable {File : Type*}

-- The constructor; `tty` are the files that the driver of tty1 opens, if there
-- is one.
def new (tty : Option (Fin 3 → Option File)) : Process File where
  fdMap := 0x7
  fd := fun i =>
    match tty with
    | some files => if h : i.val < 3 then files ⟨i.val, h⟩ else none
    | none => none

def addFile (process : Process File) (file : Option File) : Process File × Int :=
  match (List.finRange 8).find? fun i => process.fdMap &&& BitMap.bit 32 i.val = 0 with
  | some i =>
      ({ fdMap := process.fdMap ||| BitMap.bit 32 i.val
         fd := fun j => if j = i then file else process.fd j }, i.val)
  | none => (process, -1)

def removeFile (shifter : Shifter) (process : Process File) (fd : Int) :
    Except AccessFault (Process File × Int) :=
  if process.fdMap &&& shifter.one fd ≠ 0 then
    match slot? fd with
    | some i =>
        .ok ({ fdMap := process.fdMap &&& ~~~shifter.one fd
               fd := fun j => if j = i then none else process.fd j }, 0)
    | none => .error .outOfBounds
  else
    .ok (process, -1)

def getFile (shifter : Shifter) (process : Process File) (fd : Int) :
    Except AccessFault (Option File) :=
  if process.fdMap &&& shifter.one fd ≠ 0 then
    match slot? fd with
    | some i => .ok (process.fd i)
    | none => .error .outOfBounds
  else
    .ok none

def call (shifter : Shifter) (process : Process File) :
    FileCall File → Except AccessFault (Process File × FileReply File)
  | .addFile file =>
      let (process, fd) := process.addFile file
      .ok (process, .code fd)
  | .removeFile fd => (process.removeFile shifter fd).map fun (process, code) => (process, .code code)
  | .getFile fd => (process.getFile shifter fd).map fun file => (process, .file file)

-- What the calls of a sequence return, up to an access out of bounds.
def replies (shifter : Shifter) (process : Process File) :
    List (FileCall File) → Except AccessFault (List (FileReply File))
  | [] => .ok []
  | call :: rest => do
      let (process, reply) ← process.call shifter call
      let replies ← process.replies shifter rest
      return reply :: replies

end Process

-- What the table is for: a partial map from eight descriptors to the files
-- stored at them.
def Table (File : Type*) : Type _ := Fin 8 → Option (Option File)

namespace Table

variable {File : Type*}

def new (tty : Fin 3 → Option File) : Table File :=
  fun i => if h : i.val < 3 then some (tty ⟨i.val, h⟩) else none

def lowestFree (table : Table File) : Option (Fin 8) :=
  (List.finRange 8).find? fun i => (table i).isNone

def store (table : Table File) (i : Fin 8) (entry : Option (Option File)) : Table File :=
  fun j => if j = i then entry else table j

-- The entry of a descriptor; every other integer has none.
def lookup (table : Table File) (fd : Int) : Option (Option File) := (slot? fd).bind table

def call (table : Table File) : FileCall File → Table File × FileReply File
  | .addFile file =>
      match table.lowestFree with
      | some i => (table.store i (some file), .code i.val)
      | none => (table, .code (-1))
  | .removeFile fd =>
      match slot? fd with
      | some i => if (table i).isSome then (table.store i none, .code 0) else (table, .code (-1))
      | none => (table, .code (-1))
  | .getFile fd => (table, .file (table.lookup fd).join)

def replies (table : Table File) : List (FileCall File) → List (FileReply File)
  | [] => []
  | call :: rest => (table.call call).2 :: (table.call call).1.replies rest

-- Outside 0 to 7 the reduced count of the shift is not a descriptor in use.
def Distinguishes (shifter : Shifter) (table : Table File) (fd : Int) : Prop :=
  slot? fd = none → ∀ i : Fin 8, (table i).isSome → shifter.count fd ≠ i.val

def Guarded (shifter : Shifter) (table : Table File) : List (FileCall File) → Prop
  | [] => True
  | call :: rest =>
      (match call with
        | .addFile _ => True
        | .removeFile fd | .getFile fd => table.Distinguishes shifter fd) ∧
      (table.call call).1.Guarded shifter rest

end Table

end Msos.Kernel
