import Mathlib.Algebra.Ring.Nat
import Mathlib.Data.Nat.Notation
import Msos.Library.Machine

namespace Msos.Drivers

-- kernel::atomic::increment and decrement: the new value of the source, and
-- what the functions return, which is true as a number.
namespace Atomic

def increment (source value : BitVec 32) : BitVec 32 × BitVec 32 := (source + value, 1)

def decrement (source value : BitVec 32) : BitVec 32 × BitVec 32 := (source - value, 1)

end Atomic

-- The members of BlockDevice
structure Geometry where
  size : Nat
  readSize : Nat
  writeSize : Nat
  eraseSize : Nat
deriving DecidableEq, Repr

-- An access behind the end of the memory.
inductive MemoryFault
  | outOfBounds
deriving DecidableEq, Repr

-- `memory` is null before the first init.
structure RamBlockDevice where
  geometry : Geometry
  wasInitialized : Bool
  referenceCounter : BitVec 32
  memory : Option (List UInt8)
deriving DecidableEq, Repr

namespace BlockDevice

-- The sum of the address and the length is one of 32 bits.
def isWriteValid (geometry : Geometry) (address : BitVec 32) (length : Nat) : Bool :=
  if address.toNat % geometry.writeSize ≠ 0 then false
  else if length % geometry.writeSize ≠ 0 then false
  else if geometry.size < (address.toNat + length) % 2 ^ 32 then false
  else true

def isReadValid (geometry : Geometry) (address : BitVec 32) (length : Nat) : Bool :=
  if address.toNat % geometry.readSize ≠ 0 then false
  else if length % geometry.readSize ≠ 0 then false
  else if geometry.size < (address.toNat + length) % 2 ^ 32 then false
  else true

end BlockDevice

namespace RamBlockDevice

def new (geometry : Geometry) : RamBlockDevice where
  geometry := geometry
  wasInitialized := false
  referenceCounter := 0
  memory := none

-- new[] returns memory or does not return.
def init (device : RamBlockDevice) : RamBlockDevice × Int :=
  let (counter, refCounter) := Atomic.increment device.referenceCounter 1
  let device := { device with referenceCounter := counter }
  if refCounter ≠ 1 then (device, 0)
  else
    ({ device with
        memory := some (List.replicate device.geometry.size 0)
        wasInitialized := true }, 0)

def deinit (device : RamBlockDevice) : RamBlockDevice × Int :=
  if device.wasInitialized = false then (device, 0)
  else
    let (counter, refCounter) := Atomic.decrement device.referenceCounter 1
    let device := { device with referenceCounter := counter }
    if refCounter ≠ 0 then (device, 0)
    else ({ device with wasInitialized := false }, 0)

-- The bytes that end up in the stream.
def performRead (device : RamBlockDevice) (address : BitVec 32) (stream : List UInt8) :
    Except MemoryFault (List UInt8 × Int) :=
  if device.wasInitialized = false then .ok (stream, -1)
  else
    match device.memory with
    | none => .error .outOfBounds
    | some memory =>
        if address.toNat + stream.length ≤ memory.length then
          .ok ((memory.drop address.toNat).take stream.length, 1)
        else .error .outOfBounds

def performWrite (device : RamBlockDevice) (address : BitVec 32) (stream : List UInt8) :
    Except MemoryFault (RamBlockDevice × Int) :=
  if device.wasInitialized = false then .ok (device, -1)
  else
    match device.memory with
    | none => .error .outOfBounds
    | some memory =>
        if address.toNat + stream.length ≤ memory.length then
          .ok ({ device with memory := some (memory.take address.toNat ++ stream ++
            memory.drop (address.toNat + stream.length)) }, 0)
        else .error .outOfBounds

-- BlockDevice::read and write drop what perform_read and perform_write return.
def read (device : RamBlockDevice) (address : BitVec 32) (stream : List UInt8) :
    Except MemoryFault (List UInt8 × Int) :=
  if BlockDevice.isReadValid device.geometry address stream.length = false then .ok (stream, -1)
  else (device.performRead address stream).map fun (stream, _) => (stream, 0)

def write (device : RamBlockDevice) (address : BitVec 32) (stream : List UInt8) :
    Except MemoryFault (RamBlockDevice × Int) :=
  if BlockDevice.isWriteValid device.geometry address stream.length = false then .ok (device, -1)
  else (device.performWrite address stream).map fun (device, _) => (device, 0)

inductive Call
  | init
  | deinit
  | read (address : BitVec 32) (stream : List UInt8)
  | write (address : BitVec 32) (stream : List UInt8)
deriving DecidableEq, Repr

-- The byte that a read copies for a position.
def readable (device : RamBlockDevice) (i : Nat) : Option UInt8 :=
  if device.wasInitialized then device.memory.bind fun memory => memory[i]? else none

-- The device and what its users may rely on: how many of them there are, and
-- the bytes that they have stored since there was none.
structure Session where
  device : RamBlockDevice
  count : Nat
  stored : Nat → Option UInt8

namespace Session

def new (geometry : Geometry) : Session where
  device := RamBlockDevice.new geometry
  count := 0
  stored := fun _ => none

def store (stored : Nat → Option UInt8) (address : Nat) (stream : List UInt8) : Nat → Option UInt8 :=
  fun i => if address ≤ i ∧ i < address + stream.length then stream[i - address]? else stored i

def step : Except MemoryFault Session → Call → Option (Except MemoryFault Session)
  | .error _, _ => none
  | .ok session, .init =>
      some (.ok { session with device := session.device.init.1, count := session.count + 1 })
  | .ok session, .deinit =>
      some (.ok {
        device := session.device.deinit.1
        count := session.count - 1
        stored := if session.count ≤ 1 then fun _ => none else session.stored })
  | .ok session, .read address stream =>
      some ((session.device.read address stream).map fun _ => session)
  | .ok session, .write address stream =>
      some ((session.device.write address stream).map fun (device, code) => { session with
        device := device
        stored :=
          if code = 0 ∧ 0 < session.count then store session.stored address.toNat stream
          else session.stored })

structure Sound (session : Session) : Prop where
  initialized_iff : session.device.wasInitialized = true ↔ 0 < session.count
  readable : ∀ i byte, session.stored i = some byte → session.device.readable i = some byte

def Good : Except MemoryFault Session → Prop
  | .error _ => False
  | .ok session => session.Sound

-- An init finds no user, or nothing but zeros stored; a deinit does not find
-- just one user; and an accepted transfer does not wrap round.
def Guarded : Except MemoryFault Session → Call → Prop
  | .error _, _ => True
  | .ok session, .init => 0 < session.count → ∀ i byte, session.stored i = some byte → byte = 0
  | .ok session, .deinit => session.count ≠ 1
  | .ok session, .read address stream => 0 < session.count →
      BlockDevice.isReadValid session.device.geometry address stream.length = true →
      address.toNat + stream.length ≤ session.device.geometry.size
  | .ok session, .write address stream => 0 < session.count →
      BlockDevice.isWriteValid session.device.geometry address stream.length = true →
      address.toNat + stream.length ≤ session.device.geometry.size

end Session

end RamBlockDevice

end Msos.Drivers
