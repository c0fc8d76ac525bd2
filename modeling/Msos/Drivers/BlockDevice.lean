import Msos.Drivers.RamBlockDevice

namespace Msos.Drivers

-- The virtual functions that carry out the requests on a BlockDevice. A read
-- leaves its bytes in the stream.
structure Performs (M : Type → Type) where
  performRead : BitVec 32 → List UInt8 → M (List UInt8 × Int)
  performWrite : BitVec 32 → List UInt8 → M Int
  performErase : BitVec 32 → BitVec 32 → M Int

namespace BlockDevice

def isEraseValid (geometry : Geometry) (address size : BitVec 32) : Bool :=
  if address.toNat % geometry.eraseSize ≠ 0 then false
  else if (address.toNat + size.toNat) % 2 ^ 32 % geometry.eraseSize ≠ 0 then false
  else if geometry.size < (address.toNat + size.toNat) % 2 ^ 32 then false
  else true

section Requests

variable {M : Type → Type} [Monad M] (geometry : Geometry) (device : Performs M)

def read (address : BitVec 32) (stream : List UInt8) : M (List UInt8 × Int) := do
  if isReadValid geometry address stream.length = false then
    return (stream, -1)
  let (stream, _) ← device.performRead address stream
  return (stream, 0)

def write (address : BitVec 32) (stream : List UInt8) : M Int := do
  if isWriteValid geometry address stream.length = false then
    return -1
  let _ ← device.performWrite address stream
  return 0

def erase (address size : BitVec 32) : M Int := do
  if isEraseValid geometry address size = false then
    return -1
  let _ ← device.performErase address size
  return 0

end Requests

inductive Request
  | read (address : BitVec 32) (stream : List UInt8)
  | write (address : BitVec 32) (stream : List UInt8)
  | erase (address size : BitVec 32)
deriving DecidableEq, Repr

namespace Request

def address : Request → Nat
  | .read address _ | .write address _ | .erase address _ => address.toNat

def length : Request → Nat
  | .read _ stream | .write _ stream => stream.length
  | .erase _ size => size.toNat

-- The bytes of the caller; an erase has none.
def stream : Request → List UInt8
  | .read _ stream | .write _ stream => stream
  | .erase _ _ => []

def blockSize (geometry : Geometry) : Request → Nat
  | .read _ _ => geometry.readSize
  | .write _ _ => geometry.writeSize
  | .erase _ _ => geometry.eraseSize

def isValid (geometry : Geometry) : Request → Bool
  | .read address stream => isReadValid geometry address stream.length
  | .write address stream => isWriteValid geometry address stream.length
  | .erase address size => isEraseValid geometry address size

-- Aligned, and inside the device as integers.
structure InRange (geometry : Geometry) (request : Request) : Prop where
  address : request.blockSize geometry ∣ request.address
  length : request.blockSize geometry ∣ request.length
  end_le : request.address + request.length ≤ geometry.size

section Serve

variable {M : Type → Type} [Monad M] (geometry : Geometry) (device : Performs M)

-- The bytes of the caller after the request, and what it returns.
def serve : Request → M (List UInt8 × Int)
  | .read address stream => BlockDevice.read geometry device address stream
  | .write address stream => do return (stream, ← BlockDevice.write geometry device address stream)
  | .erase address size => do return ([], ← BlockDevice.erase geometry device address size)

-- The bytes of the caller once the device has carried out the request.
def perform : Request → M (List UInt8)
  | .read address stream => do return (← device.performRead address stream).1
  | .write address stream => do
      let _ ← device.performWrite address stream
      return stream
  | .erase address size => do
      let _ ← device.performErase address size
      return []

end Serve

end Request

section Recording

variable {State : Type}

-- The device with a list of the requests that reach it.
def recorded (device : Performs (StateM State)) : Performs (StateM (State × List Request)) where
  performRead address stream := fun (state, requests) =>
    let (reply, state) := device.performRead address stream state
    (reply, state, requests ++ [.read address stream])
  performWrite address stream := fun (state, requests) =>
    let (reply, state) := device.performWrite address stream state
    (reply, state, requests ++ [.write address stream])
  performErase address size := fun (state, requests) =>
    let (reply, state) := device.performErase address size state
    (reply, state, requests ++ [.erase address size])

end Recording

end BlockDevice

end Msos.Drivers
