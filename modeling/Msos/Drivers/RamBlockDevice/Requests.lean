import Msos.Drivers.BlockDevice.Theorems
import Msos.Drivers.RamBlockDevice.Theorems
import Msos.Library.Fallible

namespace Msos.Drivers.RamBlockDevice

open Msos.Library BlockDevice

section Definitions

def performErase (device : RamBlockDevice) (_address _size : BitVec 32) : RamBlockDevice × Int :=
  if device.wasInitialized = false then (device, -1) else (device, 0)

abbrev Operation := StateT RamBlockDevice (Except MemoryFault)

-- What RamBlockDevice overrides
def performs : Performs Operation where
  performRead address stream := fun device =>
    (device.performRead address stream).map fun reply => (reply, device)
  performWrite address stream := fun device =>
    (device.performWrite address stream).map fun (device, code) => (code, device)
  performErase address size := fun device =>
    .ok ((device.performErase address size).2, (device.performErase address size).1)

-- The device as its users can have brought it about.
inductive Reachable (geometry : Geometry) : RamBlockDevice → Prop
  | new : Reachable geometry (RamBlockDevice.new geometry)
  | init {device} : Reachable geometry device → Reachable geometry device.init.1
  | deinit {device} : Reachable geometry device → Reachable geometry device.deinit.1
  | request {device reply after} {request : Request} : Reachable geometry device →
      request.serve geometry performs device = .ok (reply, after) → Reachable geometry after

-- What a request asks for has happened between the two states of the device.
def CarriedOut (device after : RamBlockDevice) (bytes : List UInt8) : Request → Prop
  | .read address stream =>
      after = device ∧ bytes.length = stream.length ∧ ∀ i < stream.length, ∃ byte,
        device.readable (address.toNat + i) = some byte ∧ bytes[i]? = some byte
  | .write address stream =>
      bytes = stream ∧ ∀ i, after.readable i =
        if address.toNat ≤ i ∧ i < address.toNat + stream.length then stream[i - address.toNat]?
        else device.readable i
  | .erase address size => after = device ∧ (device.performErase address size).2 = 0

-- The memory is not left, 0 is returned for what is done only, and a device
-- that is not initialised reports an error and changes nothing.
def ReportsSuccess (geometry : Geometry) (device : RamBlockDevice) (request : Request) : Prop :=
  ∃ bytes code after, request.serve geometry performs device = .ok ((bytes, code), after) ∧
    (code = 0 → CarriedOut device after bytes request) ∧
      (device.wasInitialized = false → code ≠ 0 ∧ bytes = request.stream ∧ after = device)

-- A request that passes its check finds the device initialised, and a transfer
-- does not reach behind the address space.
def Accepts (geometry : Geometry) (device : RamBlockDevice) (request : Request) : Prop :=
  request.isValid geometry = true → device.wasInitialized = true ∧
    match request with
    | .erase _ _ => True
    | .read _ _ | .write _ _ => request.address + request.length < 2 ^ 32

end Definitions

section Reached

variable {geometry : Geometry} {device : RamBlockDevice}

-- An initialised device has as much memory as it says.
structure Allocated (geometry : Geometry) (device : RamBlockDevice) : Prop where
  geometry_eq : device.geometry = geometry
  memory : device.wasInitialized = true →
    ∃ memory, device.memory = some memory ∧ memory.length = geometry.size

theorem serve_read (address : BitVec 32) (stream : List UInt8) :
    (Request.read address stream).serve device.geometry performs device =
      (device.read address stream).map fun reply => (reply, device) := by
  simp only [Request.serve, BlockDevice.read, RamBlockDevice.read]
  split
  · rfl
  · simp only [performs, bind, StateT.bind, Except.bind, Except.map]
    cases device.performRead address stream <;> rfl

theorem serve_write (address : BitVec 32) (stream : List UInt8) :
    (Request.write address stream).serve device.geometry performs device =
      (device.write address stream).map fun (after, code) => ((stream, code), after) := by
  simp only [Request.serve, BlockDevice.write, RamBlockDevice.write]
  split
  · rfl
  · simp only [performs, bind, StateT.bind, Except.bind, Except.map]
    cases device.performWrite address stream <;> rfl

theorem serve_erase (address size : BitVec 32)
    (hv : isEraseValid device.geometry address size = true) :
    (Request.erase address size).serve device.geometry performs device = .ok (([], 0), device) := by
  have hsame : (device.performErase address size).1 = device := by
    unfold performErase
    split <;> rfl
  simp only [Request.serve, BlockDevice.erase, hv, Bool.true_eq_false, ite_false, performs, bind,
    StateT.bind, Except.bind, hsame]
  rfl

theorem serve_refused {request : Request} (hv : request.isValid geometry = false) :
    request.serve geometry performs device = .ok ((request.stream, -1), device) := by
  rw [serve_of_invalid hv]
  rfl

theorem allocated_written (ha : Allocated geometry device) {memory : List UInt8}
    (hm : device.memory = some memory) (hw : device.wasInitialized = true) {address : Nat}
    {stream : List UInt8} (hi : address + stream.length ≤ memory.length) :
    Allocated geometry { device with memory := some (overwritten memory address stream) } := by
  obtain ⟨_, hm', hlen⟩ := ha.memory hw
  obtain rfl := Option.some.inj (hm.symm.trans hm')
  exact ⟨ha.geometry_eq, fun _ => ⟨_, rfl, by rw [length_overwritten hi, hlen]⟩⟩

theorem allocated_of_write (ha : Allocated geometry device) {address : BitVec 32}
    {stream : List UInt8} {code : Int} {after : RamBlockDevice}
    (h : device.write address stream = .ok (after, code)) : Allocated geometry after := by
  cases hw : device.wasInitialized with
  | false =>
      obtain ⟨_, hkept⟩ := @write_of_uninitialized device address stream hw
      rw [hkept] at h
      obtain ⟨rfl, -⟩ := Prod.mk.inj (Except.ok.inj h)
      exact ha
  | true =>
      obtain ⟨memory, hm, -⟩ := ha.memory hw
      cases hv : isWriteValid device.geometry address stream.length with
      | false =>
          rw [write_of_invalid hv] at h
          obtain ⟨rfl, -⟩ := Prod.mk.inj (Except.ok.inj h)
          exact ha
      | true =>
          by_cases hi : address.toNat + stream.length ≤ memory.length
          · rw [write_of_inside hw hm hv hi] at h
            obtain ⟨rfl, -⟩ := Prod.mk.inj (Except.ok.inj h)
            exact allocated_written ha hm hw hi
          · rw [write_of_outside hw hm hv hi] at h
            cases h

theorem allocated_of_serve (ha : Allocated geometry device) {request : Request}
    {reply : List UInt8 × Int} {after : RamBlockDevice}
    (h : request.serve geometry performs device = .ok (reply, after)) :
    Allocated geometry after := by
  cases hv : request.isValid geometry with
  | false =>
      rw [serve_refused hv] at h
      obtain ⟨-, rfl⟩ := Prod.mk.inj (Except.ok.inj h)
      exact ha
  | true =>
      rw [← ha.geometry_eq] at h hv
      cases request with
      | read address stream =>
          rw [serve_read] at h
          obtain ⟨_, -, hr⟩ := Fallible.map_eq_ok.mp h
          obtain ⟨-, rfl⟩ := Prod.mk.inj hr
          exact ha
      | write address stream =>
          rw [serve_write] at h
          obtain ⟨⟨_, code⟩, hwrite, hr⟩ := Fallible.map_eq_ok.mp h
          obtain ⟨-, rfl⟩ := Prod.mk.inj hr
          exact allocated_of_write ha hwrite
      | erase address size =>
          rw [serve_erase address size hv] at h
          obtain ⟨-, rfl⟩ := Prod.mk.inj (Except.ok.inj h)
          exact ha

theorem Reachable.allocated (h : Reachable geometry device) : Allocated geometry device := by
  induction h with
  | new => exact ⟨rfl, by simp [RamBlockDevice.new]⟩
  | init hr ih => exact ⟨ih.geometry_eq, fun _ => ⟨_, rfl, by simp [ih.geometry_eq]⟩⟩
  | deinit hr ih =>
      rw [deinit_eq]
      exact ⟨ih.geometry_eq, ih.memory⟩
  | request hr hs ih => exact allocated_of_serve ih hs

end Reached

section Outcomes

variable {geometry : Geometry} {device : RamBlockDevice} {request : Request}

theorem reportsSuccess_of_refused (hv : request.isValid geometry = false) :
    ReportsSuccess geometry device request :=
  ⟨request.stream, -1, device, serve_refused hv, by simp, fun _ => ⟨by simp, rfl, rfl⟩⟩

-- The base class returns 0 although the device has refused.
theorem not_reportsSuccess_of_uninitialized (hg : device.geometry = geometry)
    (hw : device.wasInitialized = false) (hv : request.isValid geometry = true) :
    ¬ReportsSuccess geometry device request := by
  subst hg
  rintro ⟨bytes, code, after, hs, -, hkept⟩
  have hcode := (hkept hw).1
  cases request with
  | read address stream =>
      have hread : isReadValid device.geometry address stream.length = true := hv
      rw [serve_read] at hs
      simp only [RamBlockDevice.read, hread, performRead, hw, Bool.true_eq_false, ite_false, ite_true,
        Except.map, Except.ok.injEq, Prod.mk.injEq] at hs
      exact hcode hs.1.2.symm
  | write address stream =>
      have hwrite : isWriteValid device.geometry address stream.length = true := hv
      rw [serve_write] at hs
      simp only [RamBlockDevice.write, hwrite, performWrite, hw, Bool.true_eq_false, ite_false,
        ite_true, Except.map, Except.ok.injEq, Prod.mk.injEq] at hs
      exact hcode hs.1.2.symm
  | erase address size =>
      rw [serve_erase address size hv] at hs
      exact hcode (Prod.mk.inj (Prod.mk.inj (Except.ok.inj hs)).1).2.symm

-- Accepted, a transfer stays in the memory exactly when its end does not wrap.
theorem inside_iff (hsize : geometry.size < 2 ^ 32) (hv : request.isValid geometry = true) :
    request.address + request.length ≤ geometry.size ↔
      request.address + request.length < 2 ^ 32 := by
  have hend := ((isValid_iff geometry request).mp hv).2.2
  constructor
  · intro h
    omega
  · intro h
    rwa [Nat.mod_eq_of_lt h] at hend

variable {memory : List UInt8}

theorem reportsSuccess_read_iff {address : BitVec 32} {stream : List UInt8}
    (hw : device.wasInitialized = true) (hm : device.memory = some memory)
    (hv : isReadValid device.geometry address stream.length = true) :
    ReportsSuccess device.geometry device (.read address stream) ↔
      address.toNat + stream.length ≤ memory.length := by
  by_cases hi : address.toNat + stream.length ≤ memory.length
  · refine iff_of_true ⟨(memory.drop address.toNat).take stream.length, 0, device, ?_, fun _ => ?_,
      fun h => by simp [hw] at h⟩ hi
    · rw [serve_read, read_of_inside hw hm hv hi]
      rfl
    · refine ⟨rfl, ?_, fun i hlt => ?_⟩
      · rw [List.length_take, List.length_drop]
        omega
      · have hbyte : address.toNat + i < memory.length := by omega
        refine ⟨memory[address.toNat + i], ?_, ?_⟩
        · rw [readable_of_memory hw hm, List.getElem?_eq_getElem hbyte]
        · rw [List.getElem?_take_of_lt hlt, List.getElem?_drop, List.getElem?_eq_getElem hbyte]
  · refine iff_of_false ?_ hi
    rintro ⟨bytes, code, after, hs, -⟩
    rw [serve_read, read_of_outside hw hm hv hi] at hs
    cases hs

theorem reportsSuccess_write_iff {address : BitVec 32} {stream : List UInt8}
    (hw : device.wasInitialized = true) (hm : device.memory = some memory)
    (hv : isWriteValid device.geometry address stream.length = true) :
    ReportsSuccess device.geometry device (.write address stream) ↔
      address.toNat + stream.length ≤ memory.length := by
  by_cases hi : address.toNat + stream.length ≤ memory.length
  · refine iff_of_true ⟨stream, 0, { device with
      memory := some (overwritten memory address.toNat stream) }, ?_, fun _ => ⟨rfl, fun i => ?_⟩,
        fun h => by simp [hw] at h⟩ hi
    · rw [serve_write, write_of_inside hw hm hv hi]
      rfl
    · have hafter := @readable_of_memory
        { device with memory := some (overwritten memory address.toNat stream) } _ hw rfl i
      rw [hafter, getElem?_overwritten hi, readable_of_memory hw hm]
  · refine iff_of_false ?_ hi
    rintro ⟨bytes, code, after, hs, -⟩
    rw [serve_write, write_of_outside hw hm hv hi] at hs
    cases hs

theorem reportsSuccess_erase {address size : BitVec 32} (hw : device.wasInitialized = true)
    (hv : isEraseValid device.geometry address size = true) :
    ReportsSuccess device.geometry device (.erase address size) := by
  refine ⟨[], 0, device, serve_erase address size hv, fun _ => ⟨rfl, ?_⟩, fun h => by simp [hw] at h⟩
  simp [performErase, hw]

theorem reportsSuccess_iff (hsize : geometry.size < 2 ^ 32) (hr : Reachable geometry device)
    (request : Request) :
    ReportsSuccess geometry device request ↔ Accepts geometry device request := by
  obtain ⟨hg, hmemory⟩ := hr.allocated
  cases hv : request.isValid geometry with
  | false => exact iff_of_true (reportsSuccess_of_refused hv) (fun h => by simp [hv] at h)
  | true =>
      cases hw : device.wasInitialized with
      | false =>
          exact iff_of_false (not_reportsSuccess_of_uninitialized hg hw hv)
            (fun h => by simpa [hw] using (h hv).1)
      | true =>
          obtain ⟨memory, hm, hlen⟩ := hmemory hw
          have hinside := inside_iff hsize hv
          subst hg
          cases request with
          | read address stream =>
              rw [reportsSuccess_read_iff hw hm hv, hlen]
              exact hinside.trans ⟨fun h _ => ⟨hw, h⟩, fun h => (h hv).2⟩
          | write address stream =>
              rw [reportsSuccess_write_iff hw hm hv, hlen]
              exact hinside.trans ⟨fun h _ => ⟨hw, h⟩, fun h => (h hv).2⟩
          | erase address size =>
              exact iff_of_true (reportsSuccess_erase hw hv) fun _ => ⟨hw, trivial⟩

def initialized : RamBlockDevice := (RamBlockDevice.new ⟨16, 1, 1, 1⟩).init.1

def written : RamBlockDevice :=
  { initialized with memory := some ([0, 0, 0, 0, 72, 73] ++ List.replicate 10 0) }

theorem initialized_reachable : Reachable ⟨16, 1, 1, 1⟩ initialized := .init .new

theorem written_reachable : Reachable ⟨16, 1, 1, 1⟩ written := by
  have hserved : (Request.write 4 [72, 73]).serve ⟨16, 1, 1, 1⟩ performs initialized =
    .ok (([72, 73], 0), written) := rfl
  exact .request initialized_reachable hserved

-- Two bytes are written and read back.
theorem reportsSuccess_iff_written :
    (ReportsSuccess ⟨16, 1, 1, 1⟩ initialized (.write 4 [72, 73]) ↔
      Accepts ⟨16, 1, 1, 1⟩ initialized (.write 4 [72, 73])) ∧
    (ReportsSuccess ⟨16, 1, 1, 1⟩ written (.read 4 [0, 0]) ↔
      Accepts ⟨16, 1, 1, 1⟩ written (.read 4 [0, 0])) :=
  ⟨reportsSuccess_iff (by decide) initialized_reachable _,
    reportsSuccess_iff (by decide) written_reachable _⟩

-- A device that was never initialised reports that it has stored a byte.
theorem uninitialized_reports_success :
    Reachable ⟨16, 1, 1, 1⟩ (RamBlockDevice.new ⟨16, 1, 1, 1⟩) ∧
      ¬ReportsSuccess ⟨16, 1, 1, 1⟩ (RamBlockDevice.new ⟨16, 1, 1, 1⟩) (.write 4 [72]) := by
  refine ⟨.new, ?_⟩
  rintro ⟨bytes, code, after, hs, -, hkept⟩
  have hserved : (Request.write 4 [72]).serve ⟨16, 1, 1, 1⟩ performs
      (RamBlockDevice.new ⟨16, 1, 1, 1⟩) = .ok (([72], 0), RamBlockDevice.new ⟨16, 1, 1, 1⟩) := rfl
  rw [hserved] at hs
  exact (hkept rfl).1 (Prod.mk.inj (Prod.mk.inj (Except.ok.inj hs)).1).2.symm

end Outcomes

end Msos.Drivers.RamBlockDevice
