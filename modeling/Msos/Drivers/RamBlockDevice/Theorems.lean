import Msos.Drivers.RamBlockDevice

namespace Msos.Drivers.RamBlockDevice

open Msos.Library.Machine

section Device

variable (device : RamBlockDevice) (address : BitVec 32) (stream : List UInt8)

-- increment always returns one, so every init clears the memory.
theorem init_eq : device.init =
    ({ device with
        referenceCounter := device.referenceCounter + 1
        memory := some (List.replicate device.geometry.size 0)
        wasInitialized := true }, 0) := rfl

-- decrement never returns zero, so no deinit takes the device back.
theorem deinit_eq : device.deinit =
    ({ device with
        referenceCounter :=
          if device.wasInitialized then device.referenceCounter - 1 else device.referenceCounter },
      0) := by
  obtain ⟨geometry, wasInitialized, referenceCounter, memory⟩ := device
  cases wasInitialized <;> rfl

variable {device} {address} {stream}

theorem readable_of_memory {memory : List UInt8} (hw : device.wasInitialized = true)
    (hm : device.memory = some memory) (i : Nat) : device.readable i = memory[i]? := by
  simp [RamBlockDevice.readable, hw, hm]

theorem readable_of_uninitialized (hw : device.wasInitialized = false) (i : Nat) :
    device.readable i = none := by
  simp [RamBlockDevice.readable, hw]

theorem read_of_inside {memory : List UInt8} (hw : device.wasInitialized = true)
    (hm : device.memory = some memory)
    (hv : BlockDevice.isReadValid device.geometry address stream.length = true)
    (hi : address.toNat + stream.length ≤ memory.length) :
    device.read address stream = .ok ((memory.drop address.toNat).take stream.length, 0) := by
  simp [read, performRead, hv, hw, hm, hi, Except.map]

theorem read_of_outside {memory : List UInt8} (hw : device.wasInitialized = true)
    (hm : device.memory = some memory)
    (hv : BlockDevice.isReadValid device.geometry address stream.length = true)
    (hi : ¬address.toNat + stream.length ≤ memory.length) :
    device.read address stream = .error .outOfBounds := by
  simp [read, performRead, hv, hw, hm, hi, Except.map]

theorem read_of_idle (h : device.wasInitialized = false ∨
    BlockDevice.isReadValid device.geometry address stream.length = false) :
    ∃ code, device.read address stream = .ok (stream, code) := by
  cases hv : BlockDevice.isReadValid device.geometry address stream.length with
  | false => exact ⟨-1, by simp [read, hv]⟩
  | true =>
      have hw : device.wasInitialized = false := by simpa [hv] using h
      exact ⟨0, by simp [read, hv, performRead, hw, Except.map]⟩

def overwritten (memory : List UInt8) (address : Nat) (stream : List UInt8) : List UInt8 :=
  memory.take address ++ stream ++ memory.drop (address + stream.length)

theorem length_overwritten {memory : List UInt8} {address : Nat}
    (hi : address + stream.length ≤ memory.length) :
    (overwritten memory address stream).length = memory.length := by
  simp only [overwritten, List.length_append, List.length_take, List.length_drop]
  omega

-- Inside the written range stands the stream, outside it what was there.
theorem getElem?_overwritten {memory : List UInt8} {address : Nat}
    (hi : address + stream.length ≤ memory.length) (i : Nat) :
    (overwritten memory address stream)[i]? =
      if address ≤ i ∧ i < address + stream.length then stream[i - address]? else memory[i]? := by
  have htake : (memory.take address).length = address := by
    rw [List.length_take]
    omega
  unfold overwritten
  by_cases hlow : i < address
  · rw [List.append_assoc, List.getElem?_append_left (by omega), List.getElem?_take_of_lt hlow]
    have hout : ¬(address ≤ i ∧ i < address + stream.length) := by omega
    rw [ite_cond_eq_false _ _ (eq_false hout)]
  · by_cases hin : i < address + stream.length
    · rw [List.getElem?_append_left (by rw [List.length_append]; omega),
        List.getElem?_append_right (by omega), htake]
      have hinside : address ≤ i ∧ i < address + stream.length := by omega
      rw [ite_cond_eq_true _ _ (eq_true hinside)]
    · rw [List.getElem?_append_right (by rw [List.length_append]; omega), List.length_append, htake,
        List.getElem?_drop]
      have hout : ¬(address ≤ i ∧ i < address + stream.length) := by omega
      rw [ite_cond_eq_false _ _ (eq_false hout)]
      congr 1
      omega

theorem write_of_inside {memory : List UInt8} (hw : device.wasInitialized = true)
    (hm : device.memory = some memory)
    (hv : BlockDevice.isWriteValid device.geometry address stream.length = true)
    (hi : address.toNat + stream.length ≤ memory.length) :
    device.write address stream =
      .ok ({ device with memory := some (overwritten memory address.toNat stream) }, 0) := by
  simp [write, performWrite, hv, hw, hm, hi, Except.map, overwritten]

theorem write_of_outside {memory : List UInt8} (hw : device.wasInitialized = true)
    (hm : device.memory = some memory)
    (hv : BlockDevice.isWriteValid device.geometry address stream.length = true)
    (hi : ¬address.toNat + stream.length ≤ memory.length) :
    device.write address stream = .error .outOfBounds := by
  simp [write, performWrite, hv, hw, hm, hi, Except.map]

theorem write_of_uninitialized (hw : device.wasInitialized = false) :
    ∃ code, device.write address stream = .ok (device, code) := by
  cases hv : BlockDevice.isWriteValid device.geometry address stream.length with
  | false => exact ⟨-1, by simp [write, hv]⟩
  | true => exact ⟨0, by simp [write, hv, performWrite, hw, Except.map]⟩

theorem write_of_invalid
    (hv : BlockDevice.isWriteValid device.geometry address stream.length = false) :
    device.write address stream = .ok (device, -1) := by
  simp [write, hv]

end Device

namespace Session

section Steps

variable {session : Session} {next : Except MemoryFault Session}

structure Invariant (session : Session) : Prop where
  sound : session.Sound
  memory : 0 < session.count → ∃ memory, session.device.memory = some memory ∧
    memory.length = session.device.geometry.size

theorem invariant_new (geometry : Geometry) : (new geometry).Invariant where
  sound := ⟨by simp [new, RamBlockDevice.new], by simp [new]⟩
  memory := by simp [new]

theorem Invariant.wasInitialized (hi : session.Invariant) :
    session.device.wasInitialized = decide (0 < session.count) := by
  rw [Bool.eq_iff_iff, decide_eq_true_iff]
  exact hi.sound.initialized_iff

-- Without a user nothing is stored.
theorem Invariant.stored_of_zero (hi : session.Invariant) (hz : session.count = 0) (i : Nat) :
    session.stored i = none := by
  have hw := hi.wasInitialized
  rw [hz] at hw
  cases hs : session.stored i with
  | none => rfl
  | some byte =>
      have hr := hi.sound.readable i byte hs
      rw [readable_of_uninitialized hw] at hr
      simp at hr

theorem Invariant.readable (hi : session.Invariant) (hp : 0 < session.count) {memory : List UInt8}
    (hm : session.device.memory = some memory) {i : Nat} {byte : UInt8}
    (hs : session.stored i = some byte) : memory[i]? = some byte := by
  rw [← readable_of_memory (hi.sound.initialized_iff.mpr hp) hm]
  exact hi.sound.readable i byte hs

theorem step_init (hi : session.Invariant) (hs : step (.ok session) .init = some next) :
    (Good next ↔ Guarded (.ok session) .init) ∧
      (Good next → ∃ after, next = .ok after ∧ after.Invariant) := by
  obtain rfl := Option.some.inj hs
  rw [init_eq]
  have hmemory : ∀ i, readable { session.device with
      referenceCounter := session.device.referenceCounter + 1
      memory := some (List.replicate session.device.geometry.size 0)
      wasInitialized := true } i =
        if i < session.device.geometry.size then some 0 else none := by
    intro i
    rw [readable_of_memory rfl rfl, List.getElem?_replicate]
  refine ⟨⟨fun hgood hpos i byte hstored => ?_, fun hguard => ⟨by simp, fun i byte hstored => ?_⟩⟩,
    fun hgood => ⟨_, rfl, hgood, fun _ => ⟨_, rfl, by simp⟩⟩⟩
  · have hread := hgood.readable i byte hstored
    rw [hmemory] at hread
    split at hread
    · exact (Option.some.inj hread).symm
    · simp at hread
  · by_cases hpos : 0 < session.count
    · obtain ⟨memory, hm, hlen⟩ := hi.memory hpos
      have hin := hi.readable hpos hm hstored
      have hlt : i < memory.length := (List.getElem?_eq_some_iff.mp hin).1
      rw [hmemory, hguard hpos i byte hstored]
      simp only [← hlen, hlt, ite_true]
    · simp only [hi.stored_of_zero (by omega) i] at hstored
      simp at hstored

-- The session after a deinit: decrement never returns 0.
def afterDeinit (session : Session) : Session where
  device := { session.device with
    referenceCounter :=
      if session.device.wasInitialized then session.device.referenceCounter - 1
      else session.device.referenceCounter }
  count := session.count - 1
  stored := if session.count ≤ 1 then fun _ => none else session.stored

theorem not_sound_afterDeinit (hi : session.Invariant) (hone : session.count = 1) :
    ¬session.afterDeinit.Sound := by
  intro h
  have hw : session.device.wasInitialized = true := by simp [hi.wasInitialized, hone]
  have hcount := h.initialized_iff.mp hw
  simp [afterDeinit, hone] at hcount

theorem invariant_afterDeinit (hi : session.Invariant) (hone : session.count ≠ 1) :
    session.afterDeinit.Invariant := by
  refine ⟨⟨?_, fun i byte hstored => ?_⟩, fun hpos => ?_⟩
  · exact hi.sound.initialized_iff.trans (by simp only [afterDeinit]; omega)
  · simp only [afterDeinit] at hstored
    split at hstored
    · simp at hstored
    · exact hi.sound.readable i byte hstored
  · exact hi.memory (by simp only [afterDeinit] at hpos; omega)

theorem step_deinit (hi : session.Invariant) (hs : step (.ok session) .deinit = some next) :
    (Good next ↔ Guarded (.ok session) .deinit) ∧
      (Good next → ∃ after, next = .ok after ∧ after.Invariant) := by
  have hafter : next = .ok session.afterDeinit := by
    obtain rfl := Option.some.inj hs
    rw [deinit_eq]
    rfl
  rw [hafter]
  by_cases hone : session.count = 1
  · have hbad : ¬Good (.ok session.afterDeinit) := not_sound_afterDeinit hi hone
    exact ⟨iff_of_false hbad (fun hg => hg hone), fun hgood => absurd hgood hbad⟩
  · have hkept := invariant_afterDeinit hi hone
    exact ⟨iff_of_true hkept.sound hone, fun _ => ⟨_, rfl, hkept⟩⟩

theorem step_read (hi : session.Invariant) {address : BitVec 32} {stream : List UInt8}
    (hs : step (.ok session) (.read address stream) = some next) :
    (Good next ↔ Guarded (.ok session) (.read address stream)) ∧
      (Good next → ∃ after, next = .ok after ∧ after.Invariant) := by
  obtain rfl := Option.some.inj hs
  by_cases hidle : 0 < session.count ∧
      BlockDevice.isReadValid session.device.geometry address stream.length = true
  · obtain ⟨hpos, hv⟩ := hidle
    obtain ⟨memory, hm, hlen⟩ := hi.memory hpos
    have hw := hi.sound.initialized_iff.mpr hpos
    have hguarded : Guarded (.ok session) (.read address stream) ↔
        address.toNat + stream.length ≤ memory.length := by
      simp [Guarded, hpos, hv, hlen]
    rw [hguarded]
    by_cases hin : address.toNat + stream.length ≤ memory.length
    · rw [read_of_inside hw hm hv hin]
      exact ⟨iff_of_true hi.sound hin, fun _ => ⟨session, rfl, hi⟩⟩
    · rw [read_of_outside hw hm hv hin]
      exact ⟨iff_of_false id hin, False.elim⟩
  · obtain ⟨code, hr⟩ := @read_of_idle session.device address stream (by
      rw [hi.wasInitialized, decide_eq_false_iff_not]
      by_cases hpos : 0 < session.count
      · exact Or.inr (by simpa [hpos] using hidle)
      · exact Or.inl hpos)
    rw [hr]
    have hg : Guarded (.ok session) (.read address stream) := fun hpos hv => absurd ⟨hpos, hv⟩ hidle
    exact ⟨iff_of_true hi.sound hg, fun _ => ⟨session, rfl, hi⟩⟩

-- A write inside the memory stores the stream and keeps every other byte.
theorem invariant_store (hi : session.Invariant) {address : BitVec 32} {stream : List UInt8}
    (hpos : 0 < session.count) {memory : List UInt8} (hm : session.device.memory = some memory)
    (hin : address.toNat + stream.length ≤ memory.length) :
    Invariant {
      device := { session.device with memory := some (overwritten memory address.toNat stream) }
      count := session.count
      stored := store session.stored address.toNat stream } := by
  obtain ⟨_, hm', hlen⟩ := hi.memory hpos
  obtain rfl := Option.some.inj (hm.symm.trans hm')
  refine ⟨⟨hi.sound.initialized_iff, fun i byte hstored => ?_⟩, fun _ => ⟨_, rfl, ?_⟩⟩
  · have hw := hi.sound.initialized_iff.mpr hpos
    have hread := @readable_of_memory
      { session.device with memory := some (overwritten memory address.toNat stream) } _ hw rfl i
    refine hread.trans ?_
    rw [getElem?_overwritten hin]
    simp only [store] at hstored
    split
    · rename_i hinside
      rw [ite_cond_eq_true _ _ (eq_true hinside)] at hstored
      exact hstored
    · rename_i hinside
      rw [ite_cond_eq_false _ _ (eq_false hinside)] at hstored
      exact hi.readable hpos hm hstored
  · rw [length_overwritten hin, hlen]

theorem step_write (hi : session.Invariant) {address : BitVec 32} {stream : List UInt8}
    (hs : step (.ok session) (.write address stream) = some next) :
    (Good next ↔ Guarded (.ok session) (.write address stream)) ∧
      (Good next → ∃ after, next = .ok after ∧ after.Invariant) := by
  obtain rfl := Option.some.inj hs
  by_cases hpos : 0 < session.count
  · obtain ⟨memory, hm, hlen⟩ := hi.memory hpos
    have hw := hi.sound.initialized_iff.mpr hpos
    cases hv : BlockDevice.isWriteValid session.device.geometry address stream.length with
    | false =>
        rw [write_of_invalid hv]
        have hg : Guarded (.ok session) (.write address stream) := fun _ h => by simp [hv] at h
        exact ⟨iff_of_true hi.sound hg, fun _ => ⟨_, rfl, hi⟩⟩
    | true =>
        have hguarded : Guarded (.ok session) (.write address stream) ↔
            address.toNat + stream.length ≤ memory.length := by
          simp [Guarded, hpos, hv, hlen]
        rw [hguarded]
        by_cases hin : address.toNat + stream.length ≤ memory.length
        · rw [write_of_inside hw hm hv hin]
          have hafter := invariant_store hi hpos hm hin
          simp only [Except.map, hpos, and_self, ite_true]
          exact ⟨iff_of_true hafter.sound hin, fun _ => ⟨_, rfl, hafter⟩⟩
        · rw [write_of_outside hw hm hv hin]
          exact ⟨iff_of_false id hin, False.elim⟩
  · obtain ⟨code, hr⟩ := @write_of_uninitialized session.device address stream (by
      rw [hi.wasInitialized, decide_eq_false hpos])
    rw [hr]
    simp only [Except.map, hpos, and_false, ite_false]
    have hg : Guarded (.ok session) (.write address stream) := fun h => absurd h hpos
    exact ⟨iff_of_true hi.sound hg, fun _ => ⟨session, rfl, hi⟩⟩

theorem step_good_iff (hi : session.Invariant) {call : Call}
    (hs : step (.ok session) call = some next) :
    (Good next ↔ Guarded (.ok session) call) ∧
      (Good next → ∃ after, next = .ok after ∧ after.Invariant) := by
  cases call with
  | init => exact step_init hi hs
  | deinit => exact step_deinit hi hs
  | read address stream => exact step_read hi hs
  | write address stream => exact step_write hi hs

end Steps

section Runs

-- The device is a reference counted storage along a run exactly when no call
-- relies on the count that increment and decrement do not return.
theorem refCounted_iff (geometry : Geometry) (calls : List Call) :
    Throughout step Good (.ok (new geometry)) calls ↔
      Respects step Guarded (.ok (new geometry)) calls :=
  throughout_ok_iff_respects Invariant (fun _ h => h.sound) (fun _ _ _ hi hs => step_good_iff hi hs)
    (invariant_new geometry) calls

-- The second init clears the byte that the first user stored, and the deinit
-- of the only user leaves the device initialised.
theorem second_init_clears :
    ¬Throughout step Good (.ok (new ⟨16, 1, 1, 1⟩)) [.init, .write 4 [72], .init] ∧
      ¬Throughout step Good (.ok (new ⟨16, 1, 1, 1⟩)) [.init, .deinit] := by
  constructor
  · intro h
    have hgood := ((h.2 _ rfl).2 _ rfl).2 _ rfl
    exact absurd (hgood.readable 4 72 rfl) (by decide)
  · intro h
    have hgood := (h.2 _ rfl).2 _ rfl
    exact absurd (hgood.initialized_iff.mp rfl) (by decide)

end Runs

section Reads

variable {session : Session}

-- What an accepted read returns for a position is the byte stored there.
theorem read_stored (hi : session.Invariant) (hpos : 0 < session.count) {address : BitVec 32}
    {stream bytes : List UInt8} (hr : session.device.read address stream = .ok (bytes, 0))
    {i : Nat} (hlt : i < stream.length) {byte : UInt8}
    (hs : session.stored (address.toNat + i) = some byte) : bytes[i]? = some byte := by
  obtain ⟨memory, hm, _⟩ := hi.memory hpos
  have hw := hi.sound.initialized_iff.mpr hpos
  cases hv : BlockDevice.isReadValid session.device.geometry address stream.length with
  | false => simp [RamBlockDevice.read, hv] at hr
  | true =>
      by_cases hin : address.toNat + stream.length ≤ memory.length
      · rw [read_of_inside hw hm hv hin] at hr
        obtain rfl : (memory.drop address.toNat).take stream.length = bytes := by simpa using hr
        rw [List.getElem?_take_of_lt hlt, List.getElem?_drop]
        exact hi.readable hpos hm hs
      · rw [read_of_outside hw hm hv hin] at hr
        simp at hr

end Reads

end Session

end Msos.Drivers.RamBlockDevice
