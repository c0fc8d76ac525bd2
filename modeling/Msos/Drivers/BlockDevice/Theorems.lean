import Msos.Drivers.BlockDevice

namespace Msos.Drivers.BlockDevice

section Checks

variable (geometry : Geometry) (request : Request)

-- What the checks want to be a multiple beside the address: the length, and of
-- an erase the end.
def Request.aligned : Request → Nat
  | .read _ stream | .write _ stream => stream.length
  | .erase address size => (address.toNat + size.toNat) % 2 ^ 32

-- The three checks are one on the address, the length and the wrapped end.
theorem isValid_iff : request.isValid geometry = true ↔
    request.blockSize geometry ∣ request.address ∧ request.blockSize geometry ∣ request.aligned ∧
      (request.address + request.length) % 2 ^ 32 ≤ geometry.size := by
  cases request with
  | read address stream =>
      simp [Request.isValid, isReadValid, Request.blockSize, Request.address, Request.aligned,
        Request.length, Nat.dvd_iff_mod_eq_zero]
  | write address stream =>
      simp [Request.isValid, isWriteValid, Request.blockSize, Request.address, Request.aligned,
        Request.length, Nat.dvd_iff_mod_eq_zero]
  | erase address size =>
      simp [Request.isValid, isEraseValid, Request.blockSize, Request.address, Request.aligned,
        Request.length, Nat.dvd_iff_mod_eq_zero]

-- The end lies behind the address space, and the checks pass on what is left.
def Wraps : Prop :=
  2 ^ 32 ≤ request.address + request.length ∧ request.blockSize geometry ∣ request.address ∧
    request.blockSize geometry ∣ request.aligned ∧
      (request.address + request.length) % 2 ^ 32 ≤ geometry.size

variable {geometry} {request}

theorem dvd_aligned_iff (hlt : request.address + request.length < 2 ^ 32)
    (ha : request.blockSize geometry ∣ request.address) :
    request.blockSize geometry ∣ request.aligned ↔
      request.blockSize geometry ∣ request.length := by
  cases request with
  | read _ _ | write _ _ => exact Iff.rfl
  | erase address size =>
      have hend : (Request.erase address size).aligned = address.toNat + size.toNat :=
        Nat.mod_eq_of_lt hlt
      rw [hend]
      exact (Nat.dvd_add_right ha)

-- The checks accept what is in range, and what wraps.
theorem isValid_iff_inRange (hsize : geometry.size < 2 ^ 32) :
    request.isValid geometry = true ↔ request.InRange geometry ∨ Wraps geometry request := by
  rw [isValid_iff]
  by_cases hlt : request.address + request.length < 2 ^ 32
  · have hwraps : ¬Wraps geometry request := fun h => by
      have := h.1
      omega
    rw [Nat.mod_eq_of_lt hlt, or_iff_left hwraps]
    constructor
    · rintro ⟨ha, hl, hend⟩
      exact ⟨ha, (dvd_aligned_iff hlt ha).mp hl, hend⟩
    · intro h
      exact ⟨h.address, (dvd_aligned_iff hlt h.address).mpr h.length, h.end_le⟩
  · have hout : ¬request.InRange geometry := fun h => by
      have := h.end_le
      omega
    rw [or_iff_right hout]
    exact (and_iff_right (by omega)).symm

theorem not_inRange_of_wraps (hsize : geometry.size < 2 ^ 32) (h : Wraps geometry request) :
    ¬request.InRange geometry := by
  intro hin
  have hend := hin.end_le
  have hbehind := h.1
  omega

end Checks

section Calls

variable {State : Type} {geometry : Geometry} {device : Performs (StateM State)} {request : Request}

-- An accepted request reaches the device once, and its outcome is dropped.
theorem serve_of_valid (hv : request.isValid geometry = true) (state : State)
    (requests : List Request) :
    request.serve geometry (recorded device) (state, requests) =
      (((request.perform device state).1, 0), (request.perform device state).2,
        requests ++ [request]) := by
  cases request with
  | read address stream =>
      have hread : isReadValid geometry address stream.length = true := hv
      simp only [Request.serve, read, hread, Bool.true_eq_false, ite_false]
      rfl
  | write address stream =>
      have hwrite : isWriteValid geometry address stream.length = true := hv
      simp only [Request.serve, write, hwrite, Bool.true_eq_false, ite_false]
      rfl
  | erase address size =>
      have herase : isEraseValid geometry address size = true := hv
      simp only [Request.serve, erase, herase, Bool.true_eq_false, ite_false]
      rfl

theorem serve_of_invalid {M : Type → Type} [Monad M] [LawfulMonad M] {device : Performs M}
    (hv : request.isValid geometry = false) :
    request.serve geometry device = pure (request.stream, -1) := by
  cases request with
  | read address stream =>
      have hread : isReadValid geometry address stream.length = false := hv
      simp [Request.serve, read, hread, Request.stream]
  | write address stream =>
      have hwrite : isWriteValid geometry address stream.length = false := hv
      simp [Request.serve, write, hwrite, Request.stream]
  | erase address size =>
      have herase : isEraseValid geometry address size = false := hv
      simp [Request.serve, erase, herase, Request.stream]

-- The request reaches the device exactly when it is in range; every other one
-- is refused and changes nothing.
structure StaysInRange (geometry : Geometry) (device : Performs (StateM State))
    (request : Request) : Prop where
  calls : ∀ state, (request.serve geometry (recorded device) (state, [])).2.2 = [request] ↔
    request.InRange geometry
  refused : ¬request.InRange geometry → ∀ state,
    request.serve geometry (recorded device) (state, []) = ((request.stream, -1), state, [])

end Calls

section Range

variable {State : Type} {geometry : Geometry}

theorem staysInRange_iff [Nonempty State] (hsize : geometry.size < 2 ^ 32)
    (device : Performs (StateM State)) (request : Request) :
    StaysInRange geometry device request ↔ ¬Wraps geometry request := by
  have hvalid := @isValid_iff_inRange geometry request hsize
  constructor
  · intro h hwraps
    obtain ⟨state⟩ := ‹Nonempty State›
    have hcalls := h.calls state
    rw [serve_of_valid (hvalid.mpr (Or.inr hwraps))] at hcalls
    exact not_inRange_of_wraps hsize hwraps (hcalls.mp rfl)
  · intro hwraps
    rw [or_iff_left hwraps] at hvalid
    have hrefused : ¬request.InRange geometry → ∀ state,
        request.serve geometry (recorded device) (state, []) =
          ((request.stream, -1), state, []) := by
      intro hin state
      have hv : request.isValid geometry = false := by
        rwa [← hvalid, Bool.not_eq_true] at hin
      rw [serve_of_invalid hv]
      rfl
    refine ⟨fun state => ?_, hrefused⟩
    by_cases hin : request.InRange geometry
    · rw [serve_of_valid (hvalid.mpr hin)]
      exact iff_of_true rfl hin
    · rw [hrefused hin state]
      exact iff_of_false (by simp) hin

-- A device that does nothing
def idle : Performs (StateM Unit) where
  performRead _ stream := pure (stream, 0)
  performWrite _ _ := pure 0
  performErase _ _ := pure 0

theorem staysInRange_iff_sixteen :
    StaysInRange ⟨16, 1, 4, 8⟩ idle (.erase 8 8) ↔ ¬Wraps ⟨16, 1, 4, 8⟩ (.erase 8 8) :=
  staysInRange_iff (by decide) idle (.erase 8 8)

-- Sixteen bytes from eight bytes below the end of the address space pass the
-- checks of a device of sixteen bytes.
theorem read_wraps_not_inRange :
    ¬StaysInRange ⟨16, 1, 4, 8⟩ idle (.read 0xfffffff8 (List.replicate 16 0)) := by
  intro h
  have hin := (h.calls ()).mp rfl
  exact absurd hin.end_le (by decide)

end Range

end Msos.Drivers.BlockDevice
