import Msos.Library.Block
import Msos.Library.Fallible
import Msos.Scripts.GenerateBinary

namespace Msos.Scripts

open Msos.Library Msos.Library.Fallible

def wordAt (code : List UInt8) (offset : Nat) : Nat := Memory.decode ((code.drop offset).take 4)

variable {code patched : List UInt8} {offset other : Nat} {value : Int}

theorem patchWord_eq_ok (h : patchWord code offset value = .ok patched) :
    offset + 4 ≤ code.length ∧ 0 ≤ value ∧ value < 2 ^ 32 ∧
      patched = code.take offset ++ Memory.encode 4 value.toNat ++ code.drop (offset + 4) := by
  unfold patchWord at h
  split at h
  · rename_i hc
    exact ⟨hc.1, hc.2.1, by have := hc.2.2; omega, (Except.ok.inj h).symm⟩
  · cases h

theorem length_patchWord (h : patchWord code offset value = .ok patched) :
    patched.length = code.length := by
  obtain ⟨hl, _, _, rfl⟩ := patchWord_eq_ok h
  simp only [List.length_append, List.length_take, List.length_drop, Memory.length_encode]
  omega

theorem wordAt_patchWord_self (h : patchWord code offset value = .ok patched) :
    (wordAt patched offset : Int) = value := by
  obtain ⟨hl, hp, hu, rfl⟩ := patchWord_eq_ok h
  have htake : (code.take offset).length = offset := by
    rw [List.length_take]
    omega
  have hdrop : (code.take offset ++ Memory.encode 4 value.toNat ++ code.drop (offset + 4)).drop
      offset = Memory.encode 4 value.toNat ++ code.drop (offset + 4) := by
    rw [List.append_assoc, List.drop_append_of_le_length (by omega),
      List.drop_of_length_le (by omega), List.nil_append]
  have hfirst : (Memory.encode 4 value.toNat ++ code.drop (offset + 4)).take 4 =
      Memory.encode 4 value.toNat := List.take_left' (Memory.length_encode ..)
  rw [wordAt, hdrop, hfirst, Memory.decode_encode]
  norm_num
  omega

theorem getElem?_patchWord_of_outside (h : patchWord code offset value = .ok patched) {i : Nat}
    (hi : i < offset ∨ offset + 4 ≤ i) : patched[i]? = code[i]? := by
  obtain ⟨hl, _, _, rfl⟩ := patchWord_eq_ok h
  have htake : (code.take offset).length = offset := by
    rw [List.length_take]
    omega
  rcases hi with hi | hi
  · rw [List.append_assoc, List.getElem?_append_left (by omega), List.getElem?_take_of_lt hi]
  · have hboth : (code.take offset ++ Memory.encode 4 value.toNat).length = offset + 4 := by
      rw [List.length_append, htake, Memory.length_encode]
    rw [List.getElem?_append_right (by omega), hboth, List.getElem?_drop]
    congr 1
    omega

theorem wordAt_patchWord_of_apart (h : patchWord code offset value = .ok patched)
    (ha : other + 4 ≤ offset ∨ offset + 4 ≤ other) : wordAt patched other = wordAt code other := by
  unfold wordAt
  congr 1
  apply List.ext_getElem?
  intro i
  by_cases hi : i < 4
  · rw [List.getElem?_take_of_lt hi, List.getElem?_take_of_lt hi, List.getElem?_drop,
      List.getElem?_drop]
    exact getElem?_patchWord_of_outside h (by omega)
  · rw [List.getElem?_eq_none (by rw [List.length_take]; omega),
      List.getElem?_eq_none (by rw [List.length_take]; omega)]

-- A word that every patch hits exactly or not at all holds the value of one
-- that hits it.
theorem wordAt_patchOffsets {extracted : Extracted}
    (h : patchOffsets code extracted = .ok patched)
    (ha : ∀ patch ∈ patches extracted,
      patch.1 = offset ∨ offset + 4 ≤ patch.1 ∨ patch.1 + 4 ≤ offset)
    (he : ∃ patch ∈ patches extracted, patch.1 = offset) :
    ∃ patch ∈ patches extracted, patch.1 = offset ∧ offset + 4 ≤ code.length ∧
      (wordAt patched offset : Int) = patch.2 * 4 := by
  have hrun : patched.length = code.length ∧
      ((∀ patch ∈ patches extracted,
        patch.1 = offset ∨ offset + 4 ≤ patch.1 ∨ patch.1 + 4 ≤ offset) →
          (∃ patch ∈ patches extracted, patch.1 = offset) →
            ∃ patch ∈ patches extracted, patch.1 = offset ∧ offset + 4 ≤ code.length ∧
              (wordAt patched offset : Int) = patch.2 * 4) := by
    refine foldlM_ok (P := fun (done : List (Nat × Int)) (patched : List UInt8) =>
      patched.length = code.length ∧
        ((∀ patch ∈ done, patch.1 = offset ∨ offset + 4 ≤ patch.1 ∨ patch.1 + 4 ≤ offset) →
          (∃ patch ∈ done, patch.1 = offset) → ∃ patch ∈ done, patch.1 = offset ∧
            offset + 4 ≤ code.length ∧ (wordAt patched offset : Int) = patch.2 * 4)) ?_ ?_ h
    · refine ⟨rfl, ?_⟩
      rintro _ ⟨patch, hm, _⟩
      exact absurd hm List.not_mem_nil
    · rintro done patch before after ⟨hlength, ih⟩ hs
      refine ⟨(length_patchWord hs).trans hlength, fun ha he => ?_⟩
      have hlast : patch ∈ done ++ [patch] := List.mem_append_right _ (List.mem_singleton_self _)
      rcases ha patch hlast with hp | hp
      · have hinside := (patchWord_eq_ok hs).1
        rw [hp] at hs
        exact ⟨patch, hlast, hp, by omega, wordAt_patchWord_self hs⟩
      · obtain ⟨hit, hh, heq⟩ := he
        have hdone : hit ∈ done := by
          rcases List.mem_append.mp hh with hh | hh
          · exact hh
          · rw [List.mem_singleton.mp hh] at heq
            omega
        obtain ⟨last, hl, hoffset, hinside, hword⟩ :=
          ih (fun other hm => ha other (List.mem_append_left _ hm)) ⟨hit, hdone, heq⟩
        refine ⟨last, List.mem_append_left _ hl, hoffset, hinside, ?_⟩
        rw [wordAt_patchWord_of_apart hs hp, hword]
  exact hrun.2 ha he

theorem length_patchOffsets {extracted : Extracted}
    (h : patchOffsets code extracted = .ok patched) : patched.length = code.length :=
  foldlM_ok (P := fun _ (patched : List UInt8) => patched.length = code.length) rfl
    (fun _ _ _ _ hlength hs => (length_patchWord hs).trans hlength) h

end Msos.Scripts
