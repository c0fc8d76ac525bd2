import Mathlib.Data.Nat.Notation

namespace Msos.Library.BitMap

section Bits

variable {w : Nat} (map : BitVec w) (i : Nat)

-- The bit at a position; there is none from the width on.
def bit (w i : Nat) : BitVec w := 1#w <<< i

theorem getLsbD_bit (j : Nat) : (bit w i).getLsbD j = (decide (j < w) && decide (j = i)) := by
  rw [bit, BitVec.getLsbD_shiftLeft, BitVec.getLsbD_one]
  by_cases hj : j < w
  · by_cases hji : j = i
    · subst hji
      simp [hj]
      omega
    · by_cases hlt : j < i
      · simp [hlt, hji]
      · simp [hlt, hji]
        omega
  · simp [hj]

theorem and_bit_eq_zero_iff : map &&& bit w i = 0 ↔ map.getLsbD i = false := by
  constructor
  · intro h
    by_cases hi : i < w
    · have hbit : (map &&& bit w i).getLsbD i = (0#w).getLsbD i := by rw [h]; rfl
      rw [BitVec.getLsbD_and, getLsbD_bit, BitVec.getLsbD_zero] at hbit
      simpa only [hi, decide_true, Bool.and_true] using hbit
    · exact BitVec.getLsbD_of_ge map i (by omega)
  · intro h
    apply BitVec.eq_of_getLsbD_eq
    intro j hj
    rw [BitVec.getLsbD_and, getLsbD_bit]
    by_cases hji : j = i
    · simp [hji, h]
    · simp [hji]

theorem getLsbD_or_bit {i : Nat} (hi : i < w) (j : Nat) :
    (map ||| bit w i).getLsbD j = (map.getLsbD j || decide (j = i)) := by
  rw [BitVec.getLsbD_or, getLsbD_bit]
  by_cases hji : j = i
  · simp [hji, hi]
  · simp [hji]

theorem getLsbD_and_not_bit (j : Nat) :
    (map &&& ~~~bit w i).getLsbD j = (map.getLsbD j && decide (j ≠ i)) := by
  rw [BitVec.getLsbD_and, BitVec.getLsbD_not, getLsbD_bit]
  by_cases hj : j < w
  · by_cases hji : j = i <;> simp [hj, hji]
  · simp [BitVec.getLsbD_of_ge map j (by omega)]

end Bits

end Msos.Library.BitMap
