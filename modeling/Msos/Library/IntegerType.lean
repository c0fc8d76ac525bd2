import Mathlib.Algebra.Order.Ring.Int
import Mathlib.Data.Int.ModEq
import Mathlib.Tactic.Positivity
import Mathlib.Tactic.Ring

namespace Msos.Library

-- An integer type of C++ in two's complement: at least a byte wide.
structure IntegerType where
  signed : Bool
  width : Nat
  byte_le : 8 ≤ width

namespace IntegerType

variable (type : IntegerType)

def modulus : Int := 2 ^ type.width

def least : Int := if type.signed then -2 ^ (type.width - 1) else 0

def greatest : Int := type.least + type.modulus - 1

def Fits (value : Int) : Prop := type.least ≤ value ∧ value ≤ type.greatest

instance (value : Int) : Decidable (type.Fits value) := inferInstanceAs (Decidable (_ ∧ _))

-- The value of the type that a value is stored as.
def wrap (value : Int) : Int := (value - type.least) % type.modulus + type.least

variable {type}

theorem modulus_pos : 0 < type.modulus := by
  unfold modulus
  positivity

theorem modulus_eq_double : type.modulus = 2 * 2 ^ (type.width - 1) := by
  have hwidth : type.width = type.width - 1 + 1 := by
    have := type.byte_le
    omega
  rw [modulus, hwidth, Nat.add_sub_cancel, pow_succ]
  ring

theorem least_le_zero : type.least ≤ 0 := by
  unfold least
  split
  · have hpow : (0 : Int) < 2 ^ (type.width - 1) := by positivity
    omega
  · exact le_refl 0

theorem fits_zero : type.Fits 0 := by
  refine ⟨least_le_zero, ?_⟩
  unfold greatest least
  split
  · have hdouble := @modulus_eq_double type
    have hpow : (0 : Int) < 2 ^ (type.width - 1) := by positivity
    omega
  · have hpos := @modulus_pos type
    omega

theorem fits_wrap (value : Int) : type.Fits (type.wrap value) := by
  have hnonneg := Int.emod_nonneg (value - type.least) (ne_of_gt (@modulus_pos type))
  have hlt := Int.emod_lt_of_pos (value - type.least) (@modulus_pos type)
  unfold Fits greatest wrap
  omega

theorem wrap_of_fits {value : Int} (h : type.Fits value) : type.wrap value = value := by
  unfold Fits greatest at h
  rw [wrap, Int.emod_eq_of_lt (by omega) (by omega)]
  omega

theorem fits_iff_wrap {value : Int} : type.Fits value ↔ type.wrap value = value :=
  ⟨wrap_of_fits, fun h => h ▸ fits_wrap value⟩

theorem wrap_modEq (value : Int) : type.wrap value ≡ value [ZMOD type.modulus] := by
  have h := (Int.mod_modEq (value - type.least) type.modulus).add_right type.least
  rwa [Int.sub_add_cancel] at h

-- Two values are stored alike exactly when they are congruent.
theorem wrap_eq_iff {first second : Int} :
    type.wrap first = type.wrap second ↔ first ≡ second [ZMOD type.modulus] := by
  constructor
  · intro h
    exact (wrap_modEq first).symm.trans (h ▸ wrap_modEq second)
  · intro h
    have hshift : (first - type.least) % type.modulus = (second - type.least) % type.modulus :=
      h.sub_right type.least
    rw [wrap, wrap, hshift]

-- A factor and a sum may be formed before the value is stored or after it.
theorem wrap_mul_add (value factor summand : Int) :
    type.wrap (type.wrap value * factor + summand) = type.wrap (value * factor + summand) :=
  wrap_eq_iff.mpr (((wrap_modEq value).mul_right factor).add_right summand)

-- No positive value of a signed type is what its opposite is stored as.
theorem wrap_neg_ne (hs : type.signed = true) {value : Int} (hpos : 0 < value) :
    type.wrap (-value) ≠ value := by
  intro h
  have hfits : type.Fits value := h ▸ fits_wrap (-value)
  have hmod : -value ≡ value [ZMOD type.modulus] := by
    rw [← wrap_eq_iff, h, wrap_of_fits hfits]
  have hdvd : type.modulus ∣ value - -value := Int.modEq_iff_dvd.mp hmod
  have hle := Int.le_of_dvd (by omega) hdvd
  have hleast : type.least = -2 ^ (type.width - 1) := by simp [least, hs]
  have hdouble := @modulus_eq_double type
  have hend := hfits.2
  unfold greatest at hend
  omega

end IntegerType

end Msos.Library
