import Msos.Library.Numeral
import Msos.UsartPrinter

namespace Msos.UsartWriter

open Msos.Library IntegerType Numeral

section Digits

variable (base : Base)

theorem getBase_bounds : 1 < base.getBase ∧ base.getBase ≤ 16 := by
  cases base <;> decide

theorem digitAt_of_lt {digit : Nat} (h : digit < 16) : digitAt digit = .ok digit.digitChar := by
  have hall : ∀ digit : Fin 16, digitAt digit.val = .ok digit.val.digitChar := by decide
  exact hall ⟨digit, h⟩

theorem digitAt_of_neg {index : Int} (h : index < 0) : digitAt index = .error .outOfBounds := by
  cases index with
  | ofNat i => exact absurd h (by simp)
  | negSucc i => rfl

-- The digits come out from the last to the first.
theorem writeDigits_natCast (number : Nat) :
    writeDigits base number = .ok ((Nat.digits base.getBase number).map Nat.digitChar) := by
  obtain ⟨hb, hle⟩ := getBase_bounds base
  induction number using Nat.strong_induction_on with
  | _ number ih =>
      rw [writeDigits]
      by_cases hzero : number = 0
      · simp [hzero]
      · have hpos : 0 < number := Nat.pos_of_ne_zero hzero
        have hdigit : number % base.getBase < 16 := (Nat.mod_lt _ (by omega)).trans_le hle
        have hcast : (number : Int) ≠ 0 := by exact_mod_cast hzero
        rw [dif_neg hcast, Nat.digits_def' hb hpos, ← Int.ofNat_tmod, ← Int.ofNat_tdiv,
          digitAt_of_lt hdigit, ih _ (Nat.div_lt_self hpos hb)]
        rfl

-- The last digit of a negative number lies in front of the text of the digits.
theorem writeDigits_of_neg {number : Int} (h : number < 0) :
    writeDigits base number = .error .outOfBounds := by
  obtain ⟨hb, -⟩ := getBase_bounds base
  induction hn : number.natAbs using Nat.strong_induction_on generalizing number with
  | _ n ih =>
      obtain rfl : number = -(n : Int) := by omega
      have hpos : 0 < n := by omega
      rw [writeDigits, dif_neg (by omega), Int.neg_tmod, Int.neg_tdiv, ← Int.ofNat_tmod,
        ← Int.ofNat_tdiv]
      by_cases hdigit : n % base.getBase = 0
      · have hdiv : 0 < n / base.getBase := by
          refine Nat.div_pos ?_ (by omega)
          exact Nat.le_of_dvd hpos (Nat.dvd_of_mod_eq_zero hdigit)
        rw [ih (n / base.getBase) (Nat.div_lt_self hpos hb) (by omega) (by omega), hdigit]
        rfl
      · rw [digitAt_of_neg (by omega)]
        rfl

end Digits

section Reversal

variable (base : Base) (type : IntegerType)

-- The loop on a number with a sign: what it has found so far is shifted by the
-- digits that are left.
theorem reverseLoop_eq {sign : Int} (hs : sign = 1 ∨ sign = -1) (n : Nat) (number : Int)
    (zeros : Nat) (isZeroAtEnd : Bool) :
    reverseLoop base type (sign * n) number zeros isZeroAtEnd =
      (if n = 0 then number
        else type.wrap (number * base.getBase ^ (Nat.digits base.getBase n).length +
          sign * reversed base.getBase n),
        zeros + if isZeroAtEnd then Numeral.zerosAtEnd base.getBase n else 0) := by
  obtain ⟨hb, -⟩ := getBase_bounds base
  induction n using Nat.strong_induction_on generalizing number zeros isZeroAtEnd with
  | _ n ih =>
      rw [reverseLoop]
      by_cases hzero : n = 0
      · simp [hzero]
      · have hpos : 0 < n := Nat.pos_of_ne_zero hzero
        have hne : sign * (n : Int) ≠ 0 := by
          rcases hs with rfl | rfl <;> omega
        have hmod : (sign * (n : Int)).tmod base.getBase = sign * (n % base.getBase : Nat) := by
          rcases hs with rfl | rfl
          · rw [one_mul, one_mul, Int.ofNat_tmod]
          · rw [neg_one_mul, neg_one_mul, Int.neg_tmod, Int.ofNat_tmod]
        have hdiv : (sign * (n : Int)).tdiv base.getBase = sign * (n / base.getBase : Nat) := by
          rcases hs with rfl | rfl
          · rw [one_mul, one_mul, Int.ofNat_tdiv]
          · rw [neg_one_mul, neg_one_mul, Int.neg_tdiv, Int.ofNat_tdiv]
        rw [dif_neg hne]
        simp only [hmod, hdiv]
        rw [ih _ (Nat.div_lt_self hpos hb)]
        have hnumber := reversed_eq hb hpos
        have hlength : (Nat.digits base.getBase n).length =
            (Nat.digits base.getBase (n / base.getBase)).length + 1 := by
          rw [Nat.digits_def' hb hpos, List.length_cons]
        refine Prod.ext ?_ ?_
        · -- the first round adds the last digit, the others the rest
          simp only [hzero, ite_false]
          have hrounds : (number * base.getBase + sign * (n % base.getBase : Nat)) *
              base.getBase ^ (Nat.digits base.getBase (n / base.getBase)).length +
                sign * reversed base.getBase (n / base.getBase) =
              number * base.getBase ^ (Nat.digits base.getBase n).length +
                sign * reversed base.getBase n := by
            rw [hnumber, hlength]
            push_cast
            ring
          rw [← hrounds]
          by_cases hlast : n / base.getBase = 0
          · simp only [hlast, ite_true, Nat.digits_zero, List.length_nil, pow_zero, mul_one,
              reversed_zero, Nat.cast_zero, mul_zero, add_zero]
          · simp only [hlast, ite_false]
            exact wrap_mul_add _ _ _
        · have hdigit : decide (sign * (n % base.getBase : Nat) = 0) =
              decide (n % base.getBase = 0) := by
            rw [decide_eq_decide]
            rcases hs with rfl | rfl <;> omega
          simp only [hdigit]
          rw [zerosAtEnd_eq hb hpos]
          cases isZeroAtEnd with
          | false => simp
          | true =>
              by_cases hlast : n % base.getBase = 0
              · simp only [hlast, decide_true, Bool.and_self, ite_true]
                omega
              · simp [hlast]

end Reversal

section Text

variable {base : Base} {type : IntegerType}

theorem reverseNumber_eq {sign : Int} (hs : sign = 1 ∨ sign = -1) {n : Nat} (hn : 0 < n) :
    reverseNumber base type (sign * n) =
      (type.wrap (sign * reversed base.getBase n), Numeral.zerosAtEnd base.getBase n) := by
  have hne : sign * (n : Int) ≠ 0 := by
    rcases hs with rfl | rfl <;> omega
  rw [reverseNumber, if_neg hne, reverseLoop_eq base type hs]
  simp only [Nat.pos_iff_ne_zero.mp hn, ite_false, zero_mul, zero_add, ite_true]

-- The text is right exactly when the reversed number is what is stored of it.
theorem writeUnsigned_eq_iff {sign : Int} (hs : sign = 1 ∨ sign = -1) {n : Nat} (hn : 0 < n) :
    writeUnsigned base type (sign * n) = .ok (Nat.toDigits base.getBase n) ↔
      type.wrap (sign * reversed base.getBase n) = reversed base.getBase n := by
  obtain ⟨hb, hle⟩ := getBase_bounds base
  simp only [writeUnsigned, reverseNumber_eq hs hn, writeNumberAsText]
  by_cases hneg : type.wrap (sign * reversed base.getBase n) < 0
  · rw [writeDigits_of_neg base hneg]
    exact iff_of_false (fun h => nomatch h) (by omega)
  · obtain ⟨stored, hstored⟩ := Int.eq_ofNat_of_zero_le (not_lt.mp hneg)
    have htext : List.replicate (Numeral.zerosAtEnd base.getBase n) '0' =
        (List.replicate (Numeral.zerosAtEnd base.getBase n) 0).map Nat.digitChar := by
      rw [List.map_replicate]
      rfl
    rw [hstored, writeDigits_natCast, toDigits_eq hb hn, ← digits_reversed hb n, List.map_append,
      ← htext]
    constructor
    · intro h
      have hdigits := List.append_cancel_right (Except.ok.inj h)
      exact congrArg Int.ofNat (map_digitChar_inj hb hle hdigits)
    · intro h
      rw [Int.natCast_inj.mp h]
      rfl

theorem writeUnsigned_zero : writeUnsigned base type 0 = .ok (Nat.toDigits base.getBase 0) := by
  simp [writeUnsigned, reverseNumber, writeNumberAsText, writeDigits, pure, Except.pure, bind,
    Except.bind]

-- The value is not the least one of a signed type, and its digits read from the
-- back are a value of the type as well.
def Printable (base : Base) (type : IntegerType) (data : Int) : Prop :=
  data.natAbs ≤ type.greatest ∧ reversed base.getBase data.natAbs ≤ type.greatest

theorem fits_natCast_iff {n : Nat} : type.Fits n ↔ (n : Int) ≤ type.greatest :=
  and_iff_right ((@least_le_zero type).trans (by omega))

theorem writeUnsigned_natCast_iff (n : Nat) :
    writeUnsigned base type n = .ok (Nat.toDigits base.getBase n) ↔
      (reversed base.getBase n : Int) ≤ type.greatest := by
  rcases Nat.eq_zero_or_pos n with rfl | hn
  · refine iff_of_true writeUnsigned_zero ?_
    have hpos := @modulus_pos type
    have hzero : type.Fits ((0 : Nat) : Int) := fits_zero
    simpa using fits_natCast_iff.mp hzero
  · have hiff := @writeUnsigned_eq_iff base type 1 (Or.inl rfl) n hn
    rwa [one_mul, one_mul, ← fits_iff_wrap, fits_natCast_iff] at hiff

theorem signed_of_neg {data : Int} (hf : type.Fits data) (hneg : data < 0) : type.signed = true := by
  have hleast := hf.1
  unfold least at hleast
  split at hleast
  · assumption
  · omega

theorem greatest_of_signed (hs : type.signed = true) : type.greatest = -type.least - 1 := by
  have hleast : type.least = -2 ^ (type.width - 1) := by simp [least, hs]
  have hdouble := @modulus_eq_double type
  unfold greatest
  omega

-- The opposite of the least value is stored as the least value.
theorem wrap_neg_least (hs : type.signed = true) : type.wrap (-type.least) = type.least := by
  have hmod : -type.least ≡ type.least [ZMOD type.modulus] := by
    rw [Int.modEq_iff_dvd]
    have hgreatest := greatest_of_signed hs
    unfold greatest at hgreatest
    exact ⟨-1, by omega⟩
  have hfits : type.Fits type.least := by
    refine ⟨le_refl _, ?_⟩
    have hzero := (@fits_zero type).2
    exact (@least_le_zero type).trans hzero
  rw [wrap_eq_iff.mpr hmod, wrap_of_fits hfits]

theorem write_of_neg {data : Int} (hf : type.Fits data) (hneg : data < 0) :
    write base type data = .ok (numeral base data) ↔
      writeUnsigned base type (type.wrap (data * -1)) =
        .ok (Nat.toDigits base.getBase data.natAbs) := by
  have hs := signed_of_neg hf hneg
  rw [write, if_pos ⟨hs, hneg⟩, numeral, if_pos hneg]
  cases writeUnsigned base type (type.wrap (data * -1)) with
  | error fault => exact iff_of_false (fun h => nomatch h) (fun h => nomatch h)
  | ok digits => simp [pure, Except.pure, bind, Except.bind]

theorem write_text_iff {data : Int} (hf : type.Fits data) :
    write base type data = .ok (numeral base data) ↔ Printable base type data := by
  by_cases hneg : data < 0
  · have hs := signed_of_neg hf hneg
    have hgreatest := greatest_of_signed hs
    have hopposite : data * -1 = (data.natAbs : Int) := by omega
    rw [write_of_neg hf hneg, hopposite]
    by_cases hle : (data.natAbs : Int) ≤ type.greatest
    · rw [wrap_of_fits (fits_natCast_iff.mpr hle), writeUnsigned_natCast_iff]
      exact (and_iff_right hle).symm
    · -- only the least value has an opposite that is too large
      obtain rfl : data = type.least := by
        have hleast := hf.1
        omega
      have hwrap : type.wrap ((type.least).natAbs : Int) = -1 * ((type.least).natAbs : Int) := by
        rw [← hopposite, mul_neg_one, wrap_neg_least hs]
        omega
      have hpos := reversed_pos (getBase_bounds base).1 (Int.natAbs_pos.mpr (ne_of_lt hneg))
      rw [hwrap, writeUnsigned_eq_iff (Or.inr rfl) (Int.natAbs_pos.mpr (ne_of_lt hneg)), neg_one_mul]
      exact iff_of_false (wrap_neg_ne hs (by exact_mod_cast hpos)) (fun h => hle h.1)
  · obtain ⟨n, rfl⟩ := Int.eq_ofNat_of_zero_le (not_lt.mp hneg)
    rw [write, if_neg (fun h => hneg h.2), numeral, if_neg hneg, Int.natAbs_natCast,
      writeUnsigned_natCast_iff]
    exact (and_iff_right (fits_natCast_iff.mp hf)).symm

end Text

section Exact

variable {base : Base} {type : IntegerType}

-- In every round the number found so far is at most the reversed number.
theorem reversesExactly_of_le (n number : Nat)
    (hle : ((number * base.getBase ^ (Nat.digits base.getBase n).length +
      reversed base.getBase n : Nat) : Int) ≤ type.greatest) :
    ReversesExactly base type n number := by
  obtain ⟨hb, -⟩ := getBase_bounds base
  induction n using Nat.strong_induction_on generalizing number with
  | _ n ih =>
      rw [ReversesExactly]
      by_cases hzero : n = 0
      · simp [hzero]
      · have hpos : 0 < n := Nat.pos_of_ne_zero hzero
        have hlength : (Nat.digits base.getBase n).length =
            (Nat.digits base.getBase (n / base.getBase)).length + 1 := by
          rw [Nat.digits_def' hb hpos, List.length_cons]
        have htotal : number * base.getBase ^ (Nat.digits base.getBase n).length +
            reversed base.getBase n =
          (number * base.getBase + n % base.getBase) *
            base.getBase ^ (Nat.digits base.getBase (n / base.getBase)).length +
              reversed base.getBase (n / base.getBase) := by
          rw [reversed_eq hb hpos, hlength]
          ring
        have hround : number * base.getBase + n % base.getBase ≤
            number * base.getBase ^ (Nat.digits base.getBase n).length +
              reversed base.getBase n := by
          rw [htotal]
          exact (Nat.le_mul_of_pos_right _ (Nat.pow_pos (by omega))).trans (Nat.le_add_right _ _)
        have hsum : (number : Int) * base.getBase + (n : Int).tmod base.getBase =
            ((number * base.getBase + n % base.getBase : Nat) : Int) := by
          rw [← Int.ofNat_tmod]
          push_cast
          rfl
        rw [dif_neg (by exact_mod_cast hzero)]
        simp only [hsum, ← Int.ofNat_tdiv]
        refine ⟨?_, fits_natCast_iff.mpr (le_trans (by exact_mod_cast hround) hle),
          ih _ (Nat.div_lt_self hpos hb) _ (htotal ▸ hle)⟩
        have hproduct : type.Fits ((number * base.getBase : Nat) : Int) := by
          refine fits_natCast_iff.mpr (le_trans ?_ hle)
          exact_mod_cast (Nat.le_add_right _ _).trans hround
        exact_mod_cast hproduct

theorem printsCorrectly_iff {data : Int} (hf : type.Fits data) :
    PrintsCorrectly base type data ↔ Printable base type data := by
  constructor
  · intro h
    exact (write_text_iff hf).mp h.text
  · intro h
    refine ⟨(write_text_iff hf).mpr h, fun hneg => ?_, ?_⟩
    · have hopposite : data * -1 = (data.natAbs : Int) := by omega
      rw [hopposite]
      exact fits_natCast_iff.mpr h.1
    · apply reversesExactly_of_le
      rw [Nat.zero_mul, Nat.zero_add]
      exact h.2

def int32 : IntegerType := ⟨true, 32, by decide⟩

theorem printsCorrectly_iff_hundreds :
    PrintsCorrectly .dec int32 (-700) ↔ Printable .dec int32 (-700) :=
  printsCorrectly_iff (by decide)

-- The digits from the back are 9999999991, which is no value of 32 bits.
theorem prints_other_number :
    int32.Fits 1999999999 ∧ write .dec int32 1999999999 = .ok "9935600141".toList ∧
      ¬PrintsCorrectly .dec int32 1999999999 := by
  have hwritten : write .dec int32 1999999999 = .ok "9935600141".toList := by decide +kernel
  refine ⟨by decide, hwritten, fun h => ?_⟩
  have htext := h.text
  rw [hwritten] at htext
  revert htext
  decide +kernel

end Exact

end Msos.UsartWriter
