import Mathlib.Data.Nat.Digits.Defs
import Mathlib.Data.List.TakeWhile

namespace Msos.Library.Numeral

section Reversal

variable {base : Nat}

-- The number with the digits in the opposite order.
def reversed (base number : Nat) : Nat := Nat.ofDigits base (Nat.digits base number).reverse

-- How many digits at the end are zero; 0 has no digit.
def zerosAtEnd (base number : Nat) : Nat :=
  ((Nat.digits base number).takeWhile (· = 0)).length

@[simp] theorem reversed_zero : reversed base 0 = 0 := by simp [reversed]

@[simp] theorem zerosAtEnd_zero : zerosAtEnd base 0 = 0 := by simp [zerosAtEnd]

-- The last digit comes first.
theorem reversed_eq (hb : 1 < base) {number : Nat} (hn : 0 < number) :
    reversed base number = reversed base (number / base) +
      base ^ (Nat.digits base (number / base)).length * (number % base) := by
  rw [reversed, Nat.digits_def' hb hn, Nat.ofDigits_reverse_cons]
  rfl

theorem zerosAtEnd_eq (hb : 1 < base) {number : Nat} (hn : 0 < number) :
    zerosAtEnd base number =
      if number % base = 0 then zerosAtEnd base (number / base) + 1 else 0 := by
  rw [zerosAtEnd, Nat.digits_def' hb hn, List.takeWhile_cons]
  by_cases hzero : number % base = 0 <;> simp [hzero, zerosAtEnd]

theorem takeWhile_zero (digits : List Nat) :
    digits.takeWhile (· = 0) = List.replicate (digits.takeWhile (· = 0)).length 0 := by
  rw [List.eq_replicate_iff]
  refine ⟨rfl, fun digit hd => ?_⟩
  simpa using List.mem_takeWhile_imp hd

-- The digits of the reversed number, and the zeros that it has lost, are the
-- digits of the number from the front.
theorem digits_reversed (hb : 1 < base) (number : Nat) :
    Nat.digits base (reversed base number) ++ List.replicate (zerosAtEnd base number) 0 =
      (Nat.digits base number).reverse := by
  have hsplit := List.takeWhile_append_dropWhile (p := (· = 0)) (l := Nat.digits base number)
  have hreverse : (Nat.digits base number).reverse =
      ((Nat.digits base number).dropWhile (· = 0)).reverse ++
        List.replicate (zerosAtEnd base number) 0 := by
    conv_lhs => rw [← hsplit, takeWhile_zero]
    rw [List.reverse_append, List.reverse_replicate]
    rfl
  rw [reversed, hreverse, Nat.ofDigits_append_replicate_zero, Nat.digits_ofDigits base hb]
  · intro digit hd
    rw [List.mem_reverse] at hd
    exact Nat.digits_lt_base hb ((List.dropWhile_sublist _).mem hd)
  · intro hne
    rw [List.getLast_reverse]
    simpa using List.head_dropWhile_not (fun digit : Nat => decide (digit = 0))
      (List.reverse_ne_nil_iff.mp hne)

theorem reversed_pos (hb : 1 < base) {number : Nat} (hn : 0 < number) :
    0 < reversed base number := by
  rw [Nat.pos_iff_ne_zero]
  intro hzero
  have hdigits := digits_reversed hb number
  rw [hzero, Nat.digits_zero, List.nil_append] at hdigits
  have hnumber := Nat.ofDigits_digits base number
  rw [← List.reverse_reverse (Nat.digits base number), ← hdigits, List.reverse_replicate,
    Nat.ofDigits_replicate_zero] at hnumber
  omega

end Reversal

section Text

variable {base : Nat}

theorem toDigits_eq (hb : 1 < base) {number : Nat} (hn : 0 < number) :
    Nat.toDigits base number = (Nat.digits base number).reverse.map Nat.digitChar := by
  induction number using Nat.strong_induction_on with
  | _ number ih =>
      rw [Nat.digits_def' hb hn, List.reverse_cons, List.map_append]
      by_cases hlt : number < base
      · rw [Nat.toDigits_of_lt_base hlt, Nat.div_eq_of_lt hlt, Nat.mod_eq_of_lt hlt,
          Nat.digits_zero]
        rfl
      · have hdiv : 0 < number / base := Nat.div_pos (by omega) (by omega)
        rw [Nat.toDigits_of_base_le hb (by omega), ih _ (Nat.div_lt_self hn hb) hdiv]
        rfl

theorem digitChar_inj {first second : Nat} (hf : first < 16) (hs : second < 16)
    (h : first.digitChar = second.digitChar) : first = second := by
  have hall : ∀ first second : Fin 16,
      first.val.digitChar = second.val.digitChar → first = second := by decide
  exact congrArg Fin.val (hall ⟨first, hf⟩ ⟨second, hs⟩ h)

-- Up to base sixteen no two numbers have the same text.
theorem map_digitChar_inj (hb : 1 < base) (hle : base ≤ 16) {first second : Nat}
    (h : (Nat.digits base first).map Nat.digitChar = (Nat.digits base second).map Nat.digitChar) :
    first = second := by
  have hlt : ∀ number, ∀ digit ∈ Nat.digits base number, digit < 16 := fun _ _ hd =>
    (Nat.digits_lt_base hb hd).trans_le hle
  apply Nat.digits_inj_iff.mp
  apply List.ext_getElem
  · simpa using congrArg List.length h
  · intro i hf hs
    have hchar : ((Nat.digits base first).map Nat.digitChar)[i]? =
        ((Nat.digits base second).map Nat.digitChar)[i]? := by rw [h]
    simp only [List.getElem?_map, List.getElem?_eq_getElem hf, List.getElem?_eq_getElem hs,
      Option.map_some, Option.some.injEq] at hchar
    exact digitChar_inj (hlt _ _ (List.getElem_mem hf)) (hlt _ _ (List.getElem_mem hs)) hchar

end Text

section Signed

variable {base : Nat}

def alphabet : List Char := "0123456789abcdefghijklmnopqrstuvwxyz".toList

def lowerDigit (digit : Nat) : Char := alphabet.getD digit '0'

-- The digits of a number in the order in which they are divided off.
def lowDigits (base number : Nat) : List Char :=
  if number = 0 then [lowerDigit 0] else (Nat.digits base number).map lowerDigit

-- The standard numeral of an integer
def numeral (base : Nat) (value : Int) : List Char :=
  (if value < 0 then ['-'] else []) ++ (lowDigits base value.natAbs).reverse

def readDigits (base : Nat) (text : List Char) : Nat :=
  text.foldl (fun value c => value * base + alphabet.idxOf c) 0

-- The integer that a numeral is read as
def readNumeral (base : Nat) (text : List Char) : Int :=
  if text.head? = some '-' then -readDigits base text.tail else readDigits base text

theorem length_alphabet : alphabet.length = 36 := by decide

theorem nodup_alphabet : alphabet.Nodup := by decide

theorem lowerDigit_eq {digit : Nat} (h : digit < alphabet.length) :
    lowerDigit digit = alphabet[digit] := (List.getElem_eq_getD '0').symm

theorem lowerDigit_mem {digit : Nat} (h : digit < 36) : lowerDigit digit ∈ alphabet := by
  have hdigit : digit < alphabet.length := length_alphabet ▸ h
  rw [lowerDigit_eq hdigit]
  exact List.getElem_mem hdigit

theorem idxOf_lowerDigit {digit : Nat} (h : digit < 36) :
    alphabet.idxOf (lowerDigit digit) = digit := by
  have hdigit : digit < alphabet.length := length_alphabet ▸ h
  rw [lowerDigit_eq hdigit]
  exact nodup_alphabet.idxOf_getElem digit hdigit

-- One division takes the last digit off.
theorem lowDigits_eq (hb : 1 < base) (number : Nat) :
    lowDigits base number = lowerDigit (number % base) ::
      if 0 < number / base then lowDigits base (number / base) else [] := by
  by_cases hzero : number = 0
  · simp [hzero, lowDigits]
  · rw [lowDigits, if_neg hzero, Nat.digits_def' hb (Nat.pos_of_ne_zero hzero), List.map_cons]
    by_cases hrest : 0 < number / base
    · rw [if_pos hrest, lowDigits, if_neg (Nat.ne_of_gt hrest)]
    · rw [if_neg hrest, Nat.eq_zero_of_not_pos hrest, Nat.digits_zero, List.map_nil]

theorem mem_alphabet_of_mem_lowDigits (hb : 1 < base) (hle : base ≤ 36) {number : Nat} {c : Char}
    (h : c ∈ lowDigits base number) : c ∈ alphabet := by
  unfold lowDigits at h
  split at h
  · rw [List.mem_singleton.mp h]
    exact lowerDigit_mem (by decide)
  · obtain ⟨digit, hd, rfl⟩ := List.mem_map.mp h
    exact lowerDigit_mem ((Nat.digits_lt_base hb hd).trans_le hle)

-- The digits are read from the front, so the one that was divided off comes last.
theorem readDigits_reverse (hb : 1 < base) (hle : base ≤ 36) (number : Nat) :
    readDigits base (lowDigits base number).reverse = number := by
  induction number using Nat.strong_induction_on with
  | _ number ih =>
      have hdigit : alphabet.idxOf (lowerDigit (number % base)) = number % base :=
        idxOf_lowerDigit ((Nat.mod_lt number (by omega)).trans_le hle)
      have hdivision := Nat.div_add_mod' number base
      rw [lowDigits_eq hb, List.reverse_cons, readDigits, List.foldl_append, List.foldl_cons,
        List.foldl_nil, hdigit]
      by_cases hrest : 0 < number / base
      · have hless : number / base < number :=
          Nat.div_lt_self (Nat.pos_of_ne_zero fun h => by simp [h] at hrest) hb
        have hread := ih _ hless
        rw [readDigits] at hread
        rw [if_pos hrest, hread]
        exact hdivision
      · rw [if_neg hrest, List.reverse_nil, List.foldl_nil]
        rw [Nat.eq_zero_of_not_pos hrest] at hdivision
        exact hdivision

theorem readNumeral_numeral (hb : 1 < base) (hle : base ≤ 36) (value : Int) :
    readNumeral base (numeral base value) = value := by
  have hread := readDigits_reverse hb hle value.natAbs
  by_cases hneg : value < 0
  · rw [numeral, if_pos hneg, readNumeral, List.singleton_append, List.head?_cons, if_pos rfl,
      List.tail_cons, hread]
    omega
  · have hsign : (lowDigits base value.natAbs).reverse.head? ≠ some '-' := by
      intro h
      have hm := mem_alphabet_of_mem_lowDigits hb hle (List.mem_reverse.mp (List.mem_of_mem_head? h))
      exact absurd hm (by decide)
    rw [numeral, if_neg hneg, List.nil_append, readNumeral, if_neg hsign, hread]
    omega

end Signed

end Msos.Library.Numeral
