import Mathlib.Data.List.Induction
import Msos.Library.CString
import Msos.Library.IntegerType
import Msos.Library.Numeral

namespace Msos.StringUtils

open Msos.Library Msos.Library.CString Msos.Library.Numeral

def nul : Char := Char.ofNat 0

-- The loop of reverse, on the indices of its two pointers
def reverseLoop (s : List Char) (i j : Int) : List Char :=
  if i < j then
    let c := s.getD i.toNat nul
    reverseLoop ((s.set i.toNat (s.getD j.toNat nul)).set j.toNat c) (i + 1) (j - 1)
  else s
termination_by (j - i).toNat
decreasing_by omega

def reverse (s : List Char) : List Char := reverseLoop s 0 ((string nul s).length - 1)

def intToChar (n : Int) : Char :=
  if n > 9 then Char.ofNat (n - 10 + 97).toNat else Char.ofNat (n + 48).toNat

-- The do loop of itoa; none when the fuel does not do.
def generateDigits (base : Int) : Nat → List Char → Nat → Int → Option (List Char × Nat)
  | 0, _, _, _ => none
  | fuel + 1, s, i, n =>
      let s := s.set i (intToChar (n.tmod base))
      if n.tdiv base > 0 then generateDigits base fuel s (i + 1) (n.tdiv base) else some (s, i + 1)

variable (type : IntegerType)

-- The buffer behind the call and the value that is returned; -n is stored in the
-- type of n.
def itoa (fuel : Nat) (n : Int) (s : List Char) (base : Int) : Option (List Char × Nat) :=
  let sign := n
  let n := if sign < 0 then type.wrap (-n) else n
  (generateDigits base fuel s 0 n).map fun (s, i) =>
    let (s, i) := if sign < 0 then (s.set i '-', i + 1) else (s, i)
    (reverse (s.set i nul), i)

section Reverse

theorem set_append_cons (front : List Char) (c other : Char) (back : List Char) :
    (front ++ c :: back).set front.length other = front ++ other :: back := by
  rw [List.set_append_right _ _ (Nat.le_refl _), Nat.sub_self, List.set_cons_zero]

theorem getD_append_cons (front : List Char) (c : Char) (back : List Char) :
    (front ++ c :: back).getD front.length nul = c := by
  rw [List.getD_eq_getElem?_getD, List.getElem?_append_right (Nat.le_refl _), Nat.sub_self]
  rfl

-- One round of the loop
theorem swap_eq (front middle back : List Char) (first last : Char) :
    ((front ++ first :: (middle ++ last :: back)).set front.length
        ((front ++ first :: (middle ++ last :: back)).getD (front.length + middle.length + 1) nul)).set
          (front.length + middle.length + 1) first =
      front ++ last :: (middle ++ first :: back) := by
  have hlength : ∀ c, (front ++ c :: middle).length = front.length + middle.length + 1 := by
    intro c
    rw [List.length_append, List.length_cons]
    rfl
  have hassoc : ∀ c other, front ++ c :: (middle ++ other :: back) =
      (front ++ c :: middle) ++ other :: back := by
    intro c other
    rw [List.append_assoc, List.cons_append]
  have hlast : (front ++ first :: (middle ++ last :: back)).getD
      (front.length + middle.length + 1) nul = last := by
    rw [hassoc, ← hlength first, getD_append_cons]
  rw [hlast, set_append_cons, hassoc, ← hlength last, set_append_cons, ← hassoc]

-- The pointers stand on the ends of what is left to reverse.
theorem reverseLoop_eq (middle : List Char) (front back : List Char) :
    reverseLoop (front ++ (middle ++ back)) front.length (front.length + middle.length - 1) =
      front ++ (middle.reverse ++ back) := by
  induction middle using List.bidirectionalRec generalizing front back with
  | nil =>
      rw [reverseLoop, if_neg (by simp)]
      rfl
  | singleton c =>
      rw [reverseLoop, if_neg (by simp)]
      rfl
  | cons_append first middle last ih =>
      have hbuffer : front ++ (first :: (middle ++ [last]) ++ back) =
          front ++ first :: (middle ++ last :: back) := by simp
      have hlength : (first :: (middle ++ [last])).length = middle.length + 2 := by simp
      have hend : (front.length + (middle.length + 2 : Nat) - 1 : Int) =
          (front.length + middle.length + 1 : Nat) := by omega
      have hrest := ih (front ++ [last]) (first :: back)
      rw [List.length_append, List.length_singleton] at hrest
      rw [hbuffer, hlength, hend, reverseLoop, if_pos (by omega)]
      simp only [Int.toNat_natCast, getD_append_cons, swap_eq]
      have hnext : ((front.length + middle.length + 1 : Nat) - 1 : Int) =
          (front.length + 1 : Nat) + middle.length - 1 := by omega
      rw [hnext]
      simpa using hrest

theorem reverse_text {text : List Char} (h : nul ∉ text) (rest : List Char) :
    reverse (text ++ nul :: rest) = text.reverse ++ nul :: rest := by
  have hloop := reverseLoop_eq text [] (nul :: rest)
  rw [reverse, string_append_nul h]
  simpa using hloop

end Reverse

section Digits

variable {base : Nat}

theorem intToChar_eq {digit : Nat} (h : digit < 36) : intToChar digit = lowerDigit digit := by
  have hall : ∀ digit : Fin 36, intToChar digit.val = lowerDigit digit.val := by decide
  exact hall ⟨digit, h⟩

-- The loop overwrites the buffer from i with the digits.
theorem generateDigits_eq (hb : 1 < base) (hle : base ≤ 36) (fuel number : Nat)
    (front back : List Char) (hfuel : (lowDigits base number).length ≤ fuel)
    (hroom : (lowDigits base number).length ≤ back.length) :
    generateDigits base fuel (front ++ back) front.length number =
      some (front ++ (lowDigits base number ++ back.drop (lowDigits base number).length),
        front.length + (lowDigits base number).length) := by
  induction fuel generalizing number front back with
  | zero =>
      rw [lowDigits_eq hb, List.length_cons] at hfuel
      omega
  | succ fuel ih =>
      have hdigit : intToChar ((number : Int).tmod base) = lowerDigit (number % base) :=
        intToChar_eq ((Nat.mod_lt number (by omega)).trans_le hle)
      have hdiv : (number : Int).tdiv base = (number / base : Nat) := rfl
      rw [lowDigits_eq hb] at hfuel hroom ⊢
      cases back with
      | nil => cases hroom
      | cons c back =>
          simp only [generateDigits, set_append_cons, hdigit, hdiv]
          by_cases hrest : 0 < number / base
          · have hcast : ((number / base : Nat) : Int) > 0 := by omega
            rw [if_pos hrest, List.length_cons] at hfuel hroom
            have hrun := ih (number / base) (front ++ [lowerDigit (number % base)]) back
              (by omega) (Nat.le_of_succ_le_succ hroom)
            rw [List.length_append, List.length_singleton, List.append_assoc,
              List.singleton_append] at hrun
            rw [if_pos hrest, if_pos hcast, hrun]
            simp [Nat.add_assoc, Nat.add_comm 1]
          · have hcast : ¬((number / base : Nat) : Int) > 0 := by omega
            rw [if_neg hrest, if_neg hcast]
            rfl

end Digits

section Numerals

-- The call ends, with the numeral and its end in front of what is left of the
-- buffer, returns the length, and the numeral is read back as the integer.
def WritesNumeral (type : IntegerType) (n : Int) (s : List Char) (base : Nat) : Prop :=
  ∃ fuel, itoa type fuel n s base =
      some (numeral base n ++ nul :: s.drop ((numeral base n).length + 1),
        (numeral base n).length) ∧
    readNumeral base (numeral base n) = n

variable {type : IntegerType} {base : Nat}

theorem nul_notMem_alphabet : nul ∉ alphabet := by decide

theorem nul_notMem_lowDigits (hb : 1 < base) (hle : base ≤ 36) (number : Nat) :
    nul ∉ lowDigits base number := fun h =>
  absurd (mem_alphabet_of_mem_lowDigits hb hle h) nul_notMem_alphabet

theorem exists_drop_eq {s : List Char} {count : Nat} (h : count < s.length) :
    ∃ c, s.drop count = c :: s.drop (count + 1) :=
  ⟨s[count], List.drop_eq_getElem_cons h⟩

-- Without a sign the buffer has the digits and the end.
theorem itoa_of_nonneg (hb : 1 < base) (hle : base ≤ 36) (number : Nat) {s : List Char}
    (hroom : (lowDigits base number).length < s.length) :
    itoa type (lowDigits base number).length number s base =
      some ((lowDigits base number).reverse ++
        nul :: s.drop ((lowDigits base number).length + 1), (lowDigits base number).length) := by
  have hdigits := generateDigits_eq hb hle (lowDigits base number).length number [] s
    (Nat.le_refl _) (Nat.le_of_lt hroom)
  have hsign : ¬(number : Int) < 0 := by omega
  obtain ⟨c, hdrop⟩ := exists_drop_eq hroom
  simp only [List.nil_append, List.length_nil, Nat.zero_add] at hdigits
  simp only [itoa, hsign, if_false, hdigits, Option.map_some, hdrop, set_append_cons]
  rw [reverse_text (nul_notMem_lowDigits hb hle number)]

-- The sign is put behind the digits, and comes first when they are reversed.
theorem itoa_of_neg (hb : 1 < base) (hle : base ≤ 36) {n : Int} {number : Nat} (hneg : n < 0)
    (hnumber : type.wrap (-n) = number) {s : List Char}
    (hroom : (lowDigits base number).length + 1 < s.length) :
    itoa type (lowDigits base number).length n s base =
      some ('-' :: ((lowDigits base number).reverse ++
        nul :: s.drop ((lowDigits base number).length + 2)), (lowDigits base number).length + 1) := by
  have hdigits := generateDigits_eq hb hle (lowDigits base number).length number [] s
    (Nat.le_refl _) (by omega)
  obtain ⟨c, hdrop⟩ := exists_drop_eq (Nat.lt_of_succ_lt hroom)
  obtain ⟨other, hdrop'⟩ := exists_drop_eq hroom
  have hsigned : ∀ rest, lowDigits base number ++ '-' :: rest =
      (lowDigits base number ++ ['-']) ++ rest := by simp
  have hlength : (lowDigits base number ++ ['-']).length = (lowDigits base number).length + 1 := by
    simp
  have hnul : nul ∉ lowDigits base number ++ ['-'] := by
    rw [List.mem_append, not_or]
    exact ⟨nul_notMem_lowDigits hb hle number, by decide⟩
  simp only [List.nil_append, List.length_nil, Nat.zero_add] at hdigits
  simp only [itoa, hneg, if_true, hnumber, hdigits, Option.map_some, hdrop, set_append_cons, hdrop']
  rw [hsigned, ← hlength, set_append_cons, reverse_text hnul, List.reverse_append,
    List.append_assoc, hlength]
  rfl

theorem byte_le_int : 8 ≤ 32 := by decide

def int32 : IntegerType := ⟨true, 32, byte_le_int⟩

theorem fits_int32_iff (n : Int) : int32.Fits n ↔ -2 ^ 31 ≤ n ∧ n < 2 ^ 31 := by
  have hleast : int32.least = -2 ^ 31 := by decide
  have hgreatest : int32.greatest = 2 ^ 31 - 1 := by decide
  rw [IntegerType.Fits, hleast, hgreatest]
  omega

theorem numeral_of_nonneg (number : Nat) :
    numeral base number = (lowDigits base number).reverse := by
  rw [numeral, if_neg (by omega), List.nil_append, Int.natAbs_natCast]

theorem numeral_of_neg {n : Int} (hneg : n < 0) :
    numeral base n = '-' :: (lowDigits base n.natAbs).reverse := by
  rw [numeral, if_pos hneg, List.singleton_append]

-- A value that is stored as its own opposite has one digit, from a negative
-- remainder, and a sign.
theorem length_itoa_of_wrap {n : Int} (hneg : n < 0) (hwrap : type.wrap (-n) = n) {fuel : Nat}
    {s : List Char} {result : List Char × Nat} (h : itoa type fuel n s base = some result) :
    result.2 = 2 := by
  have hdiv : ¬n.tdiv base > 0 := by
    have hnonneg := Int.tdiv_nonneg (show 0 ≤ -n by omega) (Int.natCast_nonneg base)
    rw [Int.neg_tdiv] at hnonneg
    omega
  cases fuel with
  | zero => simp [itoa, generateDigits] at h
  | succ fuel =>
      simp only [itoa, hneg, if_true, hwrap, generateDigits, hdiv, if_false, Option.map_some,
        Option.some.injEq] at h
      rw [← h]

theorem two_le_length_lowDigits {number : Nat} (hb : 1 < base) (hnumber : base ≤ number) :
    2 ≤ (lowDigits base number).length := by
  have hrest : 0 < number / base := Nat.div_pos hnumber (by omega)
  rw [lowDigits_eq hb, if_pos hrest, List.length_cons, lowDigits_eq hb, List.length_cons]
  omega

theorem writesNumeral_iff {n : Int} {s : List Char} (hn : -2 ^ 31 ≤ n ∧ n < 2 ^ 31)
    (hb : 2 ≤ base) (hle : base ≤ 36) (hroom : (numeral base n).length < s.length) :
    WritesNumeral int32 n s base ↔ n ≠ -2 ^ 31 := by
  constructor
  · rintro ⟨fuel, h, -⟩ rfl
    have hlength := length_itoa_of_wrap (by decide) (by decide) h
    rw [numeral_of_neg (by decide), List.length_cons, List.length_reverse] at hlength
    have htwo := @two_le_length_lowDigits base (-2 ^ 31 : Int).natAbs hb (hle.trans (by decide))
    omega
  · intro hne
    refine ⟨(lowDigits base n.natAbs).length, ?_, readNumeral_numeral hb hle n⟩
    by_cases hneg : n < 0
    · have hwrap : int32.wrap (-n) = n.natAbs := by
        rw [IntegerType.wrap_of_fits ((fits_int32_iff _).mpr (by omega))]
        omega
      rw [numeral_of_neg hneg, List.length_cons, List.length_reverse] at hroom ⊢
      exact itoa_of_neg hb hle hneg hwrap hroom
    · obtain ⟨number, rfl⟩ := Int.eq_ofNat_of_zero_le (Int.not_lt.mp hneg)
      rw [numeral_of_nonneg, List.length_reverse] at hroom ⊢
      exact itoa_of_nonneg hb hle number hroom

theorem writesNumeral_iff_hundred :
    WritesNumeral int32 (-100) (List.replicate 8 'x') 10 ↔ (-100 : Int) ≠ -2 ^ 31 :=
  writesNumeral_iff (by decide) (by decide) (by decide) (by decide)

-- The text of the least value is a sign and a bracket.
theorem least_not_writesNumeral :
    ¬WritesNumeral int32 (-2 ^ 31) (List.replicate 16 'x') 10 := by
  rintro ⟨fuel, h, -⟩
  have hlength := length_itoa_of_wrap (by decide) (by decide) h
  exact absurd hlength (by decide)

end Numerals

end Msos.StringUtils
