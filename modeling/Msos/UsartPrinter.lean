import Mathlib.Data.Int.DivMod
import Msos.Library.IntegerType

namespace Msos

open Msos.Library

-- logging_flags::base
inductive Base
  | dec
  | hex
  | oct
  | bin
deriving DecidableEq, Repr

def Base.getBase : Base → Nat
  | .dec => 10
  | .hex => 16
  | .oct => 8
  | .bin => 2

-- An access in front of the text of the digits, or behind its end.
inductive DigitFault
  | outOfBounds
deriving DecidableEq, Repr

namespace UsartWriter

section Numbers

variable (base : Base)

theorem natAbs_tdiv_lt {data : Int} (h : data ≠ 0) :
    (data.tdiv base.getBase).natAbs < data.natAbs := by
  rw [Int.natAbs_tdiv]
  refine Nat.div_lt_self (Int.natAbs_pos.mpr h) ?_
  cases base <;> decide

def digitAt (index : Int) : Except DigitFault Char :=
  match index with
  | .ofNat i =>
      match "0123456789abcdef".toList[i]? with
      | some digit => .ok digit
      | none => .error .outOfBounds
  | .negSucc _ => .error .outOfBounds

-- The first loop of write_number_as_text
def writeDigits (number : Int) : Except DigitFault (List Char) :=
  if _h : number = 0 then .ok []
  else do
    let digit ← digitAt (number.tmod base.getBase)
    let digits ← writeDigits (number.tdiv base.getBase)
    return digit :: digits
termination_by number.natAbs
decreasing_by exact natAbs_tdiv_lt base _h

def writeNumberAsText (number : Int) (zerosAtEnd : Nat) : Except DigitFault (List Char) := do
  return (← writeDigits base number) ++ List.replicate zerosAtEnd '0'

variable (type : IntegerType)

-- The loop of reverse_number: the reversed number, stored in its type in every
-- round, and the number of zeros.
def reverseLoop (data number : Int) (zerosAtEnd : Nat) (isZeroAtEnd : Bool) : Int × Nat :=
  if _h : data = 0 then (number, zerosAtEnd)
  else
    let temp := data.tmod base.getBase
    let isZero := isZeroAtEnd && temp = 0
    reverseLoop (data.tdiv base.getBase) (type.wrap (number * base.getBase + temp))
      (if isZero then zerosAtEnd + 1 else zerosAtEnd) isZero
termination_by data.natAbs
decreasing_by exact natAbs_tdiv_lt base _h

def reverseNumber (number : Int) : Int × Nat :=
  if number = 0 then (number, 1) else reverseLoop base type number 0 0 true

def writeUnsigned (data : Int) : Except DigitFault (List Char) :=
  let (number, zerosAtEnd) := reverseNumber base type data
  writeNumberAsText base number zerosAtEnd

-- The two templates of write for a value of an integer type; the characters are
-- the ones that are sent to the usart.
def write (data : Int) : Except DigitFault (List Char) :=
  if type.signed ∧ data < 0 then do
    return '-' :: (← writeUnsigned base type (type.wrap (data * -1)))
  else writeUnsigned base type data

-- No round of the loop of reverse_number leaves the type.
def ReversesExactly (data number : Int) : Prop :=
  if _h : data = 0 then True
  else
    let temp := data.tmod base.getBase
    type.Fits (number * base.getBase) ∧ type.Fits (number * base.getBase + temp) ∧
      ReversesExactly (data.tdiv base.getBase) (number * base.getBase + temp)
termination_by data.natAbs
decreasing_by exact natAbs_tdiv_lt base _h

-- The standard numeral, with a minus exactly for what is negative.
def numeral (data : Int) : List Char :=
  if data < 0 then '-' :: Nat.toDigits base.getBase data.natAbs
  else Nat.toDigits base.getBase data.natAbs

-- The characters are the numeral, and no intermediate value leaves the type.
structure PrintsCorrectly (data : Int) : Prop where
  text : write base type data = .ok (numeral base data)
  negates : data < 0 → type.Fits (data * -1)
  reverses : ReversesExactly base type data.natAbs 0

end Numbers

end UsartWriter

end Msos
