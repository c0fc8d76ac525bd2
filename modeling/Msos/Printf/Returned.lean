import Msos.Library.Fallible
import Msos.Printf
import Msos.UsartPrinter.Theorems

namespace Msos.UsartWriter

open Msos.Library

section Length

variable (base : Base) (type : IntegerType)

-- The rounds of the first loop of write_number_as_text: each one sends a
-- character, also where it is read from outside the text of the digits.
def rounds (number : Int) : Nat :=
  if _h : number = 0 then 0 else rounds (number.tdiv base.getBase) + 1
termination_by number.natAbs
decreasing_by exact natAbs_tdiv_lt base _h

def unsignedLength (data : Int) : Nat :=
  rounds base (reverseNumber base type data).1 + (reverseNumber base type data).2

-- How many characters write sends for a value.
def writeLength (data : Int) : Nat :=
  if type.signed ∧ data < 0 then unsignedLength base type (type.wrap (data * -1)) + 1
  else unsignedLength base type data

variable {base} {type}

theorem length_writeDigits {number : Int} {digits : List Char}
    (h : writeDigits base number = .ok digits) : digits.length = rounds base number := by
  induction hn : number.natAbs using Nat.strong_induction_on generalizing number digits with
  | _ n ih =>
      rw [rounds]
      by_cases hzero : number = 0
      · subst hzero
        rw [writeDigits, dif_pos rfl] at h
        rw [dif_pos rfl, ← Except.ok.inj h, List.length_nil]
      · rw [writeDigits, dif_neg hzero] at h
        obtain ⟨digit, -, h⟩ := Fallible.bind_eq_ok.mp h
        obtain ⟨rest, hrest, h⟩ := Fallible.bind_eq_ok.mp h
        have hlength := ih _ (hn ▸ natAbs_tdiv_lt base hzero) hrest rfl
        rw [dif_neg hzero, ← Except.ok.inj h, List.length_cons, hlength]

theorem length_writeUnsigned {data : Int} {text : List Char}
    (h : writeUnsigned base type data = .ok text) : text.length = unsignedLength base type data := by
  obtain ⟨digits, hdigits, h⟩ := Fallible.bind_eq_ok.mp h
  rw [← Except.ok.inj h, List.length_append, List.length_replicate, length_writeDigits hdigits]
  rfl

theorem length_write {data : Int} {text : List Char} (h : write base type data = .ok text) :
    text.length = writeLength base type data := by
  unfold write at h
  rw [writeLength]
  split at h
  · rename_i hneg
    obtain ⟨digits, hdigits, h⟩ := Fallible.bind_eq_ok.mp h
    rw [if_pos hneg, ← Except.ok.inj h, List.length_cons, length_writeUnsigned hdigits]
  · rename_i hpos
    rw [if_neg hpos, length_writeUnsigned h]

end Length

end Msos.UsartWriter

namespace Msos.Printf

open Msos.UsartWriter

section Returned

-- The characters that the writer sends for what is passed to it; a null
-- character ends the text that write makes of it.
def Sent.count (base : Base) : Sent → Nat
  | .text contents | .string contents => contents.length
  | .char value => if value = 0 then 0 else 1
  | .int value => writeLength base int32 value.toInt

variable (base : Base)

def charactersSent (sent : List Sent) : Nat := (sent.map (Sent.count base)).sum

-- The characters of the arguments alone
def argumentCount : List Piece → Nat
  | [] => 0
  | .literal _ :: rest => argumentCount rest
  | .directive conversion :: rest => conversion.sent.count base + argumentCount rest

-- What is returned for a format of pieces is the number of characters sent.
def ReturnsCount (pieces : List Piece) (others : List Argument) : Prop :=
  ∃ sent returned, vfprintf (pieces.flatMap Piece.format)
      (pieces.flatMap Piece.arguments ++ others) = .ok (sent, returned) ∧
    returned = charactersSent base sent

variable {base}

theorem count_parts (sent : Sent) : charactersSent base sent.parts = sent.count base := by
  cases sent with
  | text text =>
      simp only [charactersSent, Sent.parts, List.map_map]
      induction text with
      | nil => rfl
      | cons head rest ih =>
          rw [List.map_cons, List.sum_cons, ih]
          exact Nat.add_comm _ _
  | char value | string text | int value => exact Nat.add_zero _

theorem charactersSent_parts (sent : List Sent) :
    charactersSent base (sent.flatMap Sent.parts) = charactersSent base sent := by
  induction sent with
  | nil => rfl
  | cons head rest ih =>
      have hhead := @count_parts base head
      simp only [charactersSent] at hhead ih ⊢
      rw [List.flatMap_cons, List.map_append, List.sum_append, hhead, ih, List.map_cons,
        List.sum_cons]

theorem charactersSent_rendering (pieces : List Piece) :
    charactersSent base (pieces.flatMap Piece.rendering) =
      literalCount pieces + argumentCount base pieces := by
  induction pieces with
  | nil => rfl
  | cons piece rest ih =>
      simp only [charactersSent] at ih ⊢
      rw [List.flatMap_cons, List.map_append, List.sum_append, ih]
      cases piece with
      | literal character =>
          have hone : ((Piece.literal character).rendering.map (Sent.count base)).sum = 1 := rfl
          rw [hone, literalCount, argumentCount]
          omega
      | directive conversion =>
          have hargument : ((Piece.directive conversion).rendering.map (Sent.count base)).sum =
              conversion.sent.count base := Nat.add_zero _
          rw [hargument, literalCount, argumentCount]
          omega

-- An int that counts the text and what is counted again is the number of
-- characters only if the arguments are as long as what is counted again.
theorem toInt_eq_iff {text arguments again : Nat} (hle : again ≤ text + 2) :
    (BitVec.ofNat 32 (text + again)).toInt = (text + arguments : Nat) ↔
      text + arguments < 2 ^ 31 ∧ arguments = again := by
  rw [BitVec.toInt_eq_toNat_cond, BitVec.toNat_ofNat]
  constructor
  · intro h
    split at h
    · omega
    · have hlt := Nat.mod_lt (text + again) (show 0 < 2 ^ 32 by decide)
      omega
  · rintro ⟨hlt, rfl⟩
    rw [Nat.mod_eq_of_lt (by omega), if_pos (by omega)]

theorem returnsCount_iff (pieces : List Piece) (others : List Argument) :
    ReturnsCount base pieces others ↔
      literalCount pieces + argumentCount base pieces < 2 ^ 31 ∧
        argumentCount base pieces = countedAgain 0 pieces := by
  obtain ⟨sent, hloop, hsent⟩ := vfprintfLoop_pieces pieces others 0
  have hcount : charactersSent base sent = literalCount pieces + argumentCount base pieces := by
    rw [← charactersSent_parts, hsent, charactersSent_rendering]
  have hprinted : vfprintf (pieces.flatMap Piece.format)
      (pieces.flatMap Piece.arguments ++ others) =
        .ok (sent, (BitVec.ofNat 32 (literalCount pieces + countedAgain 0 pieces)).toInt) := by
    rw [vfprintf, hloop, Nat.zero_add]
    rfl
  have hle := countedAgain_le 0 pieces
  rw [Nat.zero_add] at hle
  rw [← toInt_eq_iff hle, ← hcount, ReturnsCount, hprinted]
  constructor
  · rintro ⟨other, returned, heq, hreturned⟩
    obtain ⟨rfl, rfl⟩ := Prod.mk.inj (Except.ok.inj heq)
    exact hreturned
  · intro h
    exact ⟨sent, _, rfl, h⟩

-- _printf("%d:", 100) sends four characters and returns one.
theorem printf_hundred_returns_one :
    vfprintf "%d:".toList [.int 100] = .ok ([.int 100, .text ":".toList], 1) ∧
      charactersSent .dec [.int 100, .text ":".toList] = 4 ∧
        ¬ReturnsCount .dec [.directive (.int 100), .literal ⟨':', by decide⟩] [] := by
  have hprinted : vfprintf "%d:".toList [.int 100] = .ok ([.int 100, .text ":".toList], 1) := by
    decide +kernel
  have hcount : charactersSent .dec [.int 100, .text ":".toList] = 4 := by decide +kernel
  refine ⟨hprinted, hcount, ?_⟩
  rintro ⟨sent, returned, heq, hreturned⟩
  obtain ⟨rfl, rfl⟩ := Prod.mk.inj (Except.ok.inj (hprinted.symm.trans heq))
  rw [hcount] at hreturned
  exact absurd hreturned (by decide)

end Returned

end Msos.Printf
