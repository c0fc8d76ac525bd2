import Msos.Library.CString
import Msos.Library.Search

namespace Msos.Shell

open Msos.Library CString Search

def nul : Char := Char.ofNat 0

-- substr from behind the end of a view throws.
inductive ViewFault
  | outOfRange
deriving DecidableEq, Repr

-- A std::string_view of a buffer; of an empty one the start does not matter.
structure View where
  start : Nat
  length : Nat
deriving DecidableEq, Repr

def View.text (buffer : List Char) (view : View) : List Char :=
  (buffer.drop view.start).take view.length

-- The place behind the last character
def View.stop (view : View) : Nat := view.start + view.length

-- `buffer` is the memory from input_ on.
structure Splitter where
  buffer : List Char
  tmp : View
  delimiter : Char
  insertNullCharacter : Bool
deriving DecidableEq, Repr

namespace Splitter

-- tmp_ is constructed from the char*, up to its end.
def new (input : List Char) (delimiter : Char) (insertNullCharacter : Bool) : Splitter :=
  ⟨input, ⟨0, (string nul input).length⟩, delimiter, insertNullCharacter⟩

def empty (splitter : Splitter) : Bool := splitter.tmp.length = 0

def clear (splitter : Splitter) : Splitter := { splitter with tmp := ⟨0, 0⟩ }

-- The part that is returned; none is the view of "".
def getNextPart (splitter : Splitter) : Except ViewFault (Option View × Splitter) :=
  let delimiter := splitter.delimiter
  if splitter.tmp.length = 0 then .ok (none, splitter)
  else
    match findFirstNotOf delimiter (splitter.tmp.text splitter.buffer) with
    | none => .error .outOfRange
    | some first =>
        let tmp : View := ⟨splitter.tmp.start + first, splitter.tmp.length - first⟩
        let suffix : Option Nat := findLastNotOf delimiter (tmp.text splitter.buffer)
        let tmp : View := { tmp with length := suffix.elim 0 (· + 1) }
        match (tmp.text splitter.buffer).findIdx? (· = delimiter) with
        | none =>
            if tmp.length ≠ 0 then .ok (some tmp, { splitter with tmp := ⟨0, 0⟩ })
            else .ok (none, { splitter with tmp := tmp })
        | some spacePosition =>
            let part : View := ⟨tmp.start, spacePosition⟩
            .ok (some part, { splitter with
              tmp := ⟨tmp.start + (spacePosition + 1), tmp.length - (spacePosition + 1)⟩
              buffer := if splitter.insertNullCharacter then splitter.buffer.set part.stop nul
                else splitter.buffer })

end Splitter

end Msos.Shell
