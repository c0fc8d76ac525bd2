import Msos.Fs.RomFsFile

namespace Msos.Fgets

open Msos.Library Msos.Fs

def newline : UInt8 := 10

def backspace : UInt8 := 8

-- What a read of one byte does: it stores a byte, returns 0, or returns an
-- error and leaves the byte as it was.
inductive Reading
  | byte (c : UInt8)
  | nothing
  | failed
deriving DecidableEq, Repr

-- A write in front of the buffer, or behind its end.
inductive BufferFault
  | outOfBounds
deriving DecidableEq, Repr

-- The variables of _fgets with the buffer; `isLeft` is set by the break.
structure State where
  buffer : List UInt8
  readed : Int
  n : Int
  c : UInt8
  isLeft : Bool
deriving DecidableEq, Repr

def put (buffer : List UInt8) (index : Int) (value : UInt8) : Except BufferFault (List UInt8) :=
  if 0 ≤ index ∧ index < buffer.length then .ok (buffer.set index.toNat value)
  else .error .outOfBounds

namespace State

def start (buffer : List UInt8) (n : Int) : State := ⟨buffer, -1, n, 0, false⟩

-- The loop is over.
def Ended (state : State) : Prop := state.c = newline ∨ state.isLeft = true

instance (state : State) : Decidable state.Ended := inferInstanceAs (Decidable (_ ∨ _))

-- The rest of a round, for what has been read.
def take (state : State) (c : UInt8) : Except BufferFault State :=
  if c = backspace then
    if 0 ≤ state.readed then
      .ok { state with readed := state.readed - 1, n := state.n + 1, c := c }
    else .ok { state with c := c }
  else
    (put state.buffer (state.readed + 1) c).map fun buffer =>
      ⟨buffer, state.readed + 1, state.n - 1, c, state.n - 1 = 1⟩

def round (state : State) : Reading → Except BufferFault State
  | .byte c => state.take c
  | .nothing => .ok state
  | .failed => state.take state.c

-- The loop on the readings that come: the state at its end or when there are no
-- more of them, and the readings that are left.
def loop (state : State) : List Reading → Except BufferFault (State × List Reading)
  | [] => .ok (state, [])
  | reading :: rest =>
      if state.Ended then .ok (state, reading :: rest)
      else do
        let state ← state.round reading
        state.loop rest

end State

-- The buffer and the readings that are left, once the call returns.
def fgets (buffer : List UInt8) (n : Int) (readings : List Reading) :
    Except BufferFault (Option (List UInt8 × List Reading)) := do
  let (state, rest) ← (State.start buffer n).loop readings
  if state.Ended then
    let buffer ← put state.buffer state.readed 0
    return some (buffer, rest)
  else return none

-- The reading of read(fd, &c, 1) with what the read of the file returns.
def Reading.ofRead (buffer : List UInt8) (len : Int) : Reading :=
  if len = 0 then .nothing
  else if len < 0 then .failed
  else match buffer with
    | c :: _ => .byte c
    | [] => .failed

-- What a number of reads of one byte from a file do, one after the other.
def readings {File : Type} (read : File → List UInt8 → ReadResult File) :
    Nat → File → Except Cursor.Fault (List Reading)
  | 0, _ => .ok []
  | count + 1, file => do
      let (buffer, len, file) ← read file [0]
      let rest ← readings read count file
      return Reading.ofRead buffer len :: rest

end Msos.Fgets
