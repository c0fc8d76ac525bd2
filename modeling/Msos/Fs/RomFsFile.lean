import Msos.Fs.RamFs
import Msos.Library.Cursor

namespace Msos.Fs

open Msos.Library

-- ssize_t is 32 bits wide; a buffer is a span, so its length fits.
abbrev ReadResult (File : Type) := Except Cursor.Fault (List UInt8 × Int × File)

-- RamfsFile::read with the buffer that it fills.
def RamfsFile.readInto (fs : RamFs) (file : RamfsFile) (buffer : List UInt8) :
    ReadResult RamfsFile :=
  let data := fs.contents file.data
  (Cursor.readAt data.length data file.position buffer).map fun (buffer, len, position) =>
    (buffer, len, { file with position := position })

-- What romfs::FileHeader says of a file; the size is the one of the data.
structure FileHeader where
  getSize : Nat
  data : List UInt8
  getSize_eq : data.length = getSize

structure RomFsFile where
  file : FileHeader
  position : Nat

namespace RomFsFile

def new (fh : FileHeader) : RomFsFile := ⟨fh, 0⟩

def read (file : RomFsFile) (buffer : List UInt8) : ReadResult RomFsFile :=
  (Cursor.readAt file.file.getSize file.file.data file.position buffer).map
    fun (buffer, len, position) => (buffer, len, { file with position := position })

def write (file : RomFsFile) (_bytes : List UInt8) : RomFsFile × Int := (file, -1)

-- One call on an open file, and the bytes that have been delivered so far.
inductive Call
  | read (buffer : List UInt8)
  | write (bytes : List UInt8)

def step : RomFsFile × List UInt8 → Call → Option (RomFsFile × List UInt8)
  | (file, delivered), .read buffer =>
      match file.read buffer with
      | .ok (filled, len, file) => some (file, delivered ++ filled.take len.toNat)
      | .error _ => none
  | (file, delivered), .write bytes => some ((file.write bytes).1, delivered)

end RomFsFile

end Msos.Fs
