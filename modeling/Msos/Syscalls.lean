import Msos.Drivers.UsartDriver
import Msos.Fs.RomFsFile
import Msos.Posix.Open

namespace Msos.Syscalls

open Msos.Drivers Msos.Fs Msos.Kernel Msos.Posix Msos.Library

abbrev OpenFile := VolumeFile RomFsFile

-- The driver of a usart, and the bytes that were sent over it.
structure Usart where
  driver : UsartDriver
  sent : List UInt8

structure System where
  processes : Nat → Option (Process OpenFile)
  instances : Instances
  usarts : Nat → Usart
  pidCounter : Nat

-- What the system runs on: the path functions, what is mounted, the stat of a
-- file in flash, the usart of the driver tty1 if there is one, the shifter of
-- the processor, and push of eul::container::ring_buffer.
structure Platform where
  library : PathLibrary
  volumes : List (MountPoint (Volume RomFsFile))
  romStat : RomFsFile → BitVec 16
  tty : Option Nat
  shifter : Shifter
  push : List UInt8 → UInt8 → List UInt8

inductive Fault
  | descriptor (fault : AccessFault)
  | buffer (fault : Cursor.Fault)
deriving DecidableEq, Repr

section Files

variable (system : System)

def setUsart (usart : Nat) (state : Usart) : System :=
  { system with usarts := Function.update system.usarts usart state }

-- IFile::read of each class: the buffer behind the call, what is returned, the file
-- with its position, and the usarts.
def readFile (buffer : List UInt8) :
    OpenFile → Except Cursor.Fault (List UInt8 × Int × OpenFile × (Nat → Usart))
  | .mounted id (.ramfsFile file) =>
      (file.readInto (system.instances id).ramfs buffer).map fun (buffer, length, file) =>
        (buffer, length, .mounted id (.ramfsFile file), system.usarts)
  | .mounted id (.usartFile usart path) =>
      let state := system.usarts usart
      let received := state.driver.buffer
      let length := if buffer.length < received.length then buffer.length else received.length
      let driver := { state.driver with buffer := received.drop length }
      .ok (received.take length ++ buffer.drop length, length, .mounted id (.usartFile usart path),
        (setUsart system usart { state with driver := driver }).usarts)
  | .mounted id .deviceFsRootFile => .ok (buffer, 0, .mounted id .deviceFsRootFile, system.usarts)
  | .mounted id (.appFile entry) => .ok (buffer, 0, .mounted id (.appFile entry), system.usarts)
  | .romFsFile file =>
      (file.read buffer).map fun (buffer, length, file) =>
        (buffer, length, .romFsFile file, system.usarts)

-- IFile::write of each class
def writeFile (bytes : List UInt8) : OpenFile → System × Int
  | .mounted id (.ramfsFile file) =>
      ({ system with
          instances := Function.update system.instances id
            ((system.instances id).writeRamFs file bytes) },
        (file.write (system.instances id).ramfs bytes).2)
  | .mounted _ (.usartFile usart _) =>
      let state := system.usarts usart
      (setUsart system usart { state with sent := state.sent ++ bytes }, bytes.length)
  | .mounted _ .deviceFsRootFile => (system, 0)
  | .mounted _ (.appFile _) => (system, 0)
  | .romFsFile file => (system, (file.write bytes).2)

-- The number of a request, and the flag of c_lflag for the echo
def iocNumber (cmd : BitVec 32) : BitVec 32 := cmd &&& ((1 <<< 8) - 1)

def ioc (direction type number size : BitVec 32) : BitVec 32 :=
  direction <<< 30 ||| type <<< 8 ||| number ||| size <<< 16

def sizeofTermios : BitVec 32 := 36

def tiocseta : BitVec 32 := ioc 1 0x74 20 sizeofTermios

def tiocsetaw : BitVec 32 := ioc 1 0x74 21 sizeofTermios

def tiocsetaf : BitVec 32 := ioc 1 0x74 22 sizeofTermios

def echoFlag : BitVec 32 := 0x02

-- IFile::ioctl of each class; `lflag` is the c_lflag of the termios that the argument
-- points to. What the requests 19 and 104 store in their argument is left out.
def ioctlFile (cmd lflag : BitVec 32) : OpenFile → System × Int
  | .mounted _ (.usartFile usart _) =>
      let state := system.usarts usart
      if iocNumber cmd = 20 then
        let driver := { state.driver with echo := decide (lflag &&& echoFlag ≠ 0) }
        (setUsart system usart { state with driver := driver }, 0)
      else (system, 0)
  | _ => (system, -1)

end Files

inductive Call
  | open_ (filename : Path) (flags : BitVec 32)
  | read (fd : Int) (buffer : List UInt8)
  | write (fd : Int) (bytes : List UInt8)
  | close (fd : Int)
  | ioctl (fd : Int) (cmd lflag : BitVec 32)
  | tcsetattr (fd optionalActions : Int) (lflag : BitVec 32)
  | exit
  | createProcess
  -- The interrupt of a usart that has received a byte
  | receive (usart : Nat) (byte : UInt8)

inductive Reply
  | code (value : Int)
  | data (buffer : List UInt8) (length : Int)

-- The file that a descriptor points to has moved on.
def setFile (process : Process OpenFile) (fd : Int) (file : OpenFile) : Process OpenFile :=
  { process with fd := fun i => if slot? fd = some i then some file else process.fd i }

section Calls

variable (platform : Platform) (system : System)

def setProcess (pid : Nat) (process : Option (Process OpenFile)) : System :=
  { system with processes := Function.update system.processes pid process }

-- The three files of a new process, if there is a driver for tty1
def ttyFiles (usart : Nat) : Fin 3 → Option OpenFile :=
  fun _ => some (.mounted 0 (.usartFile usart "tty1".toList))

-- The handler of on_data, with the push of the ring buffer.
def onReceived (usart : Nat) (byte : UInt8) : System :=
  let state := system.usarts usart
  let (driver, texts) := state.driver.onData byte
  let pushed := driver.buffer.drop state.driver.buffer.length
  setUsart system usart
    { driver := { driver with buffer := pushed.foldl platform.push state.driver.buffer }
      sent := state.sent ++ texts.flatten }

def ioctl (pid : Nat) (fd : Int) (cmd lflag : BitVec 32) : Except Fault (System × Reply) :=
  match system.processes pid with
  | none => .ok (system, .code (-1))
  | some process => do
      match ← (process.getFile platform.shifter fd).mapError .descriptor with
      | none => return (system, .code (-1))
      | some file =>
          let (system, result) := ioctlFile system cmd lflag file
          return (system, .code result)

-- One call with the process `pid` as the current one; the scheduler exists. A _write
-- that printf makes for what the kernel prints is a call of its own.
def step (pid : Nat) : Call → Except Fault (System × Reply)
  | .open_ filename flags =>
      let ((current, code), instances) :=
        openVolumes platform.library platform.volumes platform.romStat .quiet
          (system.processes pid) filename flags system.instances
      .ok (setProcess { system with instances := instances } pid current, .code code)
  | .read fd buffer =>
      match system.processes pid with
      | none => .ok (system, .data buffer 0)
      | some process => do
          match ← (process.getFile platform.shifter fd).mapError .descriptor with
          | none => return (system, .data buffer 0)
          | some file =>
              let (buffer, length, file, usarts) ←
                (readFile system buffer file).mapError .buffer
              return (setProcess { system with usarts := usarts } pid
                (some (setFile process fd file)), .data buffer length)
  | .write fd bytes =>
      match system.processes pid with
      | none => .ok (system, .code 0)
      | some process => do
          match ← (process.getFile platform.shifter fd).mapError .descriptor with
          | none => return (system, .code 0)
          | some file =>
              let (system, length) := writeFile system bytes file
              return (system, .code length)
  | .close fd =>
      match system.processes pid with
      | none => .ok (system, .code (-2))
      | some process => do
          let (process, code) ← (process.removeFile platform.shifter fd).mapError .descriptor
          return (setProcess system pid (some process), .code code)
  | .ioctl fd cmd lflag => ioctl platform system pid fd cmd lflag
  | .tcsetattr fd optionalActions lflag =>
      if optionalActions = 0 then ioctl platform system pid fd tiocseta lflag
      else if optionalActions = 1 then ioctl platform system pid fd tiocsetaw lflag
      else if optionalActions = 2 then ioctl platform system pid fd tiocsetaf lflag
      else .ok (system, .code (-1))
  | .exit => .ok (setProcess system pid none, .code 0)
  | .createProcess =>
      .ok ({ setProcess system system.pidCounter (some (Process.new (platform.tty.map ttyFiles)))
          with pidCounter := system.pidCounter + 1 }, .code system.pidCounter)
  | .receive usart byte => .ok (onReceived platform system usart byte, .code 0)

-- The calls of all processes, in the order in which the kernel serves them.
def run : System → List (Nat × Call) → Except Fault (System × List Reply)
  | system, [] => .ok (system, [])
  | system, (pid, call) :: rest => do
      let (system, reply) ← step platform system pid call
      let (system, replies) ← run system rest
      return (system, reply :: replies)

end Calls

end Msos.Syscalls
