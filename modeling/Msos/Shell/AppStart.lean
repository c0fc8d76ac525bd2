import Msos.Library.Traced
import Msos.Posix.DirectoryStreams
import Msos.Shell.CommandParser

namespace Msos.Shell

open Msos.Library CString Search Traced
open Msos.Fs (Path)

def bufferSize : Nat := 100

def argvSize : Nat := 10

-- isspace of the C locale
def isspace (c : Char) : Bool := c = ' ' || (9 ≤ c.toNat && c.toNat ≤ 13)

def isAbsolutePath (path : List Char) : Bool := path.head? = some '/'

inductive Fault
  | argvOverflow
  | nullDereference
  | view (fault : ViewFault)
  | name (fault : Posix.NameFault)
deriving DecidableEq, Repr

-- Why a request does not come to its end; a run out of fuel is still going on.
inductive Stop
  | fault (fault : Fault)
  | running
deriving DecidableEq, Repr

-- What app_start asks of the system; the strings are as they are at the call.
inductive Event
  | exec (path : Path) (argc : Nat) (argv : List (List Char))
  | opendir (dirname : List Char)
  | commandNotFound (command : List Char)
deriving DecidableEq, Repr

-- The loop goes on with the next request, or app_start returns.
inductive Outcome
  | continues
  | returns
deriving DecidableEq, Repr

-- What the calls for one request come to: `append` is += of
-- eul::filesystem::path, no path is an unset variable, and no stream a null DIR.
-- `isMissing` says that exec returns -1 with ENOENT for a file.
structure Environment where
  cwd : Path
  append : Path → List Char → Path
  fopen : Path → Bool
  path : Option (List Char)
  opendir : List Char → Option Posix.Stream
  isMissing : Path → Bool

-- An entry of argv is the data() of a view of the buffer, or other text.
inductive Argument
  | data (start : Nat)
  | literal (text : List Char)
deriving DecidableEq, Repr

def Argument.string (buffer : List Char) : Argument → List Char
  | .data start => CString.string nul (buffer.drop start)
  | .literal text => text

-- The data() of a part; that of the empty one is "".
def Argument.ofPart : Option View → Argument
  | some view => .data view.start
  | none => .literal []

-- The text of a part
def partText (buffer : List Char) : Option View → List Char
  | some view => view.text buffer
  | none => []

def CommandParser.getCommand (parser : CommandParser) : List Char :=
  partText parser.splitter.buffer parser.command

abbrev Action := Traced Stop Event

def ofView {α : Type} (result : Except ViewFault α) : Action α :=
  ofExcept (result.mapError fun fault => .fault (.view fault))

-- The loop that fills argv, by the entries that are left in it; argc counts
-- the arguments and one more.
def collectArguments : Nat → CommandParser → Action (List Argument × CommandParser)
  | 0, parser =>
      if parser.splitter.empty then return ([], parser) else stop (.fault .argvOverflow)
  | free + 1, parser =>
      if parser.splitter.empty then return ([], parser)
      else do
        let (part, parser) ← ofView parser.getNextArgument
        let (arguments, parser) ← collectArguments free parser
        return (.ofPart part :: arguments, parser)

namespace Environment

variable (environment : Environment) (command : List Char) (arguments : List (List Char))

-- The loop over readdir: whether the command has been found, and whether the
-- splitter is to be cleared.
def readEntries (nextDir : List Char) : Nat → Posix.Stream → Bool × Bool → Action (Bool × Bool)
  | 0, _, _ => stop .running
  | fuel + 1, stream, found =>
      match stream.readdir with
      | .error fault => stop (.fault (.name fault))
      | .ok (none, _) => return found
      | .ok (some name, stream) =>
          if name = command then do
            let pathToBinary := environment.append nextDir command
            emit (.exec pathToBinary (arguments.length + 1) (pathToBinary :: arguments))
            readEntries nextDir fuel stream (!environment.isMissing pathToBinary, true)
          else readEntries nextDir fuel stream found

-- The loop over the directories of the path variable
def searchPath (fuel : Nat) : Nat → Splitter → Bool → Action Bool
  | 0, _, _ => stop .running
  | count + 1, splitter, commandFound =>
      if splitter.empty then return commandFound
      else do
        let (nextDir, splitter) ← ofView splitter.getNextPart
        let dirname := (Argument.ofPart nextDir).string splitter.buffer
        emit (.opendir dirname)
        match environment.opendir dirname with
        | none => stop (.fault .nullDereference)
        | some stream =>
            let (commandFound, isCleared) ← environment.readEntries command arguments
              (partText splitter.buffer nextDir) fuel stream (commandFound, false)
            searchPath fuel count (if isCleared then splitter.clear else splitter) commandFound

-- The part for a command by name: the file in the current directory, else one
-- of the directories.
def runCommand (fuel : Nat) (parser : CommandParser) : Action Outcome := do
  let pathToCwd := environment.append environment.cwd parser.getCommand
  let (arguments, parser) ← collectArguments (argvSize - 1) parser
  let strings := arguments.map (Argument.string parser.splitter.buffer)
  if environment.fopen pathToCwd then
    emit (.exec pathToCwd (arguments.length + 1) (pathToCwd :: strings))
    return .continues
  else
    match environment.path with
    | none => stop (.fault .nullDereference)
    | some path =>
        let commandFound ← environment.searchPath parser.getCommand strings fuel fuel
          (Splitter.new (path ++ [nul]) ';' false) false
        if commandFound then return .continues
        else
          emit (.commandNotFound ((Argument.ofPart parser.command).string parser.splitter.buffer))
          return .continues

-- The body of the loop for the request that is in the buffer
def appStart (fuel : Nat) (buffer : List Char) : Action Outcome :=
  let request := string nul buffer
  if request.all isspace then return .continues
  else if (find "exit".toList request).isSome then return .returns
  else
    match findFirstNotOf ' ' request with
    | none => stop (.fault (.view .outOfRange))
    | some first =>
        if isAbsolutePath (request.drop first) then do
          let path := string nul (buffer.drop first)
          emit (.exec path 1 [path])
          return .continues
        else do
          let parser ← ofView (CommandParser.new buffer)
          environment.runCommand fuel parser

end Environment

-- A line in the buffer, which has been filled with zeros
def lineBuffer (line : List Char) : List Char :=
  line ++ List.replicate (bufferSize - line.length) nul

end Msos.Shell
