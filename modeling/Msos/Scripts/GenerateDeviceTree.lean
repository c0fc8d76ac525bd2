import Mathlib.Data.List.Basic
import Msos.Library.Nested

namespace Msos.Scripts.GenerateDeviceTree

open Msos.Library Msos.Library.Nested

abbrev Text := List Char

-- What json.loads makes of a value that is no array and no object
inductive Scalar
  | string (text : Text)
  | int (value : Int)
  | float (numeral : Text)
  | bool (value : Bool)
  | none

abbrev Value := Nested Text Scalar

abbrev Entries := List (Text × Value)

inductive PythonError
  | typeError
  | indexError
  | keyError
  | attributeError
deriving DecidableEq, Repr

section Processing

def driverName : Text := "driver_name".toList

def hasKey (key : Text) (entries : Entries) : Bool := (entries.lookup key).isSome

-- The lists of keys that were made, and the drivers, each with the number of the
-- list that it is paired with: the tuple holds the list itself and not a copy.
structure State where
  paths : List (List Text)
  drivers : List (Nat × Entries)

namespace State

def append (state : State) (path : Nat) (key : Text) : State :=
  { state with paths := state.paths.modify path fun keys => keys ++ [key] }

def addDriver (state : State) (path : Nat) (driver : Entries) : State :=
  { state with drivers := state.drivers ++ [(path, driver)] }

end State

-- The case of a dictionary is process_dict.
mutual

def processNextKey (path : Nat) (state : State) : Value → State
  | .leaf _ => state
  | .list items => processListKey path state items
  | .dict entries =>
      if hasKey driverName entries then state.addDriver path entries
      else processEntries path state entries

def processListKey (path : Nat) (state : State) : List Value → State
  | [] => state
  | item :: rest => processListKey path (processNextKey path state item) rest

def processEntries (path : Nat) (state : State) : Entries → State
  | [] => state
  | (key, value) :: rest =>
      processEntries path (processNextKey path (state.append path key) value) rest

end

-- A round of process_next: a new list, and what is below the key.
def processBranch (state : State) (entry : Text × Value) : State :=
  processNextKey state.paths.length { state with paths := state.paths ++ [[entry.1]] } entry.2

-- The tuples as they are when the script goes on.
def State.pairs (state : State) : List (List Text × Entries) :=
  state.drivers.map fun driver => (state.paths.getD driver.1 [], driver.2)

-- The number that a value is as an index: True and False are 1 and 0.
def asIndex : Value → Option Int
  | .leaf (.int value) => some value
  | .leaf (.bool value) => some (if value then 1 else 0)
  | _ => none

-- json_file[key] of a list: a negative index counts from the end.
def listItem (items : List Value) (key : Value) : Except PythonError Value :=
  match asIndex key with
  | none => .error .typeError
  | some index =>
      let position := if index < 0 then index + items.length else index
      if position < 0 then .error .indexError
      else match items[position.toNat]? with
        | some item => .ok item
        | none => .error .indexError

-- A round of process_next over a list. The index at the front of the new path is left
-- out: the round of a driver, which is no index, raises an error.
def processItem (items : List Value) (state : State) (key : Value) :
    Except PythonError State := do
  let item ← listItem items key
  return processNextKey state.paths.length { state with paths := state.paths ++ [[]] } item

-- The items of a list are taken as indices of it; the characters of a string are none.
def processNext : Value → Except PythonError (List (List Text × Entries))
  | .leaf (.string text) => if text.isEmpty then .ok [] else .error .typeError
  | .leaf _ => .error .typeError
  | .list items => do
      let state ← items.foldlM (processItem items) ⟨[], []⟩
      return state.pairs
  | .dict entries => .ok (entries.foldl processBranch ⟨[], []⟩).pairs

end Processing

section Generating

def getItem (driver : Entries) (key : Text) : Except PythonError Value :=
  match driver.lookup key with
  | some value => .ok value
  | none => .error .keyError

-- A value that is written or added to a string
def text : Value → Except PythonError Text
  | .leaf (.string text) => .ok text
  | _ => .error .typeError

def getText (driver : Entries) (key : Text) : Except PythonError Text := do
  text (← getItem driver key)

-- str.split
def splitPath : Value → Except PythonError (List Text)
  | .leaf (.string text) => .ok (text.splitOn '/')
  | _ => .error .attributeError

-- What a for loop goes over
def iterate : Value → Except PythonError (List Value)
  | .leaf (.string text) => .ok (text.map fun c => .leaf (.string [c]))
  | .leaf _ => .error .typeError
  | .list items => .ok items
  | .dict entries => .ok (entries.map fun entry => .leaf (.string entry.1))

def includeLine (driver : List Text × Entries) : Except PythonError Text := do
  let path ←
    if hasKey "path".toList driver.2 then getText driver.2 "path".toList
    else pure ("msos/drivers".toList ++ driver.1.flatMap fun part => '/' :: part)
  let name ← getText driver.2 driverName
  return "#include <".toList ++ path ++ "/".toList ++ name ++ ".hpp>\n".toList

def createFunction (driver : List Text × Entries) : Except PythonError Text := do
  let namespaceValue ←
    if hasKey "namespace".toList driver.2 then getItem driver.2 "namespace".toList
    else pure (.leaf (.string
      ("msos::drivers".toList ++ driver.1.flatMap fun part => "::".toList ++ part)))
  let name ← getText driver.2 driverName
  let namespaceText ← text namespaceValue
  let args ←
    if hasKey "args".toList driver.2 then do
      let args ← iterate (← getItem driver.2 "args".toList)
      args.mapM text
    else pure []
  return "static inline auto& create_".toList ++ name ++ "()\n\x7b\n".toList ++
    "    static auto driver = ".toList ++ namespaceText ++ "::create_".toList ++ name ++
    "(".toList ++ ", ".toList.intercalate args ++ ");\n".toList ++
    "    return driver;\n\x7d\n\n".toList

def registerLine (driver : List Text × Entries) : Except PythonError Text := do
  let name ← getText driver.2 "name".toList
  let create ← getText driver.2 driverName
  return "REGISTER_DRIVER(".toList ++ name ++ ", create_".toList ++ create ++ "());\n".toList

def generateCpp (drivers : List (List Text × Entries)) : Except PythonError Text := do
  let includes ← drivers.mapM includeLine
  let creates ← drivers.mapM createFunction
  let registers ← drivers.mapM registerLine
  return "#include <msos/drivers/device_fs.hpp>\n".toList ++ includes.flatten ++ "\n".toList ++
    creates.flatten ++ "\n".toList ++ registers.flatten

-- str.upper
variable (upper : Text → Text)

def enableLine (driver : List Text × Entries) : Except PythonError Text := do
  let parts ←
    if hasKey "path".toList driver.2 then do
      let path ← splitPath (← getItem driver.2 "path".toList)
      pure (path.flatMap fun part => '_' :: upper part)
    else pure ("_DRIVERS".toList ++ driver.1.flatMap fun part => '_' :: upper part)
  return "set(ENABLE".toList ++ parts ++ " ON CACHE BOOL \"\" FORCE)\n".toList

def addPart (libraryName part : Text) : Text :=
  if libraryName = [] then part else libraryName ++ '_' :: part

def libraryLine (driver : List Text × Entries) : Except PythonError Text := do
  let libraryName ←
    if hasKey "path".toList driver.2 then do
      let path ← splitPath (← getItem driver.2 "path".toList)
      pure (path.foldl addPart [])
    else pure (driver.1.foldl addPart "msos_drivers".toList)
  return "        ".toList ++ libraryName ++ "\n".toList

def generateCmakeLibrary (drivers : List (List Text × Entries)) : Except PythonError Text := do
  let enables ← drivers.mapM (enableLine upper)
  let libraries ← drivers.mapM libraryLine
  return enables.flatten ++ "add_library(device_tree STATIC)\n\n".toList ++
    "target_sources(device_tree\n    PUBLIC\n".toList ++
    "         $\x7bCMAKE_CURRENT_SOURCE_DIR\x7d/device_tree.cpp)\n\n".toList ++
    "target_link_libraries(device_tree\n    PUBLIC\n".toList ++
    "        board\n        msos_drivers\n        hal\n".toList ++ libraries.flatten ++
    ")\n".toList ++ "target_compile_options(device_tree\n    PUBLIC\n".toList ++
    "        $<$<COMPILE_LANGUAGE:CXX>:-std=c++2a>\n".toList ++
    "        $<$<CONFIG:DEBUG>:-Og -g>\n        $<$<CONFIG:RELEASE>:-Os>\n".toList ++
    "    PRIVATE\n        $<$<COMPILE_LANGUAGE:CXX>:-Werror -Wall -Wextra -Wpedantic ".toList ++
    "-Wcast-align -Wunused -Wshadow -Wpointer-arith -Wcast-qual -Wno-missing-braces>\n".toList ++
    ")\n".toList

end Generating

end Msos.Scripts.GenerateDeviceTree
