import Msos.Library.Nested

namespace Msos.Scripts.GenerateConfig

open Msos.Library Msos.Library.Nested

abbrev Text := List Char

abbrev Value := Nested Text Text

abbrev Entries := List (Text × Value)

inductive PythonError
  | typeError
  | indexError
deriving DecidableEq, Repr

section Symbols

-- str.replace with nothing
def removeAll (pattern : Text) : Text → Text
  | [] => []
  | c :: rest =>
      if _h : pattern ≠ [] ∧ pattern <+: c :: rest then
        removeAll pattern ((c :: rest).drop pattern.length)
      else c :: removeAll pattern rest
termination_by text => text.length
decreasing_by
  · have hpattern := List.length_pos_iff.mpr _h.1
    rw [List.length_drop, List.length_cons]
    omega
  · exact Nat.lt_succ_self _

-- str.lower
variable (lower : Text → Text)

-- The key and the value of a part with a $ in it
def keyAndValue (value part : Text) : Except PythonError (Text × Text) :=
  match (part.splitOn '$').filter (· ≠ []) with
  | [] => .error .indexError
  | [key] => .ok (lower key, lower value)
  | key :: val :: _ => .ok (lower key, lower val)

-- The loop of process_symbol: current_obj is a dictionary or a list that is being
-- filled, and once left it is not entered again.
mutual

def processDict (value : Text) : List Text → Entries → Except PythonError Entries
  | [], current => .ok current
  | part :: rest, current =>
      if "KEY$".toList <+: part then processDict value rest current
      else if "$ARRAY".toList <:+ part then do
        let items ← processList value rest []
        return assign (lower (removeAll "$ARRAY".toList part)) (.list items) current
      else if '$' ∈ part then do
        let (key, val) ← keyAndValue lower value part
        processDict value rest (assign key (.leaf val) current)
      else do
        let inner ← processDict value rest []
        return assign (lower part) (.dict inner) current

def processList (value : Text) : List Text → List Value → Except PythonError (List Value)
  | [], current => .ok current
  | part :: rest, current =>
      if "KEY$".toList <+: part then processList value rest current
      else if "$ARRAY".toList <:+ part then .error .typeError
      else if '$' ∈ part then do
        let (key, val) ← keyAndValue lower value part
        let inner ← processDict value rest [(key, .leaf val)]
        return current ++ [.dict inner]
      else processList value rest (current ++ [.dict []])

end

def processSymbol (symbol : List Text) (value : Text) : Except PythonError Entries :=
  processDict lower value symbol []

end Symbols

section Merging

-- old behind the loop over new. A string and a list are iterated over, too, but their
-- elements are no indices.
mutual

def merge (old : Entries) : Value → Except PythonError Entries
  | .leaf text => if text = [] then .ok old else .error .typeError
  | .list items => if items.isEmpty then .ok old else .error .typeError
  | .dict new => mergeEntries old new

def mergeEntries (old : Entries) : Entries → Except PythonError Entries
  | [] => .ok old
  | (key, value) :: rest =>
      match old.lookup key with
      | some (.dict inner) => do
          -- what is merged here is overwritten, as the second test is no elif
          let _ ← merge inner value
          mergeEntries (assign key value old) rest
      | some (.list items) =>
          match value with
          | .list more => mergeEntries (assign key (.list (items ++ more)) old) rest
          | _ => .error .typeError
      | some (.leaf _) => mergeEntries (assign key value old) rest
      | none => mergeEntries (assign key value old) rest

end

end Merging

-- An element of to_parse
structure Entity where
  name : Text
  value : Text
deriving DecidableEq, Repr

-- The parts of the name behind PARAM_ARRAY; other entities are left out.
def Entity.symbol? (entity : Entity) : Option (List Text) :=
  match entity.name.splitOn '.' with
  | [] => none
  | first :: rest => if first = "PARAM_ARRAY".toList then some rest else none

variable (lower : Text → Text)

-- The loop of generate_json
def generateFrom (config : Entries) : List Entity → Except PythonError Entries
  | [] => .ok config
  | entity :: rest =>
      match entity.symbol? with
      | none => generateFrom config rest
      | some symbol => do
          let obj ← processSymbol lower symbol entity.value
          let config ← mergeEntries config obj
          generateFrom config rest

def generateJson (toParse : List Entity) : Except PythonError Entries :=
  generateFrom lower [] toParse

end Msos.Scripts.GenerateConfig
