import Mathlib.Data.List.DropRight
import Msos.Library.Dict
import Msos.Scripts.GenerateBinary
import Msos.Scripts.GenerateConfig

namespace Msos.Scripts.GenerateWrappers

open Msos.Library GenerateConfig

-- An object file of the input directory with its symbol table
structure ObjectFile where
  path : Name
  symbols : List Symbol
deriving DecidableEq, Repr

-- What the script reads of the data that get_symbols collects under a name.
structure SymbolData where
  type : SymbolType
  binding : Binding
  visibility : Visibility
deriving DecidableEq, Repr

def symbolItem (symbol : Symbol) : Name × SymbolData :=
  (symbol.name, ⟨symbol.type, symbol.binding, symbol.visibility⟩)

def getSymbols (file : ObjectFile) : Dict Name SymbolData :=
  Dict.ofList (file.symbols.map symbolItem)

def isExternal (binding : Binding) : Prop := binding = .global_ ∨ binding = .weak

instance : DecidablePred isExternal := fun _ => inferInstanceAs (Decidable (_ ∨ _))

def isPublic (item : Name × SymbolData) : Prop :=
  (item.2.type = .func ∧ item.2.visibility ≠ .hidden ∧ isExternal item.2.binding) ∨
    (item.2.type = .func ∧ item.1 = main ∧ isExternal item.2.binding) ∨ dlOriginal <:+ item.1

instance : DecidablePred isPublic := fun _ => inferInstanceAs (Decidable (_ ∨ _ ∨ _))

def getPublicFunctionsFromSymbols (symbols : Dict Name SymbolData) : Dict Name SymbolData :=
  symbols.filter isPublic

def getSymbolNames (symbols : Dict Name SymbolData) : List Name := symbols.items.map Prod.fst

-- str.replace removes every occurrence of the suffix, not the last one only.
def symbolName (symbol : Name) : Name :=
  if dlOriginal <:+ symbol then removeAll dlOriginal symbol else symbol

def wrapperFile : Name := "wrapped_symbols.s.o".toList

section Script

-- objcopy --redefine-sym with the old and the new name, as the shell runs it; what
-- becomes of it is not looked at.
variable (objcopy : ObjectFile → Name → Name → ObjectFile)

def wrapSymbol (state : Dict Name Name × ObjectFile) (symbol : Name) : Dict Name Name × ObjectFile :=
  (state.1.set (symbolName symbol) (symbolName symbol ++ dlOriginal),
    if dlOriginal <:+ symbol then state.2 else objcopy state.2 symbol (symbol ++ dlOriginal))

def wrapSymbols (symbolNames : List Name) (file : ObjectFile) : Dict Name Name × ObjectFile :=
  symbolNames.foldl (wrapSymbol objcopy) (Dict.empty, file)

-- One round of the loop over the files
def wrapFile (file : ObjectFile) : Dict Name Name × ObjectFile :=
  if wrapperFile <:+ file.path then (Dict.empty, file)
  else wrapSymbols objcopy (getSymbolNames (getPublicFunctionsFromSymbols (getSymbols file))) file

-- The loop of main: the wrappers to generate, a stub of the first name that calls
-- the second one, and the files as objcopy leaves them.
def wrapFiles (files : List ObjectFile) : Dict Name Name × List ObjectFile :=
  files.foldl (fun (wrappers, wrapped) file =>
    (wrappers.update (wrapFile objcopy file).1, wrapped ++ [(wrapFile objcopy file).2]))
    (Dict.empty, [])

end Script

section Build

-- What happens to the directory between two runs of the script: the compiler
-- writes a file, or one is deleted.
inductive BuildEvent
  | compile (file : ObjectFile)
  | remove (path : Name)
  | wrap
deriving DecidableEq, Repr

def compile (file : ObjectFile) : List ObjectFile → List ObjectFile
  | [] => [file]
  | other :: rest => if other.path = file.path then file :: rest else other :: compile file rest

variable (objcopy : ObjectFile → Name → Name → ObjectFile)

def buildStep (files : List ObjectFile) : BuildEvent → List ObjectFile
  | .compile file => compile file files
  | .remove path => files.filter fun file => file.path ≠ path
  | .wrap => (wrapFiles objcopy files).2

def build (events : List BuildEvent) : List ObjectFile := events.foldl (buildStep objcopy) []

-- The directory as the compiler alone would leave it
def sources (events : List BuildEvent) : List ObjectFile :=
  build objcopy (events.filter fun event => event ≠ .wrap)

-- The members of an archive, by their names
abbrev Archive := Dict Name (List Symbol)

-- The name of the member that a file becomes: what stands behind the last slash
def memberName (path : Name) : Name := path.rtakeWhile (· ≠ '/')

def member (file : ObjectFile) : Name × List Symbol := (memberName file.path, file.symbols)

-- The files of the input directory, and the archive of the output directory
structure Workspace where
  files : List ObjectFile
  archive : Archive

-- ar -crs with the archive and the files to put into it, as the shell runs it, and
-- whether a path lies below the output directory
variable (ar : Archive → List ObjectFile → Archive) (output : Name → Bool)

def toLib (files : List ObjectFile) : List ObjectFile := files.filter fun file => output file.path

-- The run of main, with the wrappers that it generates.
def runMain (workspace : Workspace) : Dict Name Name × Workspace :=
  let (symbolsToGenerate, files) := wrapFiles objcopy workspace.files
  (symbolsToGenerate, ⟨files, ar workspace.archive (toLib output files)⟩)

def workspaceStep (workspace : Workspace) (event : BuildEvent) : Workspace :=
  if event = .wrap then (runMain objcopy ar output workspace).2
  else { workspace with files := buildStep objcopy workspace.files event }

def workspaceOf (events : List BuildEvent) : Workspace :=
  events.foldl (workspaceStep objcopy ar output) ⟨[], Dict.empty⟩

end Build

end Msos.Scripts.GenerateWrappers
