import Msos.Library.Search

namespace Msos.Printf

open Msos.Library.Search

-- What the variable arguments hold.
inductive Argument
  | int (value : BitVec 32)
  | string (text : List Char)
deriving DecidableEq, Repr

-- A va_arg for which there is no argument of its type.
inductive ArgumentFault
  | mismatch
deriving DecidableEq, Repr

-- The values that are sent to the writer with <<, by their types.
inductive Sent
  | text (text : List Char)
  | char (value : BitVec 8)
  | string (text : List Char)
  | int (value : BitVec 32)
deriving DecidableEq, Repr

def vaArgInt : List Argument → Except ArgumentFault (BitVec 32 × List Argument)
  | .int value :: rest => .ok (value, rest)
  | _ => .error .mismatch

def vaArgString : List Argument → Except ArgumentFault (List Char × List Argument)
  | .string text :: rest => .ok (text, rest)
  | _ => .error .mismatch

-- The switch over the specifier; any other one is passed over.
def convert (specifier : Char) (arguments : List Argument) :
    Except ArgumentFault (List Sent × List Argument) :=
  match specifier with
  | 'c' => do
      let (arg, arguments) ← vaArgInt arguments
      return ([.char (arg.setWidth 8)], arguments)
  | 's' => do
      let (arg, arguments) ← vaArgString arguments
      return ([.string arg], arguments)
  | 'd' => do
      let (arg, arguments) ← vaArgInt arguments
      return ([.int arg], arguments)
  | _ => return ([], arguments)

-- The loop of __vfprintf_ on the rest of the format: what is sent, and the size.
def vfprintfLoop (data : List Char) (arguments : List Argument) (size : Nat) :
    Except ArgumentFault (List Sent × Nat) :=
  match find ['%'] data with
  | none => .ok ([.text data], size + data.length)
  | some position =>
      let before := if 0 < position then [.text (data.take position)] else []
      let size := if 0 < position then size + (data.take position).length else size
      if _h : data.length ≤ position + 1 then .ok (before, size + data.length)
      else do
        let (sent, arguments) ← convert data[position + 1] arguments
        if data.length ≤ position + 2 then return (before ++ sent, size + data.length)
        else
          let (rest, size) ← vfprintfLoop (data.drop (position + 2)) arguments size
          return (before ++ sent ++ rest, size)
termination_by data.length
decreasing_by
  rw [List.length_drop]
  omega

-- What is sent to the writer, and the int that is returned.
def vfprintf (format : List Char) (arguments : List Argument) :
    Except ArgumentFault (List Sent × Int) :=
  (vfprintfLoop format arguments 0).map fun (sent, size) => (sent, (BitVec.ofNat 32 size).toInt)

-- A directive with the argument that it takes.
inductive Directive
  | char (value : BitVec 32)
  | string (text : List Char)
  | int (value : BitVec 32)
deriving DecidableEq, Repr

namespace Directive

def specifier : Directive → Char
  | .char _ => 'c'
  | .string _ => 's'
  | .int _ => 'd'

def argument : Directive → Argument
  | .char value | .int value => .int value
  | .string text => .string text

def sent : Directive → Sent
  | .char value => .char (value.setWidth 8)
  | .string text => .string text
  | .int value => .int value

end Directive

-- A format by its pieces: a character of the literal text, or a directive.
inductive Piece
  | literal (character : {character : Char // character ≠ '%'})
  | directive (conversion : Directive)
deriving DecidableEq

namespace Piece

def format : Piece → List Char
  | .literal character => [character.val]
  | .directive conversion => ['%', conversion.specifier]

def arguments : Piece → List Argument
  | .literal _ => []
  | .directive conversion => [conversion.argument]

-- What the piece stands for, a literal character by itself.
def rendering : Piece → List Sent
  | .literal character => [.text [character.val]]
  | .directive conversion => [conversion.sent]

end Piece

-- How many of the pieces are literal characters
def literalCount : List Piece → Nat
  | [] => 0
  | .literal _ :: rest => literalCount rest + 1
  | .directive _ :: rest => literalCount rest

-- What the size takes for a directive at the end: the two characters of it, and
-- the run of text right in front of it once more.
def countedAgain (run : Nat) : List Piece → Nat
  | [] => 0
  | .literal _ :: rest => countedAgain (run + 1) rest
  | .directive _ :: rest => if rest = [] then run + 2 else countedAgain 0 rest

-- The literal text one character after the other, and the arguments.
def Sent.parts : Sent → List Sent
  | .text literal => literal.map fun character => .text [character]
  | sent => [sent]

section Pieces

theorem find_of_notMem {text : List Char} (h : '%' ∉ text) : find ['%'] text = none := by
  rw [← Option.not_isSome_iff_eq_none, find_isSome_iff]
  intro hinfix
  exact h (List.IsInfix.subset hinfix List.mem_cons_self)

theorem find_append {text : List Char} (h : '%' ∉ text) (rest : List Char) :
    find ['%'] (text ++ '%' :: rest) = some text.length := by
  induction text with
  | nil => simp [find]
  | cons head tail ih =>
      obtain ⟨hhead, htail⟩ := not_or.mp (List.mem_cons.not.mp h)
      have hprefix : ¬['%'] <+: head :: (tail ++ '%' :: rest) := by
        intro hp
        exact hhead (List.cons_prefix_cons.mp hp).1
      rw [List.cons_append, find, if_neg hprefix, ih htail]
      rfl

theorem convert_directive (conversion : Directive) (arguments : List Argument) :
    convert conversion.specifier (conversion.argument :: arguments) =
      .ok ([conversion.sent], arguments) := by
  cases conversion <;> rfl

-- The literal text of a run of characters
def literals (run : List {character : Char // character ≠ '%'}) : List Piece :=
  run.map Piece.literal

theorem format_literals (run : List {character : Char // character ≠ '%'}) :
    (literals run).flatMap Piece.format = run.map Subtype.val := by
  induction run with
  | nil => rfl
  | cons character rest ih => simpa [literals, Piece.format] using ih

theorem notMem_literals (run : List {character : Char // character ≠ '%'}) :
    '%' ∉ run.map Subtype.val := by
  intro hm
  obtain ⟨character, -, hc⟩ := List.mem_map.mp hm
  exact character.property hc

theorem arguments_literals (run : List {character : Char // character ≠ '%'}) :
    (literals run).flatMap Piece.arguments = [] := by
  simp [literals, Piece.arguments, List.flatMap_map]

theorem rendering_literals (run : List {character : Char // character ≠ '%'}) :
    (literals run).flatMap Piece.rendering = (Sent.text (run.map Subtype.val)).parts := by
  induction run with
  | nil => rfl
  | cons character rest ih => simpa [literals, Piece.rendering, Sent.parts] using ih

-- The pieces start with a run of literal text, up to a directive or the end.
theorem exists_run (pieces : List Piece) : ∃ run, pieces = literals run ∨
    ∃ conversion rest, pieces = literals run ++ Piece.directive conversion :: rest := by
  induction pieces with
  | nil => exact ⟨[], Or.inl rfl⟩
  | cons piece rest ih =>
      cases piece with
      | literal character =>
          obtain ⟨run, rfl | ⟨conversion, tail, rfl⟩⟩ := ih
          · exact ⟨character :: run, Or.inl rfl⟩
          · exact ⟨character :: run, Or.inr ⟨conversion, tail, rfl⟩⟩
      | directive conversion => exact ⟨[], Or.inr ⟨conversion, rest, rfl⟩⟩

theorem literalCount_run (run : List {character : Char // character ≠ '%'})
    (rest : List Piece) : literalCount (literals run ++ rest) = run.length + literalCount rest := by
  induction run with
  | nil => exact (Nat.zero_add _).symm
  | cons character tail ih =>
      simp only [literals, literalCount, List.map_cons, List.cons_append, List.length_cons] at ih ⊢
      omega

theorem countedAgain_run (run : List {character : Char // character ≠ '%'}) (before : Nat)
    (rest : List Piece) :
    countedAgain before (literals run ++ rest) = countedAgain (before + run.length) rest := by
  induction run generalizing before with
  | nil => rfl
  | cons character tail ih =>
      have htail := ih (before + 1)
      simp only [literals, List.map_cons, List.cons_append, countedAgain, List.length_cons] at htail ⊢
      rw [htail]
      congr 1
      omega

theorem countedAgain_le (run : Nat) (pieces : List Piece) :
    countedAgain run pieces ≤ run + literalCount pieces + 2 := by
  induction pieces generalizing run with
  | nil => simp [countedAgain]
  | cons piece rest ih =>
      cases piece with
      | literal character =>
          have hrest := ih (run + 1)
          rw [countedAgain, literalCount]
          omega
      | directive conversion =>
          have hrest := ih 0
          rw [countedAgain, literalCount]
          split <;> omega

theorem format_ne_nil (piece : Piece) (rest : List Piece) :
    (piece :: rest).flatMap Piece.format ≠ [] := by
  cases piece <;> simp [Piece.format]

end Pieces

section Rendering

theorem parts_sent (conversion : Directive) : conversion.sent.parts = [conversion.sent] := by
  cases conversion <;> rfl

theorem vfprintfLoop_text {text : List Char} (h : '%' ∉ text) (arguments : List Argument)
    (size : Nat) : vfprintfLoop text arguments size = .ok ([.text text], size + text.length) := by
  rw [vfprintfLoop, find_of_notMem h]

-- One round: the text in front of a directive, the argument, and then the rest
-- of the format.
theorem vfprintfLoop_directive {before : List Char} (hb : '%' ∉ before) (conversion : Directive)
    (after : List Char) (arguments : List Argument) (size : Nat) :
    ∃ first, first.flatMap Sent.parts = (Sent.text before).parts ∧
      vfprintfLoop (before ++ '%' :: conversion.specifier :: after)
        (conversion.argument :: arguments) size =
      if after = [] then
        .ok (first ++ [conversion.sent], size + before.length + (before.length + 2))
      else (vfprintfLoop after arguments (size + before.length)).map fun (rest, size) =>
        (first ++ [conversion.sent] ++ rest, size) := by
  have hlength : (before ++ '%' :: conversion.specifier :: after).length =
      before.length + 2 + after.length := by
    simp only [List.length_append, List.length_cons]
    omega
  have htake : (before ++ '%' :: conversion.specifier :: after).take before.length = before :=
    List.take_left
  have hdrop : (before ++ '%' :: conversion.specifier :: after).drop (before.length + 2) =
      after := by
    rw [← List.drop_drop, List.drop_left]
    rfl
  have hspecifier : ∀ h, (before ++ '%' :: conversion.specifier :: after).get
      ⟨before.length + 1, h⟩ = conversion.specifier := by
    intro h
    simp [List.getElem_append_right]
  have hbehind : ¬(before ++ '%' :: conversion.specifier :: after).length ≤ before.length + 1 := by
    omega
  have hsize : (if 0 < before.length then size + before.length else size) =
      size + before.length := by
    split <;> omega
  refine ⟨if 0 < before.length then [.text before] else [], ?_, ?_⟩
  · split
    · simp
    · rename_i hempty
      rw [List.length_pos_iff, not_not] at hempty
      simp [hempty, Sent.parts]
  · rw [vfprintfLoop, find_append hb]
    simp only [htake, dif_neg hbehind, hsize]
    have hconvert : convert (before ++ '%' :: conversion.specifier :: after)[before.length + 1]
        (conversion.argument :: arguments) = .ok ([conversion.sent], arguments) := by
      have hget := hspecifier (by omega)
      rw [List.get_eq_getElem] at hget
      rw [hget]
      exact convert_directive conversion arguments
    rw [hconvert]
    by_cases hafter : after = []
    · subst hafter
      rw [List.length_nil, Nat.add_zero] at hlength
      simp only [bind, Except.bind, if_pos hlength.le, if_true]
      rw [hlength]
      rfl
    · have hend : ¬(before ++ '%' :: conversion.specifier :: after).length ≤ before.length + 2 := by
        have hpos := List.length_pos_iff.mpr hafter
        omega
      simp only [bind, Except.bind, if_neg hend, if_neg hafter, hdrop]
      cases vfprintfLoop after arguments _ <;> rfl

-- What a format made of pieces sends is what they stand for, one after the other,
-- and the size is that of the literal text and of what is counted again.
theorem vfprintfLoop_pieces (pieces : List Piece) (others : List Argument) (size : Nat) :
    ∃ sent, vfprintfLoop (pieces.flatMap Piece.format)
        (pieces.flatMap Piece.arguments ++ others) size =
          .ok (sent, size + literalCount pieces + countedAgain 0 pieces) ∧
      sent.flatMap Sent.parts = pieces.flatMap Piece.rendering := by
  induction hn : pieces.length using Nat.strong_induction_on generalizing pieces size with
  | _ n ih =>
      obtain ⟨run, rfl | ⟨conversion, rest, rfl⟩⟩ := exists_run pieces
      · -- literal text up to the end
        have hcount : literalCount (literals run) = run.length := by
          simpa [literalCount] using literalCount_run run []
        have hagain : countedAgain 0 (literals run) = 0 := by
          simpa [countedAgain] using countedAgain_run run 0 []
        rw [format_literals, rendering_literals, vfprintfLoop_text (notMem_literals run), hcount,
          hagain, List.length_map, Nat.add_zero]
        exact ⟨_, rfl, by simp⟩
      · -- a run of text, a directive, and the rest of the format
        have hrest : rest.length < n := by
          rw [← hn, List.length_append, List.length_cons]
          omega
        obtain ⟨first, hfirst, hround⟩ := vfprintfLoop_directive
          (notMem_literals run) conversion (rest.flatMap Piece.format)
          (rest.flatMap Piece.arguments ++ others) size
        have hformat : (literals run ++ Piece.directive conversion :: rest).flatMap Piece.format =
            run.map Subtype.val ++ '%' :: conversion.specifier :: rest.flatMap Piece.format := by
          rw [List.flatMap_append, format_literals, List.flatMap_cons]
          rfl
        have harguments : (literals run ++ Piece.directive conversion :: rest).flatMap
            Piece.arguments ++ others =
              conversion.argument :: (rest.flatMap Piece.arguments ++ others) := by
          rw [List.flatMap_append, arguments_literals, List.flatMap_cons]
          rfl
        have hrendering : (literals run ++ Piece.directive conversion :: rest).flatMap
            Piece.rendering = (first ++ [conversion.sent]).flatMap Sent.parts ++
              rest.flatMap Piece.rendering := by
          rw [List.flatMap_append, rendering_literals, List.flatMap_cons, List.flatMap_append, hfirst,
            List.flatMap_singleton, parts_sent, List.append_assoc]
          rfl
        have hcount : literalCount (literals run ++ Piece.directive conversion :: rest) =
            run.length + literalCount rest := literalCount_run run _
        have hagain : countedAgain 0 (literals run ++ Piece.directive conversion :: rest) =
            if rest = [] then run.length + 2 else countedAgain 0 rest := by
          rw [countedAgain_run, Nat.zero_add]
          rfl
        rw [hformat, harguments, hrendering, hround, hcount, hagain, List.length_map]
        cases rest with
        | nil => exact ⟨_, if_pos rfl, by simp⟩
        | cons piece pieces =>
            obtain ⟨sent, hloop, hsent⟩ := ih _ hrest (piece :: pieces) (size + run.length) rfl
            rw [if_neg (format_ne_nil piece pieces), hloop, if_neg (List.cons_ne_nil _ _),
              ← Nat.add_assoc size]
            exact ⟨_, rfl, by rw [List.flatMap_append, hsent]⟩

theorem vfprintf_sends (pieces : List Piece) (others : List Argument) :
    ∃ sent returned, vfprintf (pieces.flatMap Piece.format)
        (pieces.flatMap Piece.arguments ++ others) = .ok (sent, returned) ∧
      sent.flatMap Sent.parts = pieces.flatMap Piece.rendering := by
  obtain ⟨sent, hloop, hsent⟩ := vfprintfLoop_pieces pieces others 0
  exact ⟨sent, _, by rw [vfprintf, hloop]; rfl, hsent⟩

end Rendering

end Msos.Printf
