import Msos.Fgets.Lines
import Msos.Library.Fallible
import Msos.Shell.AppStart.Behind

namespace Msos.Shell

open Msos.Library CString Search Traced Fallible LineEdit Fgets

-- Why the shell stops other than by returning: in _fgets, or in what it does for a request.
inductive SessionStop
  | line (fault : BufferFault)
  | request (reason : Stop)
deriving DecidableEq, Repr

-- The shell has returned, or it waits for a key.
inductive Ending
  | returns
  | waits
deriving DecidableEq, Repr

abbrev Conversation := Traced SessionStop Event

def ofRequest {α : Type} (action : Action α) : Conversation α :=
  ⟨action.events, action.result.mapError .request⟩

-- The bytes of the buffer as characters
def chars (bytes : List UInt8) : List Char := bytes.map fun byte => Char.ofNat byte.toNat

-- The buffer as the body of the loop leaves it: the parser marks the ends of the
-- words in it.
def bufferAfter (buffer : List Char) : List Char :=
  let request := string nul buffer
  if request.all isspace then buffer
  else
    match findFirstNotOf ' ' request with
    | none => buffer
    | some first =>
        if isAbsolutePath (request.drop first) then buffer
        else
          match CommandParser.new buffer with
          | .error _ => buffer
          | .ok parser =>
              match (collectArguments (argvSize - 1) parser).result with
              | .error _ => buffer
              | .ok (_, parser) => parser.splitter.buffer

section Loop

variable (environments : Nat → Environment) (fuel : Nat)

-- The loop of app_start on the readings of stdin. What the system answers may change
-- from one request to the next.
def session : Nat → Nat → List Char → List Reading → Conversation Ending
  | 0, _, _, _ => stop (.request .running)
  | rounds + 1, request, buffer, readings =>
      if (find "exit".toList (string nul buffer)).isSome then return .returns
      else
        match fgets (List.replicate bufferSize 0) bufferSize readings with
        | .error fault => stop (.line fault)
        | .ok none => return .waits
        | .ok (some (line, readings)) => do
            let buffer := chars line
            match ← ofRequest ((environments request).appStart fuel buffer) with
            | .returns => return .returns
            | .continues => session rounds (request + 1) (bufferAfter buffer) readings

-- What is done for some lines, one after the other, each of them on its own.
def serve : Nat → List (List Char) → Conversation Ending
  | _, [] => return .waits
  | request, line :: lines => do
      match ← ofRequest ((environments request).appStart fuel (lineBuffer line)) with
      | .returns => return .returns
      | .continues => serve (request + 1) lines

end Loop

section Marks

variable {splitter next : Splitter} {parser : CommandParser} {buffer : List Char}

theorem string_set (buffer : List Char) (i : Nat) :
    string nul (buffer.set i nul) <+: string nul buffer := by
  induction buffer generalizing i with
  | nil => exact List.prefix_rfl
  | cons head rest ih =>
      cases i with
      | zero =>
          rw [List.set_cons_zero, string_nul]
          exact List.nil_prefix
      | succ i =>
          rw [List.set_cons_succ]
          by_cases hhead : head = nul
          · rw [hhead, string_nul, string_nul]
          · simp only [string, List.takeWhile_cons, decide_eq_true hhead, ne_eq]
            exact List.cons_prefix_cons.mpr ⟨rfl, ih i⟩

-- A part is marked with a null at most.
theorem string_getNextPart {part : Option View} (h : splitter.getNextPart = .ok (part, next)) :
    string nul next.buffer <+: string nul splitter.buffer := by
  simp only [Splitter.getNextPart] at h
  split at h
  · obtain ⟨-, rfl⟩ := Prod.mk.inj (Except.ok.inj h)
    exact List.prefix_rfl
  split at h
  · cases h
  split at h
  · split at h
    · obtain ⟨-, rfl⟩ := Prod.mk.inj (Except.ok.inj h)
      exact List.prefix_rfl
    · obtain ⟨-, rfl⟩ := Prod.mk.inj (Except.ok.inj h)
      exact List.prefix_rfl
  · obtain ⟨-, rfl⟩ := Prod.mk.inj (Except.ok.inj h)
    simp only
    split
    · exact string_set _ _
    · exact List.prefix_rfl

theorem string_collectArguments {free : Nat} {arguments : List Argument} {after : CommandParser}
    (h : (collectArguments free parser).result = .ok (arguments, after)) :
    string nul after.splitter.buffer <+: string nul parser.splitter.buffer := by
  induction free generalizing parser arguments with
  | zero =>
      by_cases hempty : parser.splitter.empty = true
      · rw [collectArguments_empty hempty] at h
        obtain ⟨-, rfl⟩ := Prod.mk.inj (Except.ok.inj h)
        exact List.prefix_rfl
      · rw [collectArguments_zero (eq_false_of_ne_true hempty)] at h
        cases h
  | succ free ih =>
      by_cases hempty : parser.splitter.empty = true
      · rw [collectArguments_empty hempty] at h
        obtain ⟨-, rfl⟩ := Prod.mk.inj (Except.ok.inj h)
        exact List.prefix_rfl
      · cases hpart : parser.splitter.getNextPart with
        | error fault =>
            rw [collectArguments, if_neg hempty, CommandParser.getNextArgument, hpart] at h
            cases h
        | ok result =>
            obtain ⟨part, next⟩ := result
            rw [collectArguments_succ (eq_false_of_ne_true hempty)
              (CommandParser.getNextArgument_of_part hpart)] at h
            obtain ⟨⟨rest, last⟩, hrest, hlast⟩ := result_bind_eq_ok.mp h
            obtain ⟨-, rfl⟩ := Prod.mk.inj (Except.ok.inj hlast)
            exact (ih hrest).trans (string_getNextPart hpart)

theorem string_bufferAfter (buffer : List Char) :
    string nul (bufferAfter buffer) <+: string nul buffer := by
  simp only [bufferAfter]
  split
  · exact List.prefix_rfl
  split
  · exact List.prefix_rfl
  split
  · exact List.prefix_rfl
  cases hpart : (Splitter.new buffer ' ' true).getNextPart with
  | error fault =>
      rw [CommandParser.new, hpart]
      exact List.prefix_rfl
  | ok result =>
      obtain ⟨part, next⟩ := result
      rw [CommandParser.new_of_part hpart]
      simp only
      split
      · exact List.prefix_rfl
      · next arguments after hcollect =>
          exact (string_collectArguments hcollect).trans (string_getNextPart hpart)

-- The condition of the loop never ends it: the body has returned before.
theorem find_bufferAfter {environment : Environment} {fuel : Nat}
    (h : (environment.appStart fuel buffer).result = .ok .continues) :
    (find "exit".toList (string nul (bufferAfter buffer))).isSome = false := by
  by_contra hfound
  rw [Bool.not_eq_false, find_isSome_iff] at hfound
  have hexit := hfound.trans (string_bufferAfter buffer).isInfix
  rw [Environment.appStart] at h
  by_cases hspace : (string nul buffer).all isspace = true
  · have hall := List.all_eq_true.mp hspace 'e' (hexit.subset (by decide))
    exact absurd hall (by decide)
  · rw [if_neg hspace, if_pos ((find_isSome_iff _ _).mpr hexit)] at h
    cases h

end Marks

section Serving

variable {environments : Nat → Environment} {fuel : Nat}

theorem chars_append (line tail : List UInt8) :
    chars (line ++ 0 :: tail) = chars line ++ nul :: chars tail := by
  rw [chars, List.map_append, List.map_cons]
  rfl

theorem lineBuffer_eq {line : List UInt8} (h : line.length + 2 ≤ bufferSize) :
    ∃ behind, lineBuffer (chars line) = chars line ++ nul :: behind := by
  have hlength : (chars line).length = line.length := List.length_map _
  refine ⟨List.replicate (bufferSize - line.length - 1) nul, ?_⟩
  rw [lineBuffer, hlength, ← List.replicate_succ]
  congr 2
  omega

-- From a buffer without a request to exit on, one round takes the next line.
theorem session_eq {rounds : Nat} {buffer : List Char} (request : Nat)
    (stream : List (Option UInt8)) (hrounds : stream.length < rounds)
    (hbuffer : (find "exit".toList (string nul buffer)).isSome = false) :
    session environments fuel rounds request buffer (stream.map Reading.ofByte) =
      serve environments fuel request
        ((cut backspace newline bufferSize [] stream.reduceOption).map chars) := by
  induction rounds generalizing request buffer stream with
  | zero => exact absurd hrounds (Nat.not_lt_zero _)
  | succ rounds ih =>
      rw [session, hbuffer, if_neg Bool.false_ne_true]
      have hlength : (List.replicate bufferSize (0 : UInt8)).length = bufferSize :=
        List.length_replicate
      have hline := @fgets_line (List.replicate bufferSize 0) (by rw [hlength]; decide) stream
      rw [hlength] at hline
      rcases hline with ⟨hfgets, hcut⟩ | ⟨line, tail, rest, hrest, hroom, hfgets, hcut⟩
      · rw [hfgets, hcut]
        rfl
      · obtain ⟨behind, hbehind⟩ := lineBuffer_eq hroom
        have hsame : (environments request).appStart fuel (chars (line ++ 0 :: tail)) =
            (environments request).appStart fuel (lineBuffer (chars line)) := by
          rw [chars_append, hbehind]
          exact appStart_behind (sameUpTo_append _ _ _)
        rw [hfgets, hcut, List.map_cons, serve]
        simp only [hsame]
        apply bind_congr_of_ok
        intro outcome houtcome
        cases outcome with
        | returns => rfl
        | continues =>
            have hcontinues : ((environments request).appStart fuel
                (chars (line ++ 0 :: tail))).result = .ok .continues := by
              rw [hsame]
              exact mapError_eq_ok houtcome
            exact ih (request + 1) rest (by omega) (find_bufferAfter hcontinues)

-- The shell serves the lines that the keys are cut into, each of them as if it were the
-- only one: no line, erased key or mark of the parser is left for the next.
theorem session_serves {rounds : Nat} (stream : List (Option UInt8))
    (hrounds : stream.length < rounds) :
    session environments fuel rounds 0 (lineBuffer []) (stream.map Reading.ofByte) =
      serve environments fuel 0
        ((cut backspace newline bufferSize [] stream.reduceOption).map chars) := by
  have hempty : string nul (lineBuffer []) = [] := by
    rw [lineBuffer, List.nil_append, bufferSize, List.length_nil, List.replicate_succ, string_nul]
  exact session_eq 0 stream hrounds (by rw [hempty]; rfl)

-- A command with a key that is taken back, and then the end of the session
def typedKeys : List (Option UInt8) :=
  [some 108, some 120, none, some backspace, some 115, some newline, some 101, some 120, some 105,
    some 116, some newline, some 108]

theorem session_serves_typed :
    session (fun _ => filesHere) 1 13 0 (lineBuffer []) (typedKeys.map Reading.ofByte) =
      serve (fun _ => filesHere) 1 0 ["ls".toList, "exit".toList] :=
  session_serves typedKeys (by decide)

end Serving

end Msos.Shell
