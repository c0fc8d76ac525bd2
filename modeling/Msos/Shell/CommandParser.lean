import Msos.Shell.Splitter.Theorems

namespace Msos.Shell

open Msos.Library CString Search Words Splitter

structure CommandParser where
  splitter : Splitter
  command : Option View
deriving DecidableEq, Repr

namespace CommandParser

def new (input : List Char) : Except ViewFault CommandParser := do
  let (command, splitter) ← (Splitter.new input ' ' true).getNextPart
  return ⟨splitter, command⟩

def getNextArgument (parser : CommandParser) : Except ViewFault (Option View × CommandParser) := do
  let (part, splitter) ← parser.splitter.getNextPart
  return (part, { parser with splitter := splitter })

-- The part ends with a null behind it, so that its data() is the word, and the
-- null is all that is written.
structure Terminated (buffer : List Char) (view : View) (after word : List Char) : Prop where
  null : after[view.stop]? = some nul
  frame : after = buffer.set view.stop nul
  string : string nul (after.drop view.start) = word

-- Every call returns the next of the words as such a part, up to the empty one.
def PassesStrings : CommandParser → List (List Char) → Prop
  | parser, [] => parser.splitter.empty = true ∧ parser.getNextArgument = .ok (none, parser)
  | parser, word :: rest =>
      parser.splitter.empty = false ∧ ∃ view next, parser.getNextArgument = .ok (some view, next) ∧
        Terminated parser.splitter.buffer view next.splitter.buffer word ∧ next.PassesStrings rest

-- The command is the first part, and the arguments are the others.
def ProperStrings (buffer : List Char) (words : List (List Char)) : Prop :=
  ∃ parser view command arguments, new buffer = .ok parser ∧ parser.command = some view ∧
    words = command :: arguments ∧ Terminated buffer view parser.splitter.buffer command ∧
      parser.PassesStrings arguments

section Strings

variable {splitter next : Splitter} {parser : CommandParser}
  {before text behind run rest : List Char} {found : List (List Char)} {first last count : Nat}

theorem getNextArgument_of_part {part : Option View}
    (h : parser.splitter.getNextPart = .ok (part, next)) :
    parser.getNextArgument = .ok (part, { parser with splitter := next }) := by
  rw [getNextArgument, h]
  rfl

theorem new_of_part {input : List Char} {part : Option View}
    (h : (Splitter.new input ' ' true).getNextPart = .ok (part, next)) :
    new input = .ok ⟨next, part⟩ := by
  rw [new, h]
  rfl

theorem passesStrings_nil (hempty : parser.splitter.tmp.length = 0) :
    parser.PassesStrings [] := by
  obtain ⟨hnone, hpart⟩ := getNextPart_empty hempty
  exact ⟨hnone, getNextArgument_of_part hpart⟩

-- A null behind the run, there already or written now
theorem terminated_of_null {buffer : List Char} {delimiter old : Char}
    (hbuffer : buffer =
      (before ++ (List.replicate first delimiter ++ run)) ++ old :: rest) (hrun : nul ∉ run) :
    Terminated buffer ⟨before.length + first, run.length⟩
      (buffer.set (before.length + first + run.length) nul) run := by
  have hstop := (length_front before run delimiter first).symm
  have hset : buffer.set (before.length + first + run.length) nul =
      (before ++ (List.replicate first delimiter ++ run)) ++ nul :: rest := by
    rw [hbuffer, hstop]
    exact set_append _ _ _ _
  refine ⟨?_, rfl, ?_⟩
  · rw [hset, View.stop, hstop, List.getElem?_append_right (Nat.le_refl _), Nat.sub_self]
    rfl
  · have hdrop : ((before ++ (List.replicate first delimiter ++ run)) ++ nul :: rest).drop
        (before.length + first) = run ++ nul :: rest := by
      rw [List.append_assoc, List.append_assoc, drop_delimiters]
    rw [hset, hdrop, string_append_nul hrun]

-- Nothing is written behind the last part.
theorem terminated_last_iff (hrun : nul ∉ run)
    (hat : At splitter before (List.replicate first splitter.delimiter ++
      (run ++ List.replicate last splitter.delimiter)) behind) :
    Terminated splitter.buffer ⟨before.length + first, run.length⟩ splitter.buffer run ↔
      (List.replicate last splitter.delimiter ++ behind).head? = some nul := by
  have hbuffer : splitter.buffer =
      (before ++ (List.replicate first splitter.delimiter ++ run)) ++
        (List.replicate last splitter.delimiter ++ behind) := by
    rw [hat.buffer_eq]
    simp only [List.append_assoc]
  have hstop := (length_front before run splitter.delimiter first).symm
  constructor
  · intro hterminated
    have hnull := hterminated.null
    rw [View.stop, hstop, hbuffer, List.getElem?_append_right (Nat.le_refl _), Nat.sub_self] at hnull
    rw [List.head?_eq_getElem?]
    exact hnull
  · intro hhead
    obtain ⟨tail, htail⟩ := List.head?_eq_some_iff.mp hhead
    rw [htail] at hbuffer
    have hsame : splitter.buffer.set (before.length + first + run.length) nul =
        splitter.buffer := by
      rw [hbuffer, hstop]
      exact set_append _ _ _ _
    have hterminated := terminated_of_null hbuffer hrun
    rwa [hsame] at hterminated

theorem terminated_more (hrun : nul ∉ run) {tail : List Char}
    (hinsert : splitter.insertNullCharacter = true)
    (hat : At splitter before (List.replicate first splitter.delimiter ++
      ((run ++ splitter.delimiter :: rest) ++ tail)) behind)
    (hnext : next.buffer = if splitter.insertNullCharacter
        then splitter.buffer.set (before.length + first + run.length) nul else splitter.buffer) :
    Terminated splitter.buffer ⟨before.length + first, run.length⟩ next.buffer run := by
  rw [hnext, if_pos hinsert]
  have hbuffer : splitter.buffer =
      (before ++ (List.replicate first splitter.delimiter ++ run)) ++
        splitter.delimiter :: (rest ++ (tail ++ behind)) := by
    rw [hat.buffer_eq]
    simp only [List.append_assoc, List.cons_append]
  exact terminated_of_null hbuffer hrun

-- All parts of a text are terminated exactly when the null of the line is right
-- behind the last one.
theorem passesStrings_iff (hwords : Separated ' ' text found) (htext : nul ∉ text)
    (hdelimiter : parser.splitter.delimiter = ' ')
    (hinsert : parser.splitter.insertNullCharacter = true)
    (hat : At parser.splitter before (List.replicate first ' ' ++
      (text ++ List.replicate last ' ')) behind) :
    parser.PassesStrings found ↔ (List.replicate last ' ' ++ behind).head? = some nul := by
  induction hwords generalizing parser before first last behind with
  | @last run hne hrun =>
      rw [← hdelimiter] at hrun hat ⊢
      have hpart := getNextArgument_of_part (getNextPart_last hne hrun hat)
      rw [← terminated_last_iff htext hat]
      constructor
      · rintro ⟨-, view, next, hnext, hterminated, -⟩
        obtain ⟨hview, rfl⟩ := Prod.mk.inj (Except.ok.inj (hpart.symm.trans hnext))
        obtain rfl := Option.some.inj hview
        exact hterminated
      · intro hterminated
        refine ⟨empty_eq_false hat (by simp [hne]), _, _, hpart, hterminated, ?_⟩
        exact passesStrings_nil rfl
  | @more run rest others count hne hrun hrest ih =>
      have hnul := notMem_parts htext
      rw [← hdelimiter] at hrun hat hrest ⊢
      obtain ⟨next, hnext, hsame, hkept, hbuffer, hbehind⟩ :=
        getNextPart_more hrun (.more count hne hrun hrest) hat
      have hpart := getNextArgument_of_part hnext
      have hothers := @ih { parser with splitter := next } _ _ _ _ hnul.2
        (hsame.trans hdelimiter) (hkept.trans hinsert) (hdelimiter ▸ hbehind)
      rw [List.replicate_zero, List.nil_append, ← hdelimiter] at hothers
      rw [← hothers]
      constructor
      · rintro ⟨-, view, after, hafter, -, hrest⟩
        obtain ⟨-, rfl⟩ := Prod.mk.inj (Except.ok.inj (hpart.symm.trans hafter))
        exact hrest
      · intro hpasses
        refine ⟨empty_eq_false hat (by simp [hne]), _, _, hpart, ?_, hpasses⟩
        exact terminated_more hnul.1 hinsert hat hbuffer

-- Whether the strings are passed depends on what is left to split only.
theorem passesStrings_command (command : Option View) (words : List (List Char)) :
    (CommandParser.mk splitter command).PassesStrings words ↔
      (CommandParser.mk splitter none).PassesStrings words := by
  induction words generalizing splitter with
  | nil =>
      simp only [PassesStrings, getNextArgument]
      cases splitter.getNextPart with
      | error fault => simp [bind, Except.bind]
      | ok outcome => simp [bind, Except.bind, pure, Except.pure]
  | cons word rest ih =>
      simp only [PassesStrings, getNextArgument]
      cases splitter.getNextPart with
      | error fault => simp [bind, Except.bind]
      | ok outcome =>
          obtain ⟨part, next⟩ := outcome
          simp [bind, Except.bind, pure, Except.pure, @ih next]

theorem properStrings_cons {input : List Char} (word : List Char) (rest : List (List Char))
    (hsome : (Splitter.new input ' ' true).empty = false) :
    ProperStrings input (word :: rest) ↔
      (CommandParser.mk (Splitter.new input ' ' true) none).PassesStrings (word :: rest) := by
  constructor
  · rintro ⟨parser, view, command, arguments, hnew, hview, hwords, hterminated, hpasses⟩
    obtain ⟨rfl, rfl⟩ := List.cons.inj hwords
    refine ⟨hsome, view, ⟨parser.splitter, none⟩, ?_, hterminated,
      (passesStrings_command parser.command _).mp hpasses⟩
    cases hpart : (Splitter.new input ' ' true).getNextPart with
    | error fault =>
        rw [new, hpart] at hnew
        cases hnew
    | ok outcome =>
        obtain ⟨part, next⟩ := outcome
        rw [new_of_part hpart] at hnew
        obtain rfl := Except.ok.inj hnew
        obtain rfl : part = some view := hview
        exact getNextArgument_of_part hpart
  · rintro ⟨-, view, after, hafter, hterminated, hpasses⟩
    cases hpart : (Splitter.new input ' ' true).getNextPart with
    | error fault =>
        rw [getNextArgument, hpart] at hafter
        cases hafter
    | ok outcome =>
        have hnext := @getNextArgument_of_part _ ⟨Splitter.new input ' ' true, none⟩ _ hpart
        obtain ⟨hview, rfl⟩ := Prod.mk.inj (Except.ok.inj (hnext.symm.trans hafter))
        refine ⟨⟨outcome.2, some view⟩, view, word, rest, ?_, rfl, rfl, hterminated,
          (passesStrings_command (some view) _).mpr hpasses⟩
        rw [new_of_part hpart, hview]

end Strings

section Line

variable {line text : List Char} {found : List (List Char)} {first last : Nat}

theorem head?_eq_nul_iff (hline : line = List.replicate first ' ' ++
      (text ++ List.replicate last ' ')) (hwords : Separated ' ' text found) (behind : List Char) :
    (List.replicate last ' ' ++ nul :: behind).head? = some nul ↔ line.getLast? ≠ some ' ' := by
  rw [hline, hwords.getLast?_ne_iff]
  cases last with
  | zero => simp
  | succ last => simp [List.replicate_succ, nul]

-- The command and the arguments are proper strings exactly when no space ends
-- the line: nothing is written behind the last part.
theorem properStrings_iff (line behind : List Char) (hline : nul ∉ line)
    (hwords : ∃ c ∈ line, c ≠ ' ') :
    ProperStrings (line ++ nul :: behind) (words ' ' line) ↔ line.getLast? ≠ some ' ' := by
  obtain ⟨first, text, last, hinput, hseparated⟩ := exists_separated hwords
  have hsome := empty_eq_false (@at_new line behind ' ' true hline)
    (List.ne_nil_of_mem hwords.choose_spec.1)
  have hpasses := @passesStrings_iff ⟨Splitter.new (line ++ nul :: behind) ' ' true, none⟩ [] text
    (nul :: behind) _ first last hseparated (notMem_of_input hinput hline) rfl rfl
    (at_new_of_input hinput true hline)
  rw [← head?_eq_nul_iff hinput hseparated behind, ← hpasses]
  cases hfound : words ' ' line with
  | nil =>
      rw [hfound] at hseparated
      cases hseparated
  | cons word rest => exact properStrings_cons word rest hsome

theorem properStrings_iff_list :
    ProperStrings ("ls -pa".toList ++ [nul]) (words ' ' "ls -pa".toList) ↔
      "ls -pa".toList.getLast? ≠ some ' ' :=
  properStrings_iff "ls -pa".toList [] (by decide) ⟨'l', by decide, by decide⟩

-- The data() of the argument goes on with the space.
theorem last_keeps_space :
    ¬∀ line behind : List Char, nul ∉ line → (∃ c ∈ line, c ≠ ' ') →
      ProperStrings (line ++ nul :: behind) (words ' ' line) := by
  intro h
  obtain ⟨parser, view, command, arguments, hnew, -, hwords, -, hpasses⟩ :=
    h "ls -pa ".toList [] (by decide) ⟨'l', by decide, by decide⟩
  have hparts : words ' ' "ls -pa ".toList = ["ls".toList, "-pa".toList] := by decide
  rw [hparts] at hwords
  obtain ⟨-, rfl⟩ := List.cons.inj hwords
  obtain rfl := Except.ok.inj hnew
  obtain ⟨-, last, next, hnext, hterminated, -⟩ := hpasses
  obtain ⟨hlast, rfl⟩ := Prod.mk.inj (Except.ok.inj hnext)
  obtain rfl := Option.some.inj hlast
  exact absurd hterminated.string (by decide)

end Line

end CommandParser

end Msos.Shell
