import Msos.Shell.AppStart

namespace Msos.Shell

open Msos.Library CString Search Words Traced Splitter CommandParser

section Collect

variable {splitter next : Splitter} {parser : CommandParser}
  {before text behind run rest : List Char} {found : List (List Char)} {first last count : Nat}

@[simp] theorem ofView_ok {α : Type} (value : α) : ofView (.ok value) = pure value := rfl

theorem collectArguments_empty (h : parser.splitter.empty = true) (free : Nat) :
    collectArguments free parser = pure ([], parser) := by
  cases free with
  | zero => exact if_pos h
  | succ free => exact if_pos h

theorem collectArguments_zero (h : parser.splitter.empty = false) :
    collectArguments 0 parser = stop (.fault .argvOverflow) :=
  if_neg (by simp [h])

theorem collectArguments_succ {part : Option View} {after : CommandParser}
    (h : parser.splitter.empty = false) (hpart : parser.getNextArgument = .ok (part, after))
    (free : Nat) :
    collectArguments (free + 1) parser = (do
      let (arguments, parser) ← collectArguments free after
      return (.ofPart part :: arguments, parser)) := by
  rw [collectArguments, if_neg (by simp [h]), hpart]
  rfl

-- The data() of a part is the word, from the null behind it on for good.
theorem string_of_front {buffer : List Char} {delimiter : Char} (hrun : nul ∉ run)
    (h : before ++ (List.replicate first delimiter ++ (run ++ [nul])) <+: buffer) :
    string nul (buffer.drop (before.length + first)) = run := by
  obtain ⟨behind, rfl⟩ := h
  rw [List.append_assoc, List.append_assoc, drop_delimiters, List.append_assoc]
  exact string_append_nul hrun behind

-- The words of a text that are argv entries: one for each, as long as entries
-- are left. They are the words unless delimiters are behind the last one.
theorem collectArguments_separated (hwords : Separated ' ' text found) (htext : nul ∉ text)
    (hbehind : behind ≠ []) (hdelimiter : parser.splitter.delimiter = ' ')
    (hinsert : parser.splitter.insertNullCharacter = true)
    (hat : At parser.splitter before (List.replicate first ' ' ++
      (text ++ List.replicate last ' ')) behind) (free : Nat) :
    (free < found.length → collectArguments free parser = stop (.fault .argvOverflow)) ∧
      (found.length ≤ free → ∃ arguments after,
        collectArguments free parser = pure (arguments, after) ∧
          arguments.length = found.length ∧ before <+: after.splitter.buffer ∧
          after.command = parser.command ∧
          (arguments.map (Argument.string after.splitter.buffer) = found ↔
            (List.replicate last ' ' ++ behind).head? = some nul)) := by
  induction hwords generalizing parser before first last behind free with
  | @last run hne hrun =>
      rw [← hdelimiter] at hrun hat ⊢
      have hsome := empty_eq_false hat (by simp [hne])
      cases free with
      | zero => exact ⟨fun _ => collectArguments_zero hsome, fun h => absurd h (by simp)⟩
      | succ free =>
          refine ⟨fun h => absurd h (by simp), fun _ => ?_⟩
          have hpart := getNextArgument_of_part (getNextPart_last hne hrun hat)
          rw [collectArguments_succ hsome hpart, collectArguments_empty rfl]
          refine ⟨_, _, rfl, rfl, ?_, rfl, ?_⟩
          · rw [hat.buffer_eq]
            exact List.prefix_append _ _
          · have hdrop : parser.splitter.buffer.drop (before.length + first) =
                run ++ (List.replicate last parser.splitter.delimiter ++ behind) := by
              rw [hat.buffer_eq, List.append_assoc, drop_delimiters, List.append_assoc]
            rw [← string_eq_nil_iff (List.append_ne_nil_of_right_ne_nil _ hbehind)]
            simp only [List.map_cons, List.map_nil, Argument.ofPart, Argument.string, hdrop,
              string_append htext, List.cons.injEq, and_true]
            exact List.append_right_eq_self
  | @more run rest others count hne hrun hrest ih =>
      have hnul := notMem_parts htext
      rw [← hdelimiter] at hrun hat hrest ⊢
      have hsome := empty_eq_false hat (by simp [hne])
      cases free with
      | zero => exact ⟨fun _ => collectArguments_zero hsome, fun h => absurd h (by simp)⟩
      | succ free =>
          obtain ⟨next, hnext, hsame, hmode, -, hothers⟩ :=
            getNextPart_more hrun (.more count hne hrun hrest) hat
          have hpart := getNextArgument_of_part hnext
          obtain ⟨hoverflow, hfits⟩ := @ih { parser with splitter := next } _ _ _ _ hnul.2
            (List.append_ne_nil_of_right_ne_nil _ hbehind) (hsame.trans hdelimiter)
            (hmode.trans hinsert) (hdelimiter ▸ hothers) free
          rw [collectArguments_succ hsome hpart, List.length_cons]
          refine ⟨fun h => ?_, fun h => ?_⟩
          · rw [hoverflow (Nat.lt_of_succ_lt_succ h), stop_bind]
          · obtain ⟨arguments, after, hcollect, hlength, hkept, hcommand, hstrings⟩ :=
              hfits (Nat.le_of_succ_le_succ h)
            rw [hcollect]
            refine ⟨_, _, rfl, congrArg (· + 1) hlength, (List.prefix_append _ _).trans hkept,
              hcommand, ?_⟩
            rw [mark, if_pos hinsert] at hkept
            rw [List.replicate_zero, List.nil_append, ← hdelimiter] at hstrings
            rw [List.map_cons, List.cons.injEq, ← hstrings]
            exact and_iff_right (string_of_front hnul.1 hkept)

end Collect

section Parse

-- What the parser makes of a line with a word: the first one is the command,
-- and the others become the arguments.
theorem exists_parsed (line behind : List Char) (hline : nul ∉ line) (hwords : ∃ c ∈ line, c ≠ ' ') :
    ∃ parser command others, CommandParser.new (line ++ nul :: behind) = .ok parser ∧
      words ' ' line = command :: others ∧ parser.getCommand = command ∧ ∀ free,
        (free < others.length → collectArguments free parser = stop (.fault .argvOverflow)) ∧
        (others.length ≤ free → ∃ arguments after,
          collectArguments free parser = pure (arguments, after) ∧
            arguments.length = others.length ∧ after.getCommand = command ∧
            (arguments.map (Argument.string after.splitter.buffer) = others ↔
              others = [] ∨ line.getLast? ≠ some ' ')) := by
  obtain ⟨first, text, last, hinput, hseparated⟩ := exists_separated hwords
  have hnul := notMem_of_input hinput hline
  have hat := @at_new_of_input text behind line ' ' first last hinput true hline
  have hend := head?_eq_nul_iff hinput hseparated behind
  generalize words ' ' line = found at hseparated ⊢
  cases hseparated with
  | last hne hrun =>
      have hpart := getNextPart_last hne hrun hat
      have hcommand : View.text (line ++ nul :: behind) ⟨0 + first, text.length⟩ =
          text := by
        refine @text_of_front [] text _ first ' ' ?_
        rw [hinput]
        exact ⟨List.replicate last ' ' ++ nul :: behind, by simp⟩
      refine ⟨_, text, [], new_of_part hpart, rfl, hcommand, fun free => ?_⟩
      refine ⟨fun h => absurd h (Nat.not_lt_zero _), fun _ => ?_⟩
      exact ⟨[], _, collectArguments_empty rfl free, rfl, hcommand, by simp⟩
  | @more run rest others count hne hrun hrest =>
      obtain ⟨next, hpart, hsame, hmode, -, hothers⟩ :=
        getNextPart_more hrun (.more count hne hrun hrest) hat
      have hcommand : ∀ buffer, [] ++ (List.replicate first ' ' ++ (run ++ [nul])) <+: buffer →
          View.text buffer ⟨0 + first, run.length⟩ = run := by
        intro buffer h
        have hfront : [] ++ (List.replicate first ' ' ++ run) <+:
            [] ++ (List.replicate first ' ' ++ (run ++ [nul])) := ⟨[nul], by simp⟩
        exact text_of_front (hfront.trans h)
      refine ⟨_, run, others, new_of_part hpart, rfl, hcommand _ ?_, fun free => ?_⟩
      · rw [hothers.buffer_eq]
        exact List.prefix_append _ _
      · obtain ⟨hoverflow, hfits⟩ := @collectArguments_separated
          ⟨next, some ⟨0 + first, run.length⟩⟩ _ _ _ _ _ _ hrest (notMem_parts hnul).2
          (List.append_ne_nil_of_right_ne_nil _ (List.cons_ne_nil _ _)) hsame hmode hothers free
        refine ⟨hoverflow, fun h => ?_⟩
        obtain ⟨arguments, after, hcollect, hlength, hkept, hkeeps, hstrings⟩ := hfits h
        refine ⟨arguments, after, hcollect, hlength, ?_, ?_⟩
        · rw [getCommand, hkeeps]
          exact hcommand _ hkept
        · rw [hstrings, ← hend]
          have hsome : others ≠ [] := by
            rintro rfl
            cases hrest
          exact (or_iff_right hsome).symm

end Parse

-- A line that fits the buffer with its end and is not blank
structure IsRequest (line : List Char) : Prop where
  notMem : nul ∉ line
  fits : line.length < bufferSize
  notBlank : ∃ c ∈ line, isspace c = false

section Requests

variable {environment : Environment} {line : List Char} {fuel : Nat} (h : IsRequest line)
include h

theorem IsRequest.exists_ne : ∃ c ∈ line, c ≠ ' ' := by
  obtain ⟨c, hc, hspace⟩ := h.notBlank
  refine ⟨c, hc, fun he => ?_⟩
  rw [he] at hspace
  exact absurd hspace (by decide)

theorem IsRequest.exists_behind : ∃ behind, lineBuffer line = line ++ nul :: behind := by
  have hfits := h.fits
  obtain ⟨count, hcount⟩ := Nat.exists_eq_add_of_lt hfits
  refine ⟨List.replicate count nul, ?_⟩
  rw [lineBuffer, ← List.replicate_succ]
  congr 2
  omega

theorem IsRequest.string_eq : string nul (lineBuffer line) = line := by
  obtain ⟨behind, hbuffer⟩ := h.exists_behind
  rw [hbuffer, string_append_nul h.notMem]

theorem IsRequest.all_eq_false : line.all isspace = false := by
  obtain ⟨c, hc, hspace⟩ := h.notBlank
  exact List.all_eq_false.mpr ⟨c, hc, by simp [hspace]⟩

theorem appStart_exit (hexit : "exit".toList <:+: line) :
    environment.appStart fuel (lineBuffer line) = pure .returns := by
  rw [Environment.appStart, h.string_eq]
  rw [if_neg (by simp [h.all_eq_false]), if_pos ((find_isSome_iff _ _).mpr hexit)]

-- Behind the spaces in front starts the command.
theorem IsRequest.exists_first : ∃ first, findFirstNotOf ' ' line = some first ∧
    line.drop first = line.dropWhile (· = ' ') := by
  cases hfirst : findFirstNotOf ' ' line with
  | none =>
      obtain ⟨c, hc, hne⟩ := h.exists_ne
      rw [findFirstNotOf, List.findIdx?_eq_none_iff] at hfirst
      exact absurd (hfirst c hc) (by simp [hne])
  | some first => exact ⟨first, rfl, drop_findFirstNotOf hfirst⟩

theorem appStart_absolute (hexit : ¬"exit".toList <:+: line)
    (habsolute : isAbsolutePath (line.dropWhile (· = ' ')) = true) :
    ∃ path, environment.appStart fuel (lineBuffer line) =
      (do emit (.exec path 1 [path]); return .continues) := by
  obtain ⟨first, hfirst, hdrop⟩ := h.exists_first
  refine ⟨string nul ((lineBuffer line).drop first), ?_⟩
  rw [Environment.appStart, h.string_eq, if_neg (by simp [h.all_eq_false]),
    if_neg (mt (find_isSome_iff _ _).mp hexit), hfirst]
  exact if_pos (hdrop ▸ habsolute)

theorem appStart_named (hexit : ¬"exit".toList <:+: line)
    (hname : isAbsolutePath (line.dropWhile (· = ' ')) = false) {parser : CommandParser}
    (hparser : CommandParser.new (lineBuffer line) = .ok parser) :
    environment.appStart fuel (lineBuffer line) = environment.runCommand fuel parser := by
  obtain ⟨first, hfirst, hdrop⟩ := h.exists_first
  rw [Environment.appStart, h.string_eq, if_neg (by simp [h.all_eq_false]),
    if_neg (mt (find_isSome_iff _ _).mp hexit), hfirst]
  refine (if_neg (by rw [hdrop, hname]; exact Bool.false_ne_true)).trans ?_
  rw [hparser, ofView_ok, pure_bind]

end Requests

section Vector

variable {environment : Environment} {fuel : Nat}

-- An exec with some arguments behind argv[0]
def Passes (arguments : List (List Char)) : Event → Prop
  | .exec _ argc argv => argc = arguments.length + 1 ∧ argv.tail = arguments
  | _ => True

-- No index of argv is out of its bounds, and every exec gets the words behind
-- the first one.
def PassesWords (line : List Char) : Prop :=
  ∀ (environment : Environment) (fuel : Nat),
    (environment.appStart fuel (lineBuffer line)).result ≠ .error (.fault .argvOverflow) ∧
      ∀ path argc argv, Event.exec path argc argv ∈
          (environment.appStart fuel (lineBuffer line)).events →
        argc = (words ' ' line).length ∧ argv.tail = (words ' ' line).tail

def InBounds (reason : Stop) : Prop := reason ≠ .fault .argvOverflow

theorem satisfies_ofView {α : Type} {P : Event → Prop} (result : Except ViewFault α) :
    Satisfies P InBounds (ofView result) := by
  cases result with
  | error fault => exact .of_stop (by simp [InBounds])
  | ok value => exact .of_pure value

variable (arguments : List (List Char))

-- The loop over readdir only executes programs, and with the same arguments.
theorem satisfies_readEntries {P : Event → Prop} {Q : Stop → Prop}
    (hexec : ∀ path, P (.exec path (arguments.length + 1) (path :: arguments)))
    (hrunning : Q .running) (hname : ∀ fault, Q (.fault (.name fault)))
    (command nextDir : List Char) (stream : Posix.Stream) (found : Bool × Bool) :
    Satisfies P Q (environment.readEntries command arguments nextDir fuel stream found) := by
  induction fuel generalizing stream found with
  | zero => exact .of_stop hrunning
  | succ fuel ih =>
      rw [Environment.readEntries]
      split
      · exact .of_stop (hname _)
      · exact .of_pure _
      · split
        · exact .emit_bind (hexec _) (ih _ _)
        · exact ih _ _

theorem satisfies_searchPath (command : List Char) (count : Nat) (splitter : Splitter)
    (found : Bool) :
    Satisfies (Passes arguments) InBounds
      (environment.searchPath command arguments fuel count splitter found) := by
  induction count generalizing splitter found with
  | zero => exact .of_stop (by simp [InBounds])
  | succ count ih =>
      rw [Environment.searchPath]
      split
      · exact .of_pure _
      · refine .bind (satisfies_ofView _) fun part _ => .emit_bind trivial ?_
        split
        · exact .of_stop (by simp [InBounds])
        · refine .bind (satisfies_readEntries arguments (fun _ => ⟨rfl, rfl⟩) ?_ ?_ _ _ _ _)
            fun found _ => ih _ _
          · simp [InBounds]
          · simp [InBounds]

theorem satisfies_runCommand {parser after : CommandParser} {collected : List Argument}
    (hcollect : collectArguments (argvSize - 1) parser = pure (collected, after)) :
    Satisfies (Passes (collected.map (Argument.string after.splitter.buffer))) InBounds
      (environment.runCommand fuel parser) := by
  have hlength : collected.length =
      (collected.map (Argument.string after.splitter.buffer)).length := by rw [List.length_map]
  rw [Environment.runCommand, hcollect, pure_bind]
  dsimp only
  split
  · exact .emit_bind ⟨congrArg (· + 1) hlength, rfl⟩ (.of_pure _)
  · split
    · exact .of_stop (by simp [InBounds])
    · refine .bind (satisfies_searchPath _ _ _ _ _) fun found _ => ?_
      split
      · exact .of_pure _
      · exact .emit_bind trivial (.of_pure _)

end Vector

section Words

variable {line : List Char}

-- Every file is in the current directory.
def filesHere : Environment :=
  ⟨"/".toList, (· ++ ·), fun _ => true, none, fun _ => none, fun _ => false⟩

theorem passesWords_absolute (h : IsRequest line) (hexit : ¬"exit".toList <:+: line)
    (habsolute : isAbsolutePath (line.dropWhile (· = ' ')) = true) :
    PassesWords line ↔ (words ' ' line).length = 1 := by
  constructor
  · intro hpasses
    obtain ⟨path, hrun⟩ := @appStart_absolute filesHere line 0 h hexit habsolute
    refine ((hpasses filesHere 0).2 path 1 [path] ?_).1.symm
    rw [hrun]
    exact List.mem_cons_self
  · intro hone environment fuel
    obtain ⟨path, hrun⟩ := @appStart_absolute environment line fuel h hexit habsolute
    rw [hrun]
    refine ⟨(fun hno => nomatch hno), fun other argc argv hevent => ?_⟩
    obtain ⟨rfl, rfl, rfl⟩ := Event.exec.inj (List.mem_singleton.mp hevent)
    have htail : (words ' ' line).tail = [] := by
      rw [← List.length_eq_zero_iff, List.length_tail, hone]
    exact ⟨hone.symm, htail.symm⟩

theorem passesWords_named (h : IsRequest line) (hexit : ¬"exit".toList <:+: line)
    (hname : isAbsolutePath (line.dropWhile (· = ' ')) = false) :
    PassesWords line ↔ (words ' ' line).length ≤ argvSize ∧
      ((words ' ' line).length = 1 ∨ line.getLast? ≠ some ' ') := by
  obtain ⟨behind, hbuffer⟩ := h.exists_behind
  obtain ⟨parser, command, others, hparser, hwords, -, hcollect⟩ :=
    exists_parsed line behind h.notMem h.exists_ne
  rw [← hbuffer] at hparser
  obtain ⟨hoverflow, hfits⟩ := hcollect (argvSize - 1)
  have hlength : (words ' ' line).length = others.length + 1 := by
    rw [hwords, List.length_cons]
  have hnil : (words ' ' line).length = 1 ↔ others = [] := by
    rw [hlength, ← List.length_eq_zero_iff]
    omega
  rw [hnil]
  rcases Nat.lt_or_ge (argvSize - 1) others.length with hmany | hfew
  · -- the loop writes behind the last entry, whatever the environment is
    have hcount : ¬(words ' ' line).length ≤ argvSize := by
      rw [hlength]
      simp only [argvSize] at hmany ⊢
      omega
    refine iff_of_false (fun hpasses => ?_) (fun hboth => hcount hboth.1)
    refine (hpasses filesHere 0).1 ?_
    rw [appStart_named h hexit hname hparser, Environment.runCommand, hoverflow hmany]
    rfl
  · obtain ⟨arguments, after, hpure, hsame, -, hstrings⟩ := hfits hfew
    have hcount : (words ' ' line).length ≤ argvSize := by
      rw [hlength]
      simp only [argvSize] at hfew ⊢
      omega
    rw [and_iff_right hcount, ← hstrings]
    constructor
    · intro hpasses
      have hexec := (hpasses filesHere 0).2
      rw [appStart_named h hexit hname hparser, Environment.runCommand, hpure, pure_bind] at hexec
      have hargv := (hexec _ _ _ List.mem_cons_self).2
      rw [hwords] at hargv
      exact hargv
    · intro hgiven environment fuel
      have hrun := @satisfies_runCommand environment fuel parser after arguments hpure
      rw [appStart_named h hexit hname hparser]
      refine ⟨fun hstop => hrun.stop _ hstop rfl, fun path argc argv hevent => ?_⟩
      obtain ⟨hargc, hargv⟩ := hrun.events _ hevent
      rw [hgiven] at hargc hargv
      rw [hwords]
      exact ⟨hargc, hargv⟩

-- The words are the arguments exactly when the line says exit, or is an absolute
-- path alone, or has at most ten words of which the last of several ends it.
theorem passesWords_iff (h : IsRequest line) :
    PassesWords line ↔ "exit".toList <:+: line ∨
      if isAbsolutePath (line.dropWhile (· = ' ')) then (words ' ' line).length = 1
      else (words ' ' line).length ≤ argvSize ∧
        ((words ' ' line).length = 1 ∨ line.getLast? ≠ some ' ') := by
  by_cases hexit : "exit".toList <:+: line
  · refine iff_of_true (fun environment fuel => ?_) (Or.inl hexit)
    rw [appStart_exit h hexit]
    exact ⟨(fun hno => nomatch hno), fun _ _ _ hevent => nomatch hevent⟩
  · rw [or_iff_right hexit]
    cases habsolute : isAbsolutePath (line.dropWhile (· = ' ')) with
    | true => exact (passesWords_absolute h hexit habsolute).trans (by simp)
    | false => exact (passesWords_named h hexit habsolute).trans (by simp)

theorem passesWords_iff_list :
    PassesWords "ls -pa".toList ↔ "exit".toList <:+: "ls -pa".toList ∨
      if isAbsolutePath ("ls -pa".toList.dropWhile (· = ' ')) then
        (words ' ' "ls -pa".toList).length = 1
      else (words ' ' "ls -pa".toList).length ≤ argvSize ∧
        ((words ' ' "ls -pa".toList).length = 1 ∨ "ls -pa".toList.getLast? ≠ some ' ') :=
  passesWords_iff ⟨by decide, by decide, ⟨'l', by decide, by decide⟩⟩

-- Eleven words are one too many, and an absolute path takes no arguments.
theorem words_not_passed :
    (IsRequest "ls b c d e f g h i j k".toList ∧ ¬PassesWords "ls b c d e f g h i j k".toList) ∧
      IsRequest "/bin/ls -pa".toList ∧ ¬PassesWords "/bin/ls -pa".toList := by
  refine ⟨⟨⟨by decide, by decide, ⟨'l', by decide, by decide⟩⟩, fun h => ?_⟩,
    ⟨by decide, by decide, ⟨'l', by decide, by decide⟩⟩, fun h => ?_⟩
  · exact (h filesHere 0).1 rfl
  · have hargc := ((h filesHere 0).2
      "/bin/ls -pa".toList 1 ["/bin/ls -pa".toList] (by decide)).1
    exact absurd hargc (by decide)

end Words

end Msos.Shell
