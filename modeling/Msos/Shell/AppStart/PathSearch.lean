import Msos.Shell.AppStart.Arguments

namespace Msos.Shell

open Msos.Library CString Search Words Traced Splitter CommandParser
open Msos.Posix (Stream)

-- Calls of readdir return the names, one after the other.
inductive Reads : Stream → List (List Char) → Stream → Prop
  | nil (stream : Stream) : Reads stream [] stream
  | cons {stream next after : Stream} {name : List Char} {names : List (List Char)}
      (hname : stream.readdir = .ok (some name, next)) (hnames : Reads next names after) :
      Reads stream (name :: names) after

-- The calls of readdir come to nullptr.
def Ends (stream : Stream) : Prop :=
  ∃ names before after, Reads stream names before ∧ before.readdir = .ok (none, after)

namespace Environment

-- The directories of the path variable; an unset one has none.
def directories (environment : Environment) : List (List Char) :=
  words ';' (environment.path.getD [])

-- The directory can be opened, and readdir returns the command.
def Contains (environment : Environment) (command directory : List Char) : Prop :=
  ∃ stream names after, environment.opendir directory = some stream ∧
    Reads stream names after ∧ command ∈ names

end Environment

def openedBy : Event → Option (List Char)
  | .opendir dirname => some dirname
  | _ => none

def opened (events : List Event) : List (List Char) := events.filterMap openedBy

-- The directories are opened under their names in the order of the variable, up
-- to the first that contains the command; if there is none, that is reported;
-- and the request comes to its end.
def Searches (environment : Environment) (line command : List Char) : Prop :=
  ∃ fuel, (environment.appStart fuel (lineBuffer line)).result = .ok .continues ∧
    UpToFirst (environment.Contains command) environment.directories
      (opened (environment.appStart fuel (lineBuffer line)).events) ∧
    ((∀ directory ∈ environment.directories, ¬environment.Contains command directory) →
      ∃ text, .commandNotFound text ∈ (environment.appStart fuel (lineBuffer line)).events)

section Entries

variable {environment : Environment} {stream before after : Stream}
  {command nextDir dirname : List Char} {arguments names : List (List Char)} {found : Bool × Bool}

theorem opened_readEntries (fuel : Nat) :
    opened (environment.readEntries command arguments nextDir fuel stream found).events = [] := by
  have hexecs := @satisfies_readEntries environment fuel arguments (fun event => openedBy event = none)
    (fun _ => True) (fun _ => rfl) trivial (fun _ => trivial) command nextDir stream found
  exact List.filterMap_eq_nil_iff.mpr hexecs.events

-- The loop over the entries of a stream ends when the calls come to nullptr;
-- it has found nothing if the command is not one of the entries.
theorem result_readEntries (hreads : Reads stream names before)
    (hlast : before.readdir = .ok (none, after)) {fuel : Nat} (hfuel : names.length < fuel) :
    ∃ final, (environment.readEntries command arguments nextDir fuel stream found).result =
      .ok final ∧ (command ∉ names → final = found) := by
  induction hreads generalizing fuel found with
  | nil stream =>
      obtain ⟨fuel, rfl⟩ := Nat.exists_eq_add_of_lt hfuel
      rw [Environment.readEntries, hlast]
      exact ⟨found, rfl, fun _ => rfl⟩
  | @cons stream next last name names hname hnames ih =>
      cases fuel with
      | zero => exact absurd hfuel (Nat.not_lt_zero _)
      | succ fuel =>
          have hrest := Nat.lt_of_succ_lt_succ hfuel
          rw [Environment.readEntries, hname]
          by_cases hcommand : name = command
          · subst hcommand
            obtain ⟨final, hfinal, -⟩ := @ih (!environment.isMissing
              (environment.append nextDir name), true) hlast fuel hrest
            refine ⟨final, ?_, fun hno => absurd List.mem_cons_self hno⟩
            simp only [if_true, result_emit_bind]
            exact hfinal
          · obtain ⟨final, hfinal, hnone⟩ := @ih found hlast fuel hrest
            refine ⟨final, ?_, fun hno => hnone fun hmem => hno (List.mem_cons_of_mem _ hmem)⟩
            simp only [if_neg hcommand]
            exact hfinal

theorem ends_of_result {fuel : Nat} {final : Bool × Bool}
    (hresult : (environment.readEntries command arguments nextDir fuel stream found).result =
      .ok final) : Ends stream := by
  induction fuel generalizing stream found with
  | zero => cases hresult
  | succ fuel ih =>
      rw [Environment.readEntries] at hresult
      cases hnext : stream.readdir with
      | error fault =>
          rw [hnext] at hresult
          cases hresult
      | ok outcome =>
          obtain ⟨reply, next⟩ := outcome
          rw [hnext] at hresult
          cases reply with
          | none => exact ⟨[], stream, next, .nil stream, hnext⟩
          | some name =>
              have hrest : Ends next := by
                by_cases hcommand : name = command
                · simp only [hcommand, if_true, result_emit_bind] at hresult
                  exact ih hresult
                · simp only [if_neg hcommand] at hresult
                  exact ih hresult
              obtain ⟨names, before, after, hreads, hlast⟩ := hrest
              exact ⟨name :: names, before, after, .cons hnext hreads, hlast⟩

end Entries

section Directories

variable {environment : Environment} {command text : List Char}
  {arguments found : List (List Char)} {splitter : Splitter} {first last fuel : Nat}
  {commandFound : Bool}

theorem searchPath_empty (hempty : splitter.tmp.length = 0) (count : Nat) :
    environment.searchPath command arguments fuel (count + 1) splitter commandFound =
      pure commandFound := by
  rw [Environment.searchPath]
  exact if_pos (decide_eq_true hempty)

-- The name of the first directory goes on to the end of the variable.
theorem searchPath_first (hwords : Separated ';' text found) (hnul : nul ∉ text)
    (hdelimiter : splitter.delimiter = ';') (hinsert : splitter.insertNullCharacter = false)
    (hat : At splitter [] (List.replicate first ';' ++ (text ++ List.replicate last ';')) [nul])
    (count : Nat) :
    ∃ next nextDir, (found.length = 1 → next.tmp.length = 0) ∧
      environment.searchPath command arguments fuel (count + 1) splitter commandFound = (do
        emit (.opendir (text ++ List.replicate last ';'))
        (environment.opendir (text ++ List.replicate last ';')).elim
          (stop (.fault .nullDereference)) fun stream => do
            let entries ← environment.readEntries command arguments nextDir fuel stream
              (commandFound, false)
            environment.searchPath command arguments fuel count
              (if entries.2 then next.clear else next) entries.1) := by
  have hsome : splitter.empty = false := by
    obtain ⟨head, tail, rfl, -⟩ := hwords.exists_head
    exact empty_eq_false hat (by simp)
  have hname : string nul (splitter.buffer.drop (0 + first)) =
      text ++ List.replicate last ';' := by
    have hlast : nul ∉ text ++ List.replicate last ';' := by
      rw [List.mem_append, List.mem_replicate]
      rintro (h | ⟨-, h⟩)
      · exact hnul h
      · exact absurd h (by decide)
    have hdrop := drop_delimiters [] ((text ++ List.replicate last ';') ++ [nul]) ';' first
    rw [hat.buffer_eq, List.append_assoc]
    exact (congrArg (string nul) hdrop).trans (string_append_nul hlast [])
  have hpart : ∃ next view, splitter.getNextPart = .ok (some view, next) ∧ view.start = 0 + first ∧
      next.buffer = splitter.buffer ∧ (found.length = 1 → next.tmp.length = 0) := by
    cases hwords with
    | last hne hrun =>
        rw [← hdelimiter] at hrun hat
        exact ⟨_, _, getNextPart_last hne hrun hat, rfl, rfl, fun _ => rfl⟩
    | @more run rest others count hne hrun hrest =>
        rw [← hdelimiter] at hrun hat hrest
        obtain ⟨next, hpart, -, -, hbuffer, -⟩ :=
          getNextPart_more hrun (.more count hne hrun hrest) hat
        rw [hinsert] at hbuffer
        refine ⟨next, _, hpart, rfl, hbuffer, fun hone => ?_⟩
        have hnone : others = [] := List.length_eq_zero_iff.mp (Nat.succ_injective hone)
        subst hnone
        cases hrest
  obtain ⟨next, view, hpart, hstart, hbuffer, htmp⟩ := hpart
  refine ⟨next, view.text next.buffer, htmp, ?_⟩
  rw [Environment.searchPath, if_neg (by simp [hsome]), hpart, ofView_ok, pure_bind]
  simp only [Argument.ofPart, Argument.string, partText, hstart, hbuffer, hname]
  cases hopen : environment.opendir (text ++ List.replicate last ';') with
  | none => simp only [Option.elim_none]
  | some stream => simp only [Option.elim_some]

theorem opened_emit_bind {α : Type} (dirname : List Char) (next : PUnit → Action α) :
    opened (emit (.opendir dirname) >>= next).events = dirname :: opened (next ⟨⟩).events := rfl

theorem opened_append (before after : List Event) :
    opened (before ++ after) = opened before ++ opened after := List.filterMap_append

@[simp] theorem opened_nil : opened [] = [] := rfl

@[simp] theorem opened_commandNotFound (command : List Char) :
    opened [.commandNotFound command] = [] := rfl

-- The text is its first word alone, or is longer.
theorem eq_of_head? (hwords : Separated ';' text found)
    (hhead : found.head? = some (text ++ List.replicate last ';')) :
    found = [text] ∧ last = 0 := by
  cases hwords with
  | last hne hrun =>
      have hlength := congrArg List.length (Option.some.inj hhead)
      rw [List.length_append, List.length_replicate] at hlength
      exact ⟨rfl, by omega⟩
  | more count hne hrun hrest =>
      have hlength := congrArg List.length (Option.some.inj hhead)
      simp only [List.length_append, List.length_cons, List.length_replicate] at hlength
      omega

theorem eq_of_singleton {directory : List Char} (hwords : Separated ';' text [directory]) :
    text = directory := by
  cases hwords with
  | last hne hrun => rfl
  | more count hne hrun hrest => cases hrest

end Directories

section Variable

variable {environment : Environment} {command path : List Char} {arguments : List (List Char)}

-- The values of the variable that are searched as they should be: none or one
-- directory, which can be opened and read to its end.
def Searchable (environment : Environment) (path : List Char) : Prop :=
  path = [] ∨ ∃ directory stream, words ';' path = [directory] ∧ path.getLast? ≠ some ';' ∧
    environment.opendir directory = some stream ∧ Ends stream

theorem searchable_of_result (hpath : nul ∉ path) {fuel count : Nat} {final : Bool}
    (hresult : (environment.searchPath command arguments fuel count
      (Splitter.new (path ++ [nul]) ';' false) false).result = .ok final)
    (hopened : UpToFirst (environment.Contains command) (words ';' path)
      (opened (environment.searchPath command arguments fuel count
        (Splitter.new (path ++ [nul]) ';' false) false).events)) :
    Searchable environment path := by
  by_cases hempty : path = []
  · exact Or.inl hempty
  · right
    cases count with
    | zero => cases hresult
    | succ count =>
        by_cases hsome : ∃ c ∈ path, c ≠ ';'
        · obtain ⟨first, text, last, hinput, hwords⟩ := exists_separated hsome
          obtain ⟨next, nextDir, -, hrun⟩ := @searchPath_first environment command text arguments
            _ _ first last fuel false hwords (notMem_of_input hinput hpath) rfl rfl
            (at_new_of_input hinput false hpath) count
          rw [hrun, opened_emit_bind] at hopened
          obtain ⟨hone, rfl⟩ := eq_of_head? hwords hopened.head?_eq.symm
          rw [hrun, result_emit_bind, List.replicate_zero, List.append_nil] at hresult
          have hlast : path.getLast? ≠ some ';' := by
            rw [hinput]
            exact (hwords.getLast?_ne_iff first 0).mpr rfl
          cases hopen : environment.opendir text with
          | none =>
              rw [hopen] at hresult
              cases hresult
          | some stream =>
              rw [hopen, Option.elim_some] at hresult
              obtain ⟨found, hentries, -⟩ := result_bind_eq_ok.mp hresult
              exact ⟨text, stream, hone, hlast, hopen, ends_of_result hentries⟩
        · -- nothing but semicolons
          obtain ⟨count, hcount⟩ := Nat.exists_eq_succ_of_ne_zero
            (mt List.length_eq_zero_iff.mp hempty)
          have hall : path = List.replicate (count + 1) ';' := by
            rw [List.eq_replicate_iff]
            exact ⟨hcount, fun c hc => by_contra fun hne => hsome ⟨c, hc, hne⟩⟩
          have hat := @at_new path [] ';' false hpath
          have hfault : (Splitter.new (path ++ [nul]) ';' false).getNextPart =
              .error .outOfRange := by
            refine @getNextPart_delimiters _ [] [nul] count ?_
            exact hall ▸ hat
          rw [Environment.searchPath, if_neg (by simp [empty_eq_false hat hempty]), hfault] at hresult
          cases hresult

theorem exists_search (hpath : nul ∉ path) (h : Searchable environment path) :
    ∃ fuel final, (environment.searchPath command arguments fuel fuel
        (Splitter.new (path ++ [nul]) ';' false) false).result = .ok final ∧
      UpToFirst (environment.Contains command) (words ';' path)
        (opened (environment.searchPath command arguments fuel fuel
          (Splitter.new (path ++ [nul]) ';' false) false).events) ∧
      ((∀ directory ∈ words ';' path, ¬environment.Contains command directory) →
        final = false) := by
  rcases h with rfl | ⟨directory, stream, hone, hlast, hopen, names, before, after, hreads, hend⟩
  · refine ⟨1, false, ?_⟩
    rw [searchPath_empty (by rfl), words_nil]
    exact ⟨rfl, .done, fun _ => rfl⟩
  · have hsome : ∃ c ∈ path, c ≠ ';' := by
      by_contra hnone
      have hall : path = [] ++ List.replicate path.length ';' := by
        rw [List.nil_append, List.eq_replicate_iff]
        exact ⟨rfl, fun c hc => by_contra fun hne => hnone ⟨c, hc, hne⟩⟩
      rw [hall, words_append_replicate, words_nil] at hone
      cases hone
    obtain ⟨first, text, last, hinput, hwords⟩ := exists_separated hsome
    have hzero : last = 0 := by
      rw [hinput] at hlast
      exact (hwords.getLast?_ne_iff first last).mp hlast
    rw [hone] at hwords
    obtain rfl := eq_of_singleton hwords
    subst hzero
    obtain ⟨next, nextDir, hnext, hrun⟩ := @searchPath_first environment command text arguments
      _ _ first 0 (names.length + 2) false hwords (notMem_of_input hinput hpath) rfl rfl
      (at_new_of_input hinput false hpath) (names.length + 1)
    rw [List.replicate_zero, List.append_nil, hopen, Option.elim_some] at hrun
    obtain ⟨⟨final, isCleared⟩, hentries, hnone⟩ := @result_readEntries environment stream before
      after command nextDir arguments names (false, false) hreads hend (names.length + 2) (by omega)
    have hrest : environment.searchPath command arguments (names.length + 2) (names.length + 1)
        (if isCleared then next.clear else next) final = pure final := by
      refine searchPath_empty ?_ _
      cases isCleared with
      | true => rfl
      | false => exact hnext rfl
    refine ⟨names.length + 2, final, ?_, ?_, fun hno => ?_⟩
    · rw [hrun, result_emit_bind]
      simp only [result_bind_of_ok hentries, hrest, result_pure]
    · rw [hrun, opened_emit_bind]
      simp only [events_bind_of_ok hentries, hrest, events_pure, opened_append,
        opened_readEntries, hone]
      exact upToFirst_singleton _ _
    · have hmissing : command ∉ names := fun hmem =>
        hno text (hone ▸ List.mem_singleton_self text) ⟨stream, names, before, hopen, hreads, hmem⟩
      exact congrArg Prod.fst (hnone hmissing)

end Variable

-- A request whose command is not in the current directory
structure IsElsewhere (environment : Environment) (line command : List Char) : Prop where
  request : IsRequest line
  head? : (words ' ' line).head? = some command
  fopen : environment.fopen (environment.append environment.cwd command) = false
  path : ∀ path, environment.path = some path → nul ∉ path

section Searched

variable {environment : Environment} {line command path : List Char} {fuel : Nat}
  {parser after : CommandParser} {arguments : List Argument}

-- Neither a request to exit nor an absolute path is looked for.
theorem not_searches_of_exit (h : IsRequest line) (hexit : "exit".toList <:+: line) :
    ¬Searches environment line command := by
  rintro ⟨fuel, hresult, -⟩
  rw [appStart_exit h hexit] at hresult
  cases hresult

theorem not_searches_of_absolute (h : IsRequest line) (hexit : ¬"exit".toList <:+: line)
    (habsolute : isAbsolutePath (line.dropWhile (· = ' ')) = true) :
    ¬Searches environment line command := by
  rintro ⟨fuel, -, hopened, hreport⟩
  obtain ⟨path, hrun⟩ := @appStart_absolute environment line fuel h hexit habsolute
  rw [hrun] at hopened hreport
  have hnone : environment.directories = [] :=
    List.head?_eq_none_iff.mp hopened.head?_eq.symm
  obtain ⟨text, htext⟩ := hreport (by simp [hnone])
  cases List.mem_singleton.mp htext

theorem runCommand_eq (hcommand : parser.getCommand = command)
    (hafter : after.getCommand = command)
    (hfopen : environment.fopen (environment.append environment.cwd command) = false)
    (hcollect : collectArguments (argvSize - 1) parser = pure (arguments, after))
    (hpath : environment.path = some path) :
    environment.runCommand fuel parser = (do
      let commandFound ← environment.searchPath command
        (arguments.map (Argument.string after.splitter.buffer)) fuel fuel
        (Splitter.new (path ++ [nul]) ';' false) false
      if commandFound then return .continues
      else
        emit (.commandNotFound ((Argument.ofPart after.command).string after.splitter.buffer))
        return .continues) := by
  rw [Environment.runCommand, hcollect, pure_bind, hcommand]
  dsimp only
  rw [if_neg (by simp [hfopen]), hpath, hafter]

theorem runCommand_unset (hcommand : parser.getCommand = command)
    (hfopen : environment.fopen (environment.append environment.cwd command) = false)
    (hcollect : collectArguments (argvSize - 1) parser = pure (arguments, after))
    (hpath : environment.path = none) :
    environment.runCommand fuel parser = stop (.fault .nullDereference) := by
  rw [Environment.runCommand, hcollect, pure_bind, hcommand]
  dsimp only
  rw [if_neg (by simp [hfopen]), hpath]

-- A command by name, with its arguments collected
theorem searches_named (hnul : nul ∉ path) (hcommand : parser.getCommand = command)
    (hafter : after.getCommand = command)
    (hfopen : environment.fopen (environment.append environment.cwd command) = false)
    (hcollect : collectArguments (argvSize - 1) parser = pure (arguments, after))
    (hpath : environment.path = some path)
    (hrun : ∀ fuel, environment.appStart fuel (lineBuffer line) =
      environment.runCommand fuel parser) :
    Searches environment line command ↔ Searchable environment path := by
  have hdirectories : environment.directories = words ';' path := by
    rw [Environment.directories, hpath, Option.getD_some]
  constructor
  · rintro ⟨fuel, hresult, hopened, -⟩
    rw [hrun, runCommand_eq hcommand hafter hfopen hcollect hpath] at hresult hopened
    obtain ⟨final, hsearch, -⟩ := result_bind_eq_ok.mp hresult
    refine searchable_of_result hnul hsearch ?_
    rw [events_bind_of_ok hsearch, opened_append, hdirectories] at hopened
    cases final with
    | true => simpa using hopened
    | false => simpa using hopened
  · intro hsearchable
    obtain ⟨fuel, final, hsearch, hopened, hnone⟩ := @exists_search environment command path
      (arguments.map (Argument.string after.splitter.buffer)) hnul hsearchable
    refine ⟨fuel, ?_⟩
    rw [hrun, runCommand_eq hcommand hafter hfopen hcollect hpath, result_bind_of_ok hsearch,
      events_bind_of_ok hsearch, opened_append, hdirectories]
    cases final with
    | true =>
        refine ⟨rfl, by simpa using hopened, fun hno => ?_⟩
        exact absurd (hnone hno) (by decide)
    | false =>
        refine ⟨rfl, by simpa using hopened, fun _ => ?_⟩
        exact ⟨_, List.mem_append_right _ List.mem_cons_self⟩

-- The search is right exactly for a command by name with at most ten words, a
-- variable that is set, and in it at most one directory, without a semicolon
-- behind it and with an opendir that does not fail.
theorem searches_iff (h : IsElsewhere environment line command) :
    Searches environment line command ↔ ¬"exit".toList <:+: line ∧
      isAbsolutePath (line.dropWhile (· = ' ')) = false ∧
      (words ' ' line).length ≤ argvSize ∧
      ∃ path, environment.path = some path ∧ Searchable environment path := by
  by_cases hexit : "exit".toList <:+: line
  · exact iff_of_false (not_searches_of_exit h.request hexit) fun hall => hall.1 hexit
  · rw [and_iff_right hexit]
    cases habsolute : isAbsolutePath (line.dropWhile (· = ' ')) with
    | true =>
        refine iff_of_false (not_searches_of_absolute h.request hexit habsolute) fun hall => ?_
        exact Bool.noConfusion hall.1
    | false =>
        obtain ⟨behind, hbuffer⟩ := h.request.exists_behind
        obtain ⟨parser, first, others, hparser, hwords, hcommand, hcollect⟩ :=
          exists_parsed line behind h.request.notMem h.request.exists_ne
        have hfirst := h.head?
        rw [hwords, List.head?_cons, Option.some.injEq] at hfirst
        subst hfirst
        rw [← hbuffer] at hparser
        have hrun := fun fuel => @appStart_named environment line fuel h.request hexit habsolute
          parser hparser
        obtain ⟨hoverflow, hfits⟩ := hcollect (argvSize - 1)
        rw [and_iff_right rfl, hwords, List.length_cons]
        rcases Nat.lt_or_ge (argvSize - 1) others.length with hmany | hfew
        · refine iff_of_false ?_ fun hall => ?_
          · rintro ⟨fuel, hresult, -⟩
            rw [hrun, Environment.runCommand, hoverflow hmany] at hresult
            cases hresult
          · have hcount := hall.1
            simp only [argvSize] at hmany hcount
            omega
        · obtain ⟨arguments, after, hpure, -, hafter, -⟩ := hfits hfew
          have hcount : others.length + 1 ≤ argvSize := by
            simp only [argvSize] at hfew ⊢
            omega
          rw [and_iff_right hcount]
          cases hpath : environment.path with
          | none =>
              refine iff_of_false ?_ (by simp)
              rintro ⟨fuel, hresult, -⟩
              rw [hrun, runCommand_unset hcommand h.fopen hpure hpath] at hresult
              cases hresult
          | some path =>
              rw [searches_named (h.path path hpath) hcommand hafter h.fopen hpure hpath hrun]
              simp

end Searched

section Systems

def joined (path : Msos.Fs.Path) (name : List Char) : Msos.Fs.Path :=
  if path.getLast? = some '/' then path ++ name else path ++ '/' :: name

-- A system with one directory, that of the binaries.
def withPath (path : List Char) : Environment where
  cwd := "/".toList
  append := joined
  fopen := fun _ => false
  path := some path
  opendir := fun dirname =>
    if dirname = "/bin".toList then some ⟨⟨[.ramfsFile ⟨1, 0, "ls".toList⟩], 0⟩, []⟩ else none
  isMissing := fun _ => false

theorem searches_iff_bin :
    Searches (withPath "/bin".toList) "ls -pa".toList "ls".toList ↔
      ¬"exit".toList <:+: "ls -pa".toList ∧
      isAbsolutePath ("ls -pa".toList.dropWhile (· = ' ')) = false ∧
      (words ' ' "ls -pa".toList).length ≤ argvSize ∧
      ∃ path, (withPath "/bin".toList).path = some path ∧
        Searchable (withPath "/bin".toList) path :=
  searches_iff {
    request := ⟨by decide, by decide, ⟨'l', by decide, by decide⟩⟩
    head? := by decide
    fopen := rfl
    path := fun path hpath => Option.some.inj hpath ▸ by decide }

-- The name that is opened first is the whole variable, and readdir gets the
-- null that opendir returns for it.
theorem first_directory_not_opened :
    ¬∀ (environment : Environment) (line command : List Char),
      IsElsewhere environment line command → Searches environment line command := by
  intro h
  have helsewhere : IsElsewhere (withPath "/bin;/sbin".toList) "ls".toList "ls".toList :=
    { request := ⟨by decide, by decide, ⟨'l', by decide, by decide⟩⟩
      head? := by decide
      fopen := rfl
      path := fun path hpath => Option.some.inj hpath ▸ by decide }
  obtain ⟨fuel, hresult, -⟩ := h _ _ _ helsewhere
  cases fuel with
  | zero => cases hresult
  | succ fuel =>
      have hfault : ((withPath "/bin;/sbin".toList).appStart (fuel + 1)
          (lineBuffer "ls".toList)).result = .error (.fault .nullDereference) := rfl
      rw [hfault] at hresult
      cases hresult

end Systems

end Msos.Shell
