import Msos.Shell.AppStart.Arguments

namespace Msos.Shell

open Msos.Library CString Search Traced CommandParser

section Buffers

@[simp] theorem View.stop_mk (start length : Nat) : View.stop ⟨start, length⟩ = start + length := rfl

variable {size : Nat} {buffer other : List Char}

-- Two buffers with the same text and its end; what is behind may differ.
structure SameUpTo (size : Nat) (buffer other : List Char) : Prop where
  take : buffer.take size = other.take size
  null : buffer[size]? = some nul
  null' : other[size]? = some nul

theorem sameUpTo_append (text behind rest : List Char) :
    SameUpTo text.length (text ++ nul :: behind) (text ++ nul :: rest) := by
  refine ⟨?_, ?_, ?_⟩
  · rw [List.take_left, List.take_left]
  · simp
  · simp

theorem SameUpTo.set (h : SameUpTo size buffer other) (i : Nat) :
    SameUpTo size (buffer.set i nul) (other.set i nul) := by
  have hkeep {text : List Char} (hnull : text[size]? = some nul) :
      (text.set i nul)[size]? = some nul := by
    obtain ⟨hsize, -⟩ := List.getElem?_eq_some_iff.mp hnull
    rw [List.getElem?_set]
    split
    · next he => rw [if_pos (by omega)]
    · exact hnull
  refine ⟨?_, hkeep h.null, hkeep h.null'⟩
  rw [List.take_set, List.take_set, h.take]

-- A buffer is its text, the null and what is behind it.
theorem eq_of_null (h : buffer[size]? = some nul) :
    (buffer.take size).length = size ∧
      buffer = buffer.take size ++ nul :: buffer.drop (size + 1) := by
  obtain ⟨hsize, hget⟩ := List.getElem?_eq_some_iff.mp h
  refine ⟨by rw [List.length_take]; omega, ?_⟩
  rw [← hget, List.getElem_cons_drop, List.take_append_drop]

theorem SameUpTo.string_drop (h : SameUpTo size buffer other) {start : Nat} (hstart : start ≤ size) :
    string nul (buffer.drop start) = string nul (other.drop start) := by
  obtain ⟨hlength, hbuffer⟩ := eq_of_null h.null
  obtain ⟨hlength', hother⟩ := eq_of_null h.null'
  rw [hbuffer, hother, List.drop_append_of_le_length (by omega),
    List.drop_append_of_le_length (by omega), string_end, string_end, h.take]

theorem SameUpTo.text (h : SameUpTo size buffer other) {view : View} (hview : view.stop ≤ size) :
    view.text buffer = view.text other := by
  rw [View.stop] at hview
  have hfront (text : List Char) :
      view.text text = ((text.take size).drop view.start).take view.length := by
    rw [View.text, List.drop_take, List.take_take, Nat.min_eq_left (by omega)]
  rw [hfront, hfront, h.take]

theorem length_text_le (buffer : List Char) (view : View) :
    (view.text buffer).length ≤ view.length := by
  rw [View.text, List.length_take]
  omega

end Buffers

section Parts

variable {size : Nat} {splitter : Splitter} {buffer : List Char}

theorem findFirstNotOf_lt {text : List Char} {delimiter : Char} {first : Nat}
    (h : findFirstNotOf delimiter text = some first) : first < text.length := by
  obtain ⟨hlt, -⟩ := List.findIdx?_eq_some_iff_getElem.mp h
  exact hlt

theorem findLastNotOf_lt {text : List Char} {delimiter : Char} {last : Nat}
    (h : findLastNotOf delimiter text = some last) : last < text.length := by
  induction text generalizing last with
  | nil => cases h
  | cons head rest ih =>
      rw [findLastNotOf] at h
      cases hrest : findLastNotOf delimiter rest with
      | some index =>
          rw [hrest] at h
          have hindex := ih hrest
          obtain rfl := Option.some.inj h
          rw [List.length_cons]
          omega
      | none =>
          simp only [hrest] at h
          split at h
          · obtain rfl := Option.some.inj h
            exact Nat.succ_pos _
          · cases h

theorem trimmed_le (delimiter : Char) (text : List Char) :
    (findLastNotOf delimiter text).elim 0 (· + 1) ≤ text.length := by
  cases hlast : findLastNotOf delimiter text with
  | none => exact Nat.zero_le _
  | some last =>
      have hlt := findLastNotOf_lt hlast
      exact hlt

-- A part is found by what is in front of the end alone.
theorem getNextPart_behind (h : SameUpTo size splitter.buffer buffer)
    (hstop : splitter.tmp.stop ≤ size) :
    (∃ fault, splitter.getNextPart = .error fault ∧
      { splitter with buffer := buffer }.getNextPart = .error fault) ∨
    ∃ part next after, splitter.getNextPart = .ok (part, next) ∧
      { splitter with buffer := buffer }.getNextPart =
        .ok (part, { next with buffer := after }) ∧
      SameUpTo size next.buffer after ∧ next.tmp.stop ≤ size ∧
      ∀ view, part = some view → view.stop ≤ size := by
  have hwhole := h.text hstop
  have hlength := length_text_le splitter.buffer splitter.tmp
  have hnone : View.stop ⟨0, 0⟩ ≤ size := Nat.zero_le _
  simp only [View.stop] at hstop
  by_cases hz : splitter.tmp.length = 0
  · right
    refine ⟨none, splitter, buffer, if_pos hz, if_pos hz, h, hstop, ?_⟩
    intro view hview
    cases hview
  · simp only [Splitter.getNextPart, if_neg hz, ← hwhole]
    cases hfirst : findFirstNotOf splitter.delimiter (splitter.tmp.text splitter.buffer) with
    | none => exact Or.inl ⟨_, rfl, rfl⟩
    | some first =>
        right
        have hlt := findFirstNotOf_lt hfirst
        have htrim : View.stop ⟨splitter.tmp.start + first, splitter.tmp.length - first⟩ ≤ size := by
          rw [View.stop_mk]
          omega
        simp only [← h.text htrim]
        generalize hsuffix : (findLastNotOf splitter.delimiter (View.text splitter.buffer
          ⟨splitter.tmp.start + first, splitter.tmp.length - first⟩)).elim 0 (· + 1) = suffix
        have hle : suffix ≤ splitter.tmp.length - first := by
          rw [← hsuffix]
          exact (trimmed_le _ _).trans (length_text_le splitter.buffer
            ⟨splitter.tmp.start + first, splitter.tmp.length - first⟩)
        have htmp : View.stop ⟨splitter.tmp.start + first, suffix⟩ ≤ size := by
          rw [View.stop_mk]
          omega
        simp only [← h.text htmp]
        cases hspace : (View.text splitter.buffer
            ⟨splitter.tmp.start + first, suffix⟩).findIdx? (· = splitter.delimiter) with
        | none =>
            by_cases hempty : suffix = 0
            · simp only [hempty, ne_eq, not_true_eq_false, if_false]
              refine ⟨_, _, _, rfl, rfl, h, ?_, ?_⟩
              · rw [View.stop_mk]
                omega
              · intro view hview
                cases hview
            · simp only [hempty, ne_eq, not_false_eq_true, if_true]
              refine ⟨_, _, _, rfl, rfl, h, hnone, ?_⟩
              rintro view ⟨⟩
              exact htmp
        | some spacePosition =>
            obtain ⟨hposition, -⟩ := List.findIdx?_eq_some_iff_getElem.mp hspace
            have hbound : _ ≤ suffix :=
              length_text_le splitter.buffer ⟨splitter.tmp.start + first, suffix⟩
            refine ⟨_, _, _, rfl, rfl, ?_, ?_, ?_⟩
            · simp only
              split
              · exact h.set _
              · exact h
            · rw [View.stop_mk]
              omega
            · rintro view ⟨⟩
              rw [View.stop_mk]
              omega

end Parts

section Requests

variable {size : Nat} {parser : CommandParser} {buffer other : List Char}
  {environment : Environment} {fuel : Nat}

def CommandParser.withBuffer (parser : CommandParser) (buffer : List Char) : CommandParser :=
  { parser with splitter := { parser.splitter with buffer := buffer } }

-- The string of an argument is in front of the end.
def Argument.Within (size : Nat) : Argument → Prop
  | .data start => start ≤ size
  | .literal _ => True

theorem Argument.within_ofPart {part : Option View} (h : ∀ view, part = some view → view.stop ≤ size) :
    (ofPart part).Within size := by
  cases part with
  | none => exact trivial
  | some view => exact (Nat.le_add_right _ _).trans (h view rfl)

theorem Argument.Within.string_eq {argument : Argument} (h : argument.Within size)
    (hs : SameUpTo size buffer other) : argument.string buffer = argument.string other := by
  cases argument with
  | data start => exact hs.string_drop h
  | literal text => rfl

theorem collectArguments_of_empty (free : Nat) (hempty : parser.splitter.empty = true) :
    collectArguments free parser = pure ([], parser) := by
  cases free with
  | zero => exact if_pos hempty
  | succ free => exact if_pos hempty

-- The same for argv: both runs stop alike, or collect the same entries.
theorem collectArguments_behind (free : Nat) (h : SameUpTo size parser.splitter.buffer buffer)
    (hstop : parser.splitter.tmp.stop ≤ size) :
    (∃ reason, collectArguments free parser = stop reason ∧
      collectArguments free (parser.withBuffer buffer) = stop reason) ∨
    ∃ arguments after rest, collectArguments free parser = pure (arguments, after) ∧
      collectArguments free (parser.withBuffer buffer) = pure (arguments, after.withBuffer rest) ∧
      SameUpTo size after.splitter.buffer rest ∧ (∀ argument ∈ arguments, argument.Within size) ∧
      after.command = parser.command := by
  induction free generalizing parser buffer with
  | zero =>
      by_cases hempty : parser.splitter.empty = true
      · exact Or.inr ⟨[], parser, buffer, collectArguments_of_empty _ hempty,
          collectArguments_of_empty _ hempty, h, List.forall_mem_nil _, rfl⟩
      · exact Or.inl ⟨_, if_neg hempty, if_neg hempty⟩
  | succ free ih =>
      by_cases hempty : parser.splitter.empty = true
      · exact Or.inr ⟨[], parser, buffer, collectArguments_of_empty _ hempty,
          collectArguments_of_empty _ hempty, h, List.forall_mem_nil _, rfl⟩
      · have hempty' : ¬(parser.withBuffer buffer).splitter.empty = true := hempty
        rcases getNextPart_behind h hstop with
          ⟨fault, hpart, hother⟩ | ⟨part, next, after, hpart, hother, hnext, hnextStop, hview⟩
        · left
          have hother' : (parser.withBuffer buffer).splitter.getNextPart = .error fault := hother
          refine ⟨.fault (.view fault), ?_, ?_⟩
          · rw [collectArguments, if_neg hempty, CommandParser.getNextArgument, hpart]
            rfl
          · rw [collectArguments, if_neg hempty', CommandParser.getNextArgument, hother']
            rfl
        · have hget : parser.getNextArgument = .ok (part, { parser with splitter := next }) :=
            getNextArgument_of_part hpart
          have hget' : (parser.withBuffer buffer).getNextArgument = .ok (part,
              CommandParser.withBuffer { parser with splitter := next } after) :=
            getNextArgument_of_part hother
          have hsome := eq_false_of_ne_true hempty
          have hsome' := eq_false_of_ne_true hempty'
          rw [collectArguments_succ hsome hget, collectArguments_succ hsome' hget']
          rcases @ih { parser with splitter := next } after hnext hnextStop with
            ⟨reason, hrest, hrest'⟩ | ⟨arguments, last, rest, hrest, hrest', hlast, hwithin, hcommand⟩
          · rw [hrest, hrest']
            exact Or.inl ⟨reason, rfl, rfl⟩
          · rw [hrest, hrest']
            refine Or.inr ⟨_, _, _, rfl, rfl, hlast, ?_, hcommand⟩
            intro argument ha
            rcases List.mem_cons.mp ha with rfl | ha
            · exact Argument.within_ofPart hview
            · exact hwithin argument ha

theorem runCommand_behind (h : SameUpTo size parser.splitter.buffer buffer)
    (hstop : parser.splitter.tmp.stop ≤ size)
    (hcommand : ∀ view, parser.command = some view → view.stop ≤ size) :
    environment.runCommand fuel (parser.withBuffer buffer) = environment.runCommand fuel parser := by
  have hget {first : CommandParser} {rest : List Char}
      (hs : SameUpTo size first.splitter.buffer rest) (hc : first.command = parser.command) :
      (first.withBuffer rest).getCommand = first.getCommand := by
    rw [CommandParser.getCommand, CommandParser.getCommand]
    change partText rest first.command = partText first.splitter.buffer first.command
    cases hview : first.command with
    | none => rfl
    | some view => exact (hs.text (hcommand view (hc ▸ hview))).symm
  rw [Environment.runCommand, Environment.runCommand, hget h rfl]
  rcases @collectArguments_behind _ parser buffer (argvSize - 1) h hstop with
    ⟨reason, hcollect, hother⟩ | ⟨arguments, after, rest, hcollect, hother, hafter, hwithin, hc⟩
  · rw [hcollect, hother]
  · have hstrings : arguments.map (Argument.string rest) =
        arguments.map (Argument.string after.splitter.buffer) :=
      List.map_congr_left fun argument ha => ((hwithin argument ha).string_eq hafter).symm
    have hname : (Argument.ofPart after.command).string rest =
        (Argument.ofPart after.command).string after.splitter.buffer :=
      ((Argument.within_ofPart fun view hv => hcommand view (hc ▸ hv)).string_eq hafter).symm
    rw [hcollect, hother, Traced.pure_bind, Traced.pure_bind]
    simp only [hget hafter hc]
    simp only [CommandParser.withBuffer, hstrings, hname]

-- What is behind the end of a request makes no difference to what is done for it.
theorem appStart_behind (h : SameUpTo size buffer other) :
    environment.appStart fuel buffer = environment.appStart fuel other := by
  have hstring : string nul buffer = string nul other := by
    simpa using h.string_drop (Nat.zero_le size)
  have hsize : (string nul buffer).length ≤ size := by
    obtain ⟨hlength, hbuffer⟩ := eq_of_null h.null
    rw [hbuffer, string_end]
    exact (length_string_le _).trans_eq hlength
  rw [Environment.appStart, Environment.appStart]
  simp only [hstring]
  split
  · rfl
  split
  · rfl
  cases hfirst : findFirstNotOf ' ' (string nul other) with
  | none => rfl
  | some first =>
      have hlt := findFirstNotOf_lt hfirst
      rw [← hstring] at hlt
      simp only [h.string_drop (show first ≤ size by omega)]
      split
      · rfl
      · have hnew : Splitter.new other ' ' true =
            { Splitter.new buffer ' ' true with buffer := other } := by
          rw [Splitter.new, Splitter.new, hstring]
        rcases @getNextPart_behind size (Splitter.new buffer ' ' true) other h
            ((Nat.zero_add _).trans_le hsize) with
          ⟨fault, hpart, hother⟩ | ⟨part, next, after, hpart, hother, hnext, hstop, hview⟩
        · rw [CommandParser.new, CommandParser.new, hnew, hpart, hother]
        · rw [new_of_part hpart, new_of_part (hnew ▸ hother)]
          exact (@runCommand_behind size ⟨next, part⟩ after _ _ hnext hstop hview).symm

end Requests

end Msos.Shell
