import Msos.Library.Words
import Msos.Shell.Splitter

namespace Msos.Shell

open Msos.Library CString Search Words

theorem View.text_append (before text behind : List Char) :
    View.text (before ++ (text ++ behind)) ⟨before.length, text.length⟩ = text := by
  rw [View.text, List.drop_left, List.take_left]

-- A view of the middle of a text
theorem View.text_middle {buffer before text behind : List Char} {start length : Nat}
    (hbuffer : buffer = before ++ (text ++ behind)) (hstart : start = before.length)
    (hlength : length = text.length) : View.text buffer ⟨start, length⟩ = text := by
  subst hbuffer hstart hlength
  exact View.text_append before text behind

-- How far the end of a run is from the start of the memory
theorem length_front {α : Type} (before run : List α) (delimiter : α) (first : Nat) :
    (before ++ (List.replicate first delimiter ++ run)).length =
      before.length + first + run.length := by
  rw [List.length_append, List.length_append, List.length_replicate]
  omega

-- The memory from behind some delimiters on
theorem drop_delimiters {α : Type} (before rest : List α) (delimiter : α) (first : Nat) :
    (before ++ (List.replicate first delimiter ++ rest)).drop (before.length + first) = rest := by
  have hlength : before.length + first = (before ++ List.replicate first delimiter).length := by
    rw [List.length_append, List.length_replicate]
  rw [hlength, ← List.append_assoc, List.drop_left]

namespace Splitter

section Parts

variable {splitter : Splitter} {before text behind run rest : List Char} {found : List (List Char)}

-- What is left to split is a text of the buffer.
structure At (splitter : Splitter) (before text behind : List Char) : Prop where
  buffer_eq : splitter.buffer = before ++ (text ++ behind)
  tmp_eq : splitter.tmp = ⟨before.length, text.length⟩

theorem at_new (delimiter : Char) (insertNullCharacter : Bool) (htext : nul ∉ text) :
    At (new (text ++ nul :: behind) delimiter insertNullCharacter) [] text (nul :: behind) := by
  refine ⟨rfl, ?_⟩
  rw [new, string_append_nul htext, List.length_nil]

-- A text with delimiters around it
theorem notMem_of_input {input : List Char} {delimiter : Char} {first last : Nat}
    (hinput : input = List.replicate first delimiter ++ (text ++ List.replicate last delimiter))
    (h : nul ∉ input) : nul ∉ text := by
  intro htext
  rw [hinput] at h
  exact h (List.mem_append_right _ (List.mem_append_left _ htext))

theorem at_new_of_input {input : List Char} {delimiter : Char} {first last : Nat}
    (hinput : input = List.replicate first delimiter ++ (text ++ List.replicate last delimiter))
    (insertNullCharacter : Bool) (h : nul ∉ input) :
    At (new (input ++ nul :: behind) delimiter insertNullCharacter) []
      (List.replicate first delimiter ++ (text ++ List.replicate last delimiter))
      (nul :: behind) := by
  rw [← hinput]
  exact at_new delimiter insertNullCharacter h

theorem notMem_parts {delimiter : Char} {count : Nat}
    (h : nul ∉ run ++ delimiter :: (List.replicate count delimiter ++ rest)) :
    nul ∉ run ∧ nul ∉ rest := by
  simp only [List.mem_append, List.mem_cons] at h
  exact ⟨fun hm => h (Or.inl hm), fun hm => h (Or.inr (Or.inr (Or.inr hm)))⟩

theorem empty_eq_false (hat : At splitter before text behind) (hne : text ≠ []) :
    splitter.empty = false := by
  rw [empty, hat.tmp_eq]
  exact decide_eq_false fun h => hne (List.eq_nil_of_length_eq_zero h)

theorem getNextPart_empty (hempty : splitter.tmp.length = 0) :
    splitter.empty = true ∧ splitter.getNextPart = .ok (none, splitter) := by
  constructor
  · exact decide_eq_true hempty
  · simp only [getNextPart, hempty, if_true]

-- Delimiters alone cannot be trimmed.
theorem getNextPart_delimiters {count : Nat}
    (hat : At splitter before (List.replicate (count + 1) splitter.delimiter) behind) :
    splitter.getNextPart = .error .outOfRange := by
  have hwhole : splitter.tmp.text splitter.buffer =
      List.replicate (count + 1) splitter.delimiter := by
    rw [hat.buffer_eq, hat.tmp_eq]
    exact View.text_append _ _ _
  have hsome : splitter.tmp.length ≠ 0 := by
    rw [hat.tmp_eq]
    simp
  have hnone : findFirstNotOf splitter.delimiter
      (List.replicate (count + 1) splitter.delimiter) = none := by
    rw [findFirstNotOf, List.findIdx?_eq_none_iff]
    intro c hc
    simp [List.eq_of_mem_replicate hc]
  simp only [getNextPart, hsome, if_false, hwhole, hnone]

-- The trimmed text is scanned for the next delimiter.
theorem getNextPart_trimmed {first last : Nat}
    (hat : At splitter before (List.replicate first splitter.delimiter ++
      (text ++ List.replicate last splitter.delimiter)) behind)
    (hwords : Separated splitter.delimiter text found) :
    splitter.getNextPart = match text.findIdx? (· = splitter.delimiter) with
      | none => .ok (some ⟨before.length + first, text.length⟩, { splitter with tmp := ⟨0, 0⟩ })
      | some spacePosition =>
          .ok (some ⟨before.length + first, spacePosition⟩, { splitter with
            tmp := ⟨before.length + first + (spacePosition + 1),
              text.length - (spacePosition + 1)⟩
            buffer := if splitter.insertNullCharacter
              then splitter.buffer.set (before.length + first + spacePosition) nul
              else splitter.buffer }) := by
  obtain ⟨head, tail, hhead, hne⟩ := hwords.exists_head
  obtain ⟨front, other, hlast, hother⟩ := hwords.exists_last
  have hwhole : splitter.tmp.text splitter.buffer = List.replicate first splitter.delimiter ++
      (text ++ List.replicate last splitter.delimiter) := by
    rw [hat.buffer_eq, hat.tmp_eq]
    exact View.text_append _ _ _
  have hlength : splitter.tmp.length = first + (text.length + last) := by
    rw [hat.tmp_eq]
    simp
  have hpositive : 0 < text.length := by
    rw [hhead]
    exact Nat.succ_pos _
  have hfirst : findFirstNotOf splitter.delimiter (splitter.tmp.text splitter.buffer) =
      some first := by
    rw [hwhole, hhead, List.cons_append]
    exact findFirstNotOf_replicate hne first _
  have hstart : splitter.tmp.start = before.length := by rw [hat.tmp_eq]
  have hbuffer : splitter.buffer =
      (before ++ List.replicate first splitter.delimiter) ++
        (text ++ (List.replicate last splitter.delimiter ++ behind)) := by
    rw [hat.buffer_eq]
    simp only [List.append_assoc]
  have htrimmed : View.text splitter.buffer ⟨before.length + first, text.length + last⟩ =
      text ++ List.replicate last splitter.delimiter := by
    refine @View.text_middle _ (before ++ List.replicate first splitter.delimiter) _ behind _ _ ?_
      (by simp) (by simp)
    rw [hbuffer]
    simp only [List.append_assoc]
  have hsuffix : findLastNotOf splitter.delimiter
      (text ++ List.replicate last splitter.delimiter) = some (text.length - 1) := by
    rw [hlast, List.append_assoc, List.singleton_append, findLastNotOf_append hother]
    simp
  have htext : View.text splitter.buffer ⟨before.length + first, text.length⟩ = text :=
    View.text_middle hbuffer (by simp) rfl
  have hrest : splitter.tmp.length - first = text.length + last := by omega
  have hend : text.length - 1 + 1 = text.length := by omega
  have hsome : splitter.tmp.length ≠ 0 := by omega
  simp only [getNextPart, hsome, if_false, hfirst, hstart, hrest, htrimmed, hsuffix,
    Option.elim_some, hend, htext]
  cases text.findIdx? (· = splitter.delimiter) with
  | none => exact if_pos (Nat.ne_of_gt hpositive)
  | some spacePosition => rfl

-- The last part is returned as it is.
theorem getNextPart_last {first last : Nat} (hne : run ≠ []) (hrun : splitter.delimiter ∉ run)
    (hat : At splitter before (List.replicate first splitter.delimiter ++
      (run ++ List.replicate last splitter.delimiter)) behind) :
    splitter.getNextPart = .ok (some ⟨before.length + first, run.length⟩,
      { splitter with tmp := ⟨0, 0⟩ }) := by
  rw [getNextPart_trimmed hat (.last hne hrun), findIdx?_of_notMem hrun]

-- What is written behind a part
def mark (splitter : Splitter) : Char :=
  if splitter.insertNullCharacter then nul else splitter.delimiter

theorem set_append (before behind : List Char) (old new : Char) :
    (before ++ old :: behind).set before.length new = before ++ new :: behind := by
  rw [List.set_append_right _ _ (Nat.le_refl _), Nat.sub_self, List.set_cons_zero]

-- Behind another part comes the text of the parts that are left.
theorem getNextPart_more {first last count : Nat} (hrun : splitter.delimiter ∉ run)
    (hwords : Separated splitter.delimiter
      (run ++ splitter.delimiter :: (List.replicate count splitter.delimiter ++ rest)) found)
    (hat : At splitter before (List.replicate first splitter.delimiter ++
      ((run ++ splitter.delimiter :: (List.replicate count splitter.delimiter ++ rest)) ++
        List.replicate last splitter.delimiter)) behind) :
    ∃ next, splitter.getNextPart = .ok (some ⟨before.length + first, run.length⟩, next) ∧
      next.delimiter = splitter.delimiter ∧
      next.insertNullCharacter = splitter.insertNullCharacter ∧
      next.buffer = (if splitter.insertNullCharacter
        then splitter.buffer.set (before.length + first + run.length) nul else splitter.buffer) ∧
      At next (before ++ (List.replicate first splitter.delimiter ++ (run ++ [splitter.mark])))
        (List.replicate count splitter.delimiter ++ (rest ++ List.replicate 0 splitter.delimiter))
        (List.replicate last splitter.delimiter ++ behind) := by
  rw [getNextPart_trimmed hat hwords, findIdx?_append hrun]
  refine ⟨_, rfl, rfl, rfl, rfl, ?_, ?_⟩
  · have hbuffer : splitter.buffer =
        (before ++ (List.replicate first splitter.delimiter ++ run)) ++ splitter.delimiter ::
          (List.replicate count splitter.delimiter ++ (rest ++
            (List.replicate last splitter.delimiter ++ behind))) := by
      rw [hat.buffer_eq]
      simp only [List.append_assoc, List.cons_append]
    have hset := set_append (before ++ (List.replicate first splitter.delimiter ++ run))
      (List.replicate count splitter.delimiter ++ (rest ++
        (List.replicate last splitter.delimiter ++ behind))) splitter.delimiter nul
    rw [length_front, ← hbuffer] at hset
    simp only [mark]
    cases splitter.insertNullCharacter with
    | false =>
        simp only [Bool.false_eq_true, if_false]
        rw [hbuffer]
        simp
    | true =>
        simp only [if_true]
        rw [hset]
        simp
  · simp only [View.mk.injEq, List.length_append, List.length_replicate, List.length_cons,
      List.length_nil]
    constructor <;> omega

-- A part has its text wherever the buffer keeps what is in front of its end.
theorem text_of_front {buffer : List Char} {first : Nat} {delimiter : Char}
    (h : before ++ (List.replicate first delimiter ++ run) <+: buffer) :
    View.text buffer ⟨before.length + first, run.length⟩ = run := by
  obtain ⟨behind, hbuffer⟩ := h
  refine @View.text_middle _ (before ++ List.replicate first delimiter) _ behind _ _ ?_
    (by simp) rfl
  rw [← hbuffer]
  simp only [List.append_assoc]

end Parts

section Runs

-- The calls until empty() is true return the views, all of which the buffer
-- holds to the end as they were returned; a call after that returns nothing.
def Returns : Splitter → List View → Splitter → Prop
  | splitter, [], after =>
      after = splitter ∧ splitter.empty = true ∧ splitter.getNextPart = .ok (none, splitter)
  | splitter, view :: views, after =>
      splitter.empty = false ∧ ∃ next, splitter.getNextPart = .ok (some view, next) ∧
        view.text next.buffer = view.text after.buffer ∧ Returns next views after

-- Where the parts are does not depend on what is written between them.
theorem exists_returns {delimiter : Char} {text : List Char} {found : List (List Char)}
    (hwords : Separated delimiter text found) (start first : Nat) :
    ∃ views, ∀ (splitter : Splitter) (before behind : List Char) (last : Nat),
      splitter.delimiter = delimiter → before.length = start →
      At splitter before (List.replicate first delimiter ++
        (text ++ List.replicate last delimiter)) behind →
      ∃ after, splitter.Returns views after ∧ before <+: after.buffer ∧
        views.map (View.text after.buffer) = found := by
  induction hwords generalizing start first with
  | @last run hne hrun =>
      refine ⟨[⟨start + first, run.length⟩], ?_⟩
      rintro splitter before behind last rfl rfl hat
      have hpart := getNextPart_last hne hrun hat
      have hkept : before ++ (List.replicate first splitter.delimiter ++ run) <+:
          splitter.buffer := by
        rw [hat.buffer_eq]
        exact ⟨List.replicate last splitter.delimiter ++ behind, by simp only [List.append_assoc]⟩
      refine ⟨{ splitter with tmp := ⟨0, 0⟩ }, ?_, (List.prefix_append _ _).trans hkept, ?_⟩
      · refine ⟨empty_eq_false hat (by simp [hne]), _, hpart, rfl, rfl, ?_⟩
        exact getNextPart_empty rfl
      · rw [List.map_singleton, text_of_front hkept]
  | @more run rest others count hne hrun hrest ih =>
      obtain ⟨views, hviews⟩ := ih (start + (first + (run.length + 1))) count
      refine ⟨⟨start + first, run.length⟩ :: views, ?_⟩
      rintro splitter before behind last rfl rfl hat
      obtain ⟨next, hpart, hdelimiter, -, -, hnext⟩ :=
        getNextPart_more hrun (.more count hne hrun hrest) hat
      obtain ⟨after, hreturns, hkept, hothers⟩ := hviews next _ _ _ hdelimiter (by simp) hnext
      have hfront : before ++ (List.replicate first splitter.delimiter ++ run) <+:
          before ++ (List.replicate first splitter.delimiter ++ (run ++ [splitter.mark])) := by
        simp
      have hbefore := hfront.trans hkept
      have hbuffer : before ++ (List.replicate first splitter.delimiter ++ run) <+:
          next.buffer := by
        rw [hnext.buffer_eq]
        exact hfront.trans (List.prefix_append _ _)
      refine ⟨after, ?_, (List.prefix_append _ _).trans hbefore, ?_⟩
      · refine ⟨empty_eq_false hat (by simp [hne]), next, hpart, ?_, hreturns⟩
        rw [text_of_front hbuffer, text_of_front hbefore]
      · rw [List.map_cons, text_of_front hbefore, hothers]

-- The parts of a string are its words, in both modes.
theorem returns_words (text behind : List Char) (delimiter : Char) (htext : nul ∉ text)
    (hwords : text = [] ∨ ∃ c ∈ text, c ≠ delimiter) :
    ∃ views, ∀ insertNullCharacter, ∃ after,
      (new (text ++ nul :: behind) delimiter insertNullCharacter).Returns views after ∧
        views.map (View.text after.buffer) = words delimiter text := by
  rcases hwords with rfl | hwords
  · refine ⟨[], fun insertNullCharacter => ⟨_, ⟨rfl, getNextPart_empty ?_⟩, ?_⟩⟩
    · rw [(at_new delimiter insertNullCharacter htext).tmp_eq, List.length_nil]
    · rw [List.map_nil, words_nil]
  · obtain ⟨first, inner, last, hinput, hseparated⟩ := exists_separated hwords
    obtain ⟨views, hviews⟩ := exists_returns hseparated 0 first
    refine ⟨views, fun insertNullCharacter => ?_⟩
    obtain ⟨after, hreturns, -, htexts⟩ := hviews _ _ _ last rfl rfl
      (@at_new_of_input inner behind text delimiter first last hinput insertNullCharacter htext)
    exact ⟨after, hreturns, htexts⟩

theorem returns_words_spaces :
    ∃ views, ∀ insertNullCharacter, ∃ after,
      (new ("  ls  -pa ".toList ++ [nul]) ' ' insertNullCharacter).Returns views after ∧
        views.map (View.text after.buffer) = words ' ' "  ls  -pa ".toList :=
  returns_words "  ls  -pa ".toList [] ' ' (by decide) (Or.inr ⟨'l', by decide, by decide⟩)

end Runs

end Splitter

end Msos.Shell
