import Mathlib.Data.List.TakeWhile

namespace Msos.Library.Words

section Runs

variable {α : Type*} [DecidableEq α] (delimiter : α)

-- The maximal runs of elements other than the delimiter, in their order.
def words (input : List α) : List (List α) := (input.splitOn delimiter).filter (· ≠ [])

variable {delimiter}

@[simp] theorem words_nil : words delimiter [] = [] := by simp [words]

-- A delimiter separates the words in front of it from those behind it.
theorem words_append_delimiter (first second : List α) :
    words delimiter (first ++ delimiter :: second) =
      words delimiter first ++ words delimiter second := by
  rw [words, List.splitOn_append_cons_self, List.filter_append]
  rfl

theorem words_of_notMem {run : List α} (h : delimiter ∉ run) (hne : run ≠ []) :
    words delimiter run = [run] := by
  rw [words, List.splitOn_eq_singleton h, List.filter_cons_of_pos (by simpa using hne)]
  rfl

@[simp] theorem words_delimiter (rest : List α) :
    words delimiter (delimiter :: rest) = words delimiter rest := by
  simpa using @words_append_delimiter _ _ delimiter [] rest

theorem words_replicate_append (count : Nat) (rest : List α) :
    words delimiter (List.replicate count delimiter ++ rest) = words delimiter rest := by
  induction count with
  | zero => rfl
  | succ count ih => rw [List.replicate_succ, List.cons_append, words_delimiter, ih]

-- Delimiters at the end do not matter either.
theorem words_append_replicate (input : List α) (count : Nat) :
    words delimiter (input ++ List.replicate count delimiter) = words delimiter input := by
  cases count with
  | zero => rw [List.replicate_zero, List.append_nil]
  | succ count =>
      have hnone := @words_replicate_append _ _ delimiter count []
      rw [List.append_nil, words_nil] at hnone
      rw [List.replicate_succ, words_append_delimiter, hnone, List.append_nil]

theorem words_run {run : List α} (h : delimiter ∉ run) (hne : run ≠ []) (rest : List α) :
    words delimiter (run ++ delimiter :: rest) = run :: words delimiter rest := by
  rw [words_append_delimiter, words_of_notMem h hne, List.singleton_append]

-- The input starts with delimiters, and goes on with a word if there is one.
theorem exists_first {input : List α} (h : ∃ c ∈ input, c ≠ delimiter) :
    ∃ count run rest, input = List.replicate count delimiter ++ (run ++ rest) ∧ run ≠ [] ∧
      delimiter ∉ run ∧ (rest = [] ∨ ∃ tail, rest = delimiter :: tail) := by
  induction input with
  | nil =>
      obtain ⟨c, hc, -⟩ := h
      cases hc
  | cons head tail ih =>
      by_cases hhead : head = delimiter
      · subst hhead
        obtain ⟨c, hc, hne⟩ := h
        obtain ⟨count, run, rest, htail, hrun⟩ :=
          ih ⟨c, (List.mem_cons.mp hc).resolve_left hne, hne⟩
        exact ⟨count + 1, run, rest, by rw [htail, List.replicate_succ, List.cons_append], hrun⟩
      · refine ⟨0, head :: tail.takeWhile (· ≠ delimiter), tail.dropWhile (· ≠ delimiter), ?_,
          List.cons_ne_nil _ _, ?_, ?_⟩
        · rw [List.replicate_zero, List.nil_append, List.cons_append, List.takeWhile_append_dropWhile]
        · intro hm
          rcases List.mem_cons.mp hm with rfl | hm
          · exact hhead rfl
          · simpa using List.mem_takeWhile_imp hm
        · cases hrest : tail.dropWhile (· ≠ delimiter) with
          | nil => exact Or.inl rfl
          | cons c rest =>
              have hc := List.head_dropWhile_not (fun c => decide (c ≠ delimiter))
                (l := tail) (by rw [hrest]; exact List.cons_ne_nil _ _)
              simp only [hrest, List.head_cons, decide_eq_false_iff_not, not_not] at hc
              exact Or.inr ⟨rest, by rw [hc]⟩

end Runs

section Texts

variable {α : Type*} (delimiter : α)

-- A text that starts and ends with a word, and its words.
inductive Separated : List α → List (List α) → Prop
  | last {run : List α} (hne : run ≠ []) (hrun : delimiter ∉ run) : Separated run [run]
  | more {run rest : List α} {others : List (List α)} (count : Nat) (hne : run ≠ [])
      (hrun : delimiter ∉ run) (hrest : Separated rest others) :
      Separated (run ++ delimiter :: (List.replicate count delimiter ++ rest)) (run :: others)

variable {delimiter} {text : List α} {found : List (List α)}

theorem ne_of_notMem {run : List α} {c : α} (hrun : delimiter ∉ run) (hc : c ∈ run) :
    c ≠ delimiter :=
  fun he => hrun (he ▸ hc)

theorem Separated.exists_head (h : Separated delimiter text found) :
    ∃ head tail, text = head :: tail ∧ head ≠ delimiter := by
  cases h with
  | last hne hrun =>
      obtain ⟨head, tail, rfl⟩ := List.exists_cons_of_ne_nil hne
      exact ⟨head, tail, rfl, ne_of_notMem hrun List.mem_cons_self⟩
  | more count hne hrun hrest =>
      obtain ⟨head, tail, rfl⟩ := List.exists_cons_of_ne_nil hne
      exact ⟨head, _, rfl, ne_of_notMem hrun List.mem_cons_self⟩

theorem Separated.exists_last (h : Separated delimiter text found) :
    ∃ before last, text = before ++ [last] ∧ last ≠ delimiter := by
  induction h with
  | last hne hrun =>
      refine ⟨_, _, (List.dropLast_concat_getLast hne).symm, ?_⟩
      exact ne_of_notMem hrun (List.getLast_mem hne)
  | more count hne hrun hrest ih =>
      obtain ⟨before, last, rfl, hlast⟩ := ih
      exact ⟨_, last, by rw [← List.append_assoc, ← List.cons_append, ← List.append_assoc], hlast⟩

-- The delimiters at the end show in the last element.
theorem Separated.getLast?_ne_iff (h : Separated delimiter text found) (first last : Nat) :
    (List.replicate first delimiter ++
        (text ++ List.replicate last delimiter)).getLast? ≠ some delimiter ↔ last = 0 := by
  obtain ⟨front, other, htext, hother⟩ := h.exists_last
  cases last with
  | zero => simpa [htext] using hother
  | succ last =>
      rw [List.replicate_succ', ← List.append_assoc, ← List.append_assoc, List.getLast?_concat]
      simp

variable [DecidableEq α]

-- Every input with a word has delimiters around such a text.
theorem exists_separated {input : List α} (h : ∃ c ∈ input, c ≠ delimiter) :
    ∃ first text last, input =
        List.replicate first delimiter ++ (text ++ List.replicate last delimiter) ∧
      Separated delimiter text (words delimiter input) := by
  induction hlength : input.length using Nat.strong_induction_on generalizing input with
  | _ length ih =>
      obtain ⟨count, run, rest, hinput, hne, hrun, hrest⟩ := exists_first h
      have hwords : words delimiter input = words delimiter (run ++ rest) := by
        rw [hinput, words_replicate_append]
      rw [hwords]
      rcases hrest with rfl | ⟨tail, rfl⟩
      · refine ⟨count, run, 0, hinput, ?_⟩
        rw [List.append_nil, words_of_notMem hrun hne]
        exact .last hne hrun
      · rw [words_run hrun hne]
        by_cases htail : ∃ c ∈ tail, c ≠ delimiter
        · have hshort : tail.length < length := by
            have hlengths := congrArg List.length hinput
            simp only [List.length_append, List.length_cons] at hlengths
            omega
          obtain ⟨first, text, last, heq, hseparated⟩ := ih _ hshort htail rfl
          refine ⟨count, run ++ delimiter :: (List.replicate first delimiter ++ text), last, ?_,
            .more first hne hrun hseparated⟩
          rw [hinput, heq]
          simp only [List.append_assoc, List.cons_append]
        · have hall : tail = List.replicate tail.length delimiter := by
            rw [List.eq_replicate_iff]
            exact ⟨rfl, fun c hc => by_contra fun hne => htail ⟨c, hc, hne⟩⟩
          refine ⟨count, run, tail.length + 1, ?_, ?_⟩
          · rw [hinput, List.replicate_succ, ← hall]
          · have hnone := @words_append_replicate _ _ delimiter [] tail.length
            rw [List.nil_append, ← hall, words_nil] at hnone
            rw [hnone]
            exact .last hne hrun

end Texts

end Msos.Library.Words
