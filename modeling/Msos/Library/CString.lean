import Mathlib.Data.List.TakeWhile

namespace Msos.Library.CString

section Strings

variable {α : Type*} [DecidableEq α] (nul : α)

-- The string that a piece of memory starts with: up to the first null.
def string (memory : List α) : List α := memory.takeWhile (· ≠ nul)

variable {nul} {text : List α}

theorem notMem_string (memory : List α) : nul ∉ string nul memory := by
  intro h
  simpa using List.mem_takeWhile_imp h

theorem length_string_le (memory : List α) : (string nul memory).length ≤ memory.length :=
  List.IsPrefix.length_le <| List.takeWhile_prefix _

theorem string_of_notMem (h : nul ∉ text) : string nul text = text := by
  rw [string, List.takeWhile_eq_self_iff]
  exact fun c hc => decide_eq_true fun he => h (he ▸ hc)

-- A text without nulls goes on into what is behind it.
theorem string_append (h : nul ∉ text) (rest : List α) :
    string nul (text ++ rest) = text ++ string nul rest :=
  List.takeWhile_append_of_pos fun _ hc => decide_eq_true fun he => h (he ▸ hc)

theorem string_nul (rest : List α) : string nul (nul :: rest) = [] := by
  simp [string]

theorem string_append_nul (h : nul ∉ text) (rest : List α) :
    string nul (text ++ nul :: rest) = text := by
  rw [string_append h, string_nul, List.append_nil]

theorem string_eq_nil_iff {memory : List α} (h : memory ≠ []) :
    string nul memory = [] ↔ memory.head? = some nul := by
  cases memory with
  | nil => exact absurd rfl h
  | cons head tail => simp [string, List.takeWhile_cons]

-- Whatever is behind the first null does not matter.
theorem string_end (text rest : List α) : string nul (text ++ nul :: rest) = string nul text := by
  induction text with
  | nil => exact string_nul rest
  | cons head tail ih =>
      simp only [string, List.cons_append, List.takeWhile_cons] at ih ⊢
      rw [ih]

end Strings

end Msos.Library.CString
