import Mathlib.Data.List.Basic
import Mathlib.Data.List.Induction
import Mathlib.Data.List.Infix

namespace Msos.Library.LineEdit

section Editing

variable {α : Type*} [DecidableEq α] (erase : α)

-- What a key does to a line: the one that erases removes the last element.
def press (line : List α) (key : α) : List α :=
  if key = erase then line.dropLast else line ++ [key]

-- The line that a sequence of keys leaves.
def edit (keys : List α) : List α := keys.foldl (press erase) []

-- The line stays shorter than a length with every key.
def Below (length : Nat) (keys : List α) : Prop :=
  ∀ first, first <+: keys → (edit erase first).length < length

instance (length : Nat) (keys : List α) : Decidable (Below erase length keys) :=
  decidable_of_iff (∀ first ∈ keys.inits, (edit erase first).length < length)
    (forall_congr' fun first => imp_congr_left (List.mem_inits first keys))

@[simp] theorem edit_nil : edit erase [] = [] := rfl

theorem edit_concat (keys : List α) (key : α) :
    edit erase (keys ++ [key]) = press erase (edit erase keys) key := by
  rw [edit, List.foldl_append]
  rfl

variable {erase}

theorem edit_concat_erase (keys : List α) :
    edit erase (keys ++ [erase]) = (edit erase keys).dropLast := by
  rw [edit_concat, press, if_pos rfl]

theorem edit_concat_of_ne {key : α} (h : key ≠ erase) (keys : List α) :
    edit erase (keys ++ [key]) = edit erase keys ++ [key] := by
  rw [edit_concat, press, if_neg h]

theorem length_edit_concat_le (keys : List α) (key : α) :
    (edit erase (keys ++ [key])).length ≤ (edit erase keys).length + 1 := by
  by_cases h : key = erase
  · subst h
    rw [edit_concat_erase, List.length_dropLast]
    omega
  · rw [edit_concat_of_ne h, List.length_append]
    rfl

theorem length_edit_le (keys : List α) : (edit erase keys).length ≤ keys.length := by
  induction keys using List.reverseRecOn with
  | nil => exact Nat.zero_le _
  | append_singleton keys key ih =>
      have hkey := @length_edit_concat_le _ _ erase keys key
      rw [List.length_append, List.length_singleton]
      omega

-- What is left on the line has been pressed.
theorem mem_of_mem_edit {keys : List α} {key : α} (h : key ∈ edit erase keys) : key ∈ keys := by
  induction keys using List.reverseRecOn with
  | nil => cases h
  | append_singleton keys last ih =>
      by_cases hlast : last = erase
      · subst hlast
        rw [edit_concat_erase] at h
        exact List.mem_append_left _ (ih (List.mem_of_mem_dropLast h))
      · rw [edit_concat_of_ne hlast] at h
        rcases List.mem_append.mp h with h | h
        · exact List.mem_append_left _ (ih h)
        · exact List.mem_append_right _ h

variable {length : Nat} {keys : List α}

theorem Below.of_front {first : List α} (h : Below erase length keys) (hp : first <+: keys) :
    Below erase length first := fun other ho => h other (ho.trans hp)

theorem Below.concat {key : α} (h : Below erase length keys)
    (hkey : (edit erase (keys ++ [key])).length < length) : Below erase length (keys ++ [key]) := by
  intro first hf
  rcases List.prefix_concat_iff.mp hf with rfl | hf
  · exact hkey
  · exact h first hf

-- A line that reaches a length does so first with a key that does not erase.
theorem exists_full (hpos : 0 < length) (h : ¬Below erase length keys) :
    ∃ first key, first ++ [key] <+: keys ∧ Below erase length first ∧ key ≠ erase ∧
      (edit erase first).length + 1 = length := by
  induction keys using List.reverseRecOn with
  | nil =>
      refine absurd (fun first hf => ?_) h
      rw [List.prefix_nil.mp hf]
      exact hpos
  | append_singleton keys last ih =>
      by_cases hk : Below erase length keys
      · have hfull : length ≤ (edit erase (keys ++ [last])).length := by
          by_contra hlt
          exact h (hk.concat (by omega))
        have hlt := hk keys (List.prefix_refl _)
        have hlast : last ≠ erase := by
          rintro rfl
          rw [edit_concat_erase, List.length_dropLast] at hfull
          omega
        rw [edit_concat_of_ne hlast, List.length_append, List.length_singleton] at hfull
        exact ⟨keys, last, List.prefix_refl _, hk, hlast, by omega⟩
      · obtain ⟨first, key, hp, hrest⟩ := ih hk
        exact ⟨first, key, hp.trans (List.prefix_append _ _), hrest⟩

end Editing

section Cutting

variable {α : Type*} [DecidableEq α] (erase newline : α) (size : Nat)

-- The lines that a stream of keys is cut into by a reader with a buffer of a size, from
-- a line on that is under way: each ends with a newline, or with the key for the last
-- place but one; the key itself is lost.
def cut : List α → List α → List (List α)
  | _, [] => []
  | line, key :: keys =>
      if key = erase then cut line.dropLast keys
      else if key = newline ∨ line.length + 2 = size then line :: cut [] keys
      else cut (line ++ [key]) keys

variable {erase newline size}

-- A key that a line goes on with
def Continues (erase newline : α) (size : Nat) (line : List α) (key : α) : Prop :=
  key = erase ∨ key ≠ newline ∧ line.length + 2 ≠ size

theorem cut_of_continues {line : List α} {key : α} (h : Continues erase newline size line key)
    (keys : List α) :
    cut erase newline size line (key :: keys) = cut erase newline size (press erase line key) keys := by
  rw [cut, press]
  by_cases hkey : key = erase
  · rw [if_pos hkey, if_pos hkey]
  · have hnot : ¬(key = newline ∨ line.length + 2 = size) := not_or.mpr (h.resolve_left hkey)
    rw [if_neg hkey, if_neg hkey, if_neg hnot]

theorem cut_of_ends {line : List α} {key : α} (h : ¬Continues erase newline size line key)
    (keys : List α) :
    cut erase newline size line (key :: keys) = line :: cut erase newline size [] keys := by
  obtain ⟨hkey, hend⟩ := not_or.mp h
  have hends : key = newline ∨ line.length + 2 = size := by
    by_contra hnot
    exact hend (not_or.mp hnot)
  rw [cut, if_neg hkey, if_pos hends]

end Cutting

end Msos.Library.LineEdit
