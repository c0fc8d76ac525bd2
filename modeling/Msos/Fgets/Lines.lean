import Msos.Fgets.Theorems

namespace Msos.Fgets

open Msos.Library LineEdit

section Reading

variable {size : Nat} {typed keys : List UInt8} {buffer : List UInt8}
  {stream : List (Option UInt8)}

theorem Goes.concat {key : UInt8} (h : Goes size typed)
    (hroom : (edit backspace typed).length + 2 ≤ size)
    (hkey : Continues backspace newline size (edit backspace typed) key) :
    Goes size (typed ++ [key]) := by
  intro first last hp
  rcases List.prefix_concat_iff.mp hp with he | hp
  · obtain ⟨rfl, rfl⟩ := List.append_singleton_inj.mp he
    rcases hkey with rfl | ⟨hnew, hfull⟩
    · exact ⟨newline_ne_backspace.symm, Or.inl rfl⟩
    · exact ⟨hnew, Or.inr ⟨by omega, hfull⟩⟩
  · exact h first last hp

-- A call takes all of the keys, or it ends with one of them; what is cut off is the line
-- of the keys before it.
theorem goes_or_ends (keys : List UInt8) (h : Goes size typed)
    (hroom : (edit backspace typed).length + 2 ≤ size) :
    Goes size (typed ++ keys) ∧ cut backspace newline size (edit backspace typed) keys = [] ∨
    ∃ first key rest, keys = first ++ key :: rest ∧ Goes size (typed ++ first) ∧
      (edit backspace (typed ++ first)).length + 2 ≤ size ∧
      ¬Continues backspace newline size (edit backspace (typed ++ first)) key ∧
      cut backspace newline size (edit backspace typed) keys =
        edit backspace (typed ++ first) :: cut backspace newline size [] rest := by
  induction keys generalizing typed with
  | nil => exact Or.inl ⟨by rwa [List.append_nil], rfl⟩
  | cons key keys ih =>
      by_cases hkey : Continues backspace newline size (edit backspace typed) key
      · have hline : (edit backspace (typed ++ [key])).length + 2 ≤ size := by
          by_cases hb : key = backspace
          · rw [hb, edit_concat_erase, List.length_dropLast]
            omega
          · obtain ⟨-, hfull⟩ := hkey.resolve_left hb
            rw [edit_concat_of_ne hb, List.length_append, List.length_singleton]
            omega
        have hcut := cut_of_continues hkey keys
        rw [← edit_concat] at hcut
        rw [hcut]
        rcases ih (h.concat hroom hkey) hline with
          ⟨hgoes, hnone⟩ | ⟨first, last, rest, rfl, hfirst, hbelow, hends, hlines⟩
        · rw [List.append_assoc, List.singleton_append] at hgoes
          exact Or.inl ⟨hgoes, hnone⟩
        · rw [List.append_assoc, List.singleton_append] at hfirst hbelow hends hlines
          exact Or.inr ⟨key :: first, last, rest, rfl, hfirst, hbelow, hends, hlines⟩
      · right
        refine ⟨[], key, keys, rfl, ?_, ?_, ?_, ?_⟩
        · rwa [List.append_nil]
        · rwa [List.append_nil]
        · rwa [List.append_nil]
        · rw [List.append_nil]
          exact cut_of_ends hkey keys

-- A stream splits where its bytes do.
theorem exists_front {first rest : List UInt8} {key : UInt8}
    (h : stream.reduceOption = first ++ key :: rest) :
    ∃ front back, stream = front ++ some key :: back ∧ front.reduceOption = first ∧
      back.reduceOption = rest := by
  induction stream generalizing first with
  | nil => exact absurd h.symm (List.append_ne_nil_of_right_ne_nil _ (List.cons_ne_nil _ _))
  | cons entry stream ih =>
      cases entry with
      | none =>
          obtain ⟨front, back, rfl, hfront, hback⟩ := ih h
          exact ⟨none :: front, back, rfl, hfront, hback⟩
      | some c =>
          rw [List.reduceOption_cons_of_some] at h
          cases first with
          | nil =>
              obtain ⟨rfl, hrest⟩ := List.cons.inj h
              exact ⟨[], stream, rfl, rfl, hrest⟩
          | cons head tail =>
              obtain ⟨rfl, htail⟩ := List.cons.inj h
              obtain ⟨front, back, rfl, hfront, hback⟩ := ih htail
              refine ⟨some c :: front, back, rfl, ?_, hback⟩
              rw [List.reduceOption_cons_of_some, hfront]

-- One call on a stream: it waits for more, or returns the next line that is cut off
-- and leaves what is behind it.
theorem fgets_line (hsize : 2 ≤ buffer.length) (stream : List (Option UInt8)) :
    fgets buffer buffer.length (stream.map Reading.ofByte) = .ok none ∧
      cut backspace newline buffer.length [] stream.reduceOption = [] ∨
    ∃ (line tail : List UInt8) (rest : List (Option UInt8)), rest.length < stream.length ∧
      line.length + 2 ≤ buffer.length ∧
      fgets buffer buffer.length (stream.map Reading.ofByte) =
        .ok (some (line ++ 0 :: tail, rest.map Reading.ofByte)) ∧
      cut backspace newline buffer.length [] stream.reduceOption =
        line :: cut backspace newline buffer.length [] rest.reduceOption := by
  have hstart : Goes buffer.length [] := by
    intro first key hp
    exact absurd (List.prefix_nil.mp hp) (by simp)
  rcases goes_or_ends stream.reduceOption hstart hsize with
    ⟨hgoes, hcut⟩ | ⟨first, key, rest, hkeys, hgoes, hroom, hends, hcut⟩
  · rw [List.nil_append] at hgoes
    exact Or.inl ⟨fgets_goes hgoes, hcut⟩
  · right
    rw [List.nil_append] at hgoes hroom hends hcut
    obtain ⟨hb, hend⟩ := not_or.mp hends
    obtain ⟨front, back, rfl, rfl, rfl⟩ := exists_front hkeys
    have hlast : key = newline ∨
        (edit backspace front.reduceOption).length + 2 = buffer.length := by
      by_contra hnot
      exact hend (not_or.mp hnot)
    obtain ⟨tail, hfgets⟩ := @fgets_key _ _ back _ hgoes hb (by omega) hlast
    refine ⟨_, tail, back, ?_, hroom, hfgets, hcut⟩
    rw [List.length_append, List.length_cons]
    omega

end Reading

end Msos.Fgets
