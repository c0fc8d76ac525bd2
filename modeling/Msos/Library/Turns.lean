import Mathlib.Data.List.Rotate

namespace Msos.Library.Turns

section Search

variable {α : Type*} {a : α}

-- Searching from the second element on finds the same, unless it passes an
-- eligible first one over.
theorem find?_concat_iff {rest : List α} (p : α → Bool) (hn : (a :: rest).Nodup) :
    (rest ++ [a]).find? p = (a :: rest).find? p ↔ (p a = true → ∀ b ∈ rest, p b = false) := by
  by_cases ha : p a = true
  · rw [List.find?_cons_of_pos ha, List.find?_append]
    constructor
    · intro h _ b hb
      by_contra hpb
      have hsome : (rest.find? p).isSome := List.find?_isSome.mpr ⟨b, hb, by simpa using hpb⟩
      obtain ⟨found, hf⟩ := Option.isSome_iff_exists.mp hsome
      obtain rfl : found = a := by simpa [hf] using h
      exact (List.nodup_cons.mp hn).1 (List.mem_of_find?_eq_some hf)
    · intro h
      have hnone : rest.find? p = none := List.find?_eq_none.mpr fun b hb => by simp [h ha b hb]
      simp [hnone, ha]
  · rw [List.find?_cons_of_neg ha, List.find?_append]
    simp [ha]

end Search

section Order

variable {α : Type*} [DecidableEq α] {list : List α} {a b : α}

-- The elements in cyclic order, from the one strictly after a given element
-- to that element itself.
def after (list : List α) (a : α) : List α := list.rotate (list.idxOf a + 1)

@[simp] theorem mem_after : b ∈ after list a ↔ b ∈ list := List.mem_rotate

theorem after_perm (list : List α) (a : α) : (after list a).Perm list := List.rotate_perm ..

theorem nodup_after (hn : list.Nodup) (a : α) : (after list a).Nodup := List.nodup_rotate.mpr hn

@[simp] theorem length_after : (after list a).length = list.length := List.length_rotate ..

theorem after_of_split {before rest : List α} (hb : a ∉ before) :
    after (before ++ a :: rest) a = rest ++ before ++ [a] := by
  have hidx : (before ++ a :: rest).idxOf a + 1 = (before ++ [a]).length := by
    rw [List.idxOf_append_of_notMem hb, List.idxOf_cons_self]
    simp
  have hlist : before ++ a :: rest = (before ++ [a]) ++ rest := by simp
  rw [after, hidx, hlist, List.rotate_append_length_eq, List.append_assoc]

theorem exists_after (hm : a ∈ list) : ∃ others, after list a = others ++ [a] := by
  obtain ⟨before, rest, he, hb⟩ := List.eq_append_cons_of_mem hm
  exact ⟨rest ++ before, by rw [he, after_of_split hb]⟩

-- Going on from an element that comes up: what is left of the round, what was
-- passed before it, and the element itself.
theorem after_of_after (hn : list.Nodup) {passed left : List α}
    (h : after list a = passed ++ b :: left) : after list b = left ++ passed ++ [b] := by
  have hlen : passed.length < (after list a).length := by rw [h]; simp
  have hpos : 0 < list.length := by rw [length_after] at hlen; omega
  have hb : (after list a)[passed.length] = b := by simp [h]
  have hidx : list.idxOf b = (passed.length + (list.idxOf a + 1)) % list.length := by
    rw [← hb]
    simp only [after, List.getElem_rotate]
    rw [hn.idxOf_getElem]
  have hround : after list b = (after list a).rotate (passed.length + 1) := by
    rw [after, after, List.rotate_rotate, hidx, ← List.rotate_mod, Nat.mod_add_mod,
      List.rotate_mod]
    congr 1
    omega
  have hsplit : passed ++ b :: left = (passed ++ [b]) ++ left := by simp
  have hcount : passed.length + 1 = (passed ++ [b]).length := by simp
  rw [hround, h, hcount, hsplit, List.rotate_append_length_eq, List.append_assoc]

-- Taking elements out of the list leaves the others in their order.
theorem after_filter {keep : α → Bool} (hm : a ∈ list) (hk : keep a = true) :
    after (list.filter keep) a = (after list a).filter keep := by
  obtain ⟨before, rest, he, hb⟩ := List.eq_append_cons_of_mem hm
  have hb' : a ∉ before.filter keep := fun h => hb (List.mem_filter.mp h).1
  rw [he, after_of_split hb, List.filter_append, List.filter_cons_of_pos hk,
    after_of_split hb', List.filter_append, List.filter_append]
  simp [hk]

-- What a search finds stands before everything else that it could find.
theorem idxOf_le_of_find? {p : α → Bool} (h : list.find? p = some a) (hb : p b = true) :
    list.idxOf a ≤ list.idxOf b := by
  obtain ⟨_, before, rest, rfl, hbefore⟩ := List.find?_eq_some_iff_append.mp h
  have hnot : b ∉ before := fun hm => by
    have := hbefore b hm
    simp [hb] at this
  have hle : (before ++ a :: rest).idxOf a ≤ before.length := by
    by_cases ha : a ∈ before
    · rw [List.idxOf_append_of_mem ha]
      exact (List.idxOf_lt_length_of_mem ha).le
    · rw [List.idxOf_append_of_notMem ha, List.idxOf_cons_self]
      omega
  rw [List.idxOf_append_of_notMem hnot]
  omega

-- Who waits behind the element whose turn comes has come nearer.
theorem idxOf_after_lt {next : α} (hn : list.Nodup) (hnext : next ∈ list) (hne : b ≠ next)
    (hle : (after list a).idxOf next ≤ (after list a).idxOf b) (hb : b ∈ list) :
    (after list next).idxOf b < (after list a).idxOf b := by
  obtain ⟨passed, left, hsplit, hpassed⟩ :=
    List.eq_append_cons_of_mem ((@mem_after _ _ list a next).mpr hnext)
  have hidx : (after list a).idxOf next = passed.length := by
    rw [hsplit, List.idxOf_append_of_notMem hpassed, List.idxOf_cons_self]
    omega
  have hnot : b ∉ passed := by
    intro hm
    have hlt : (after list a).idxOf b < passed.length := by
      rw [hsplit, List.idxOf_append_of_mem hm]
      exact List.idxOf_lt_length_of_mem hm
    omega
  have hleft : b ∈ left := by
    have hm := (@mem_after _ _ list a b).mpr hb
    rw [hsplit, List.mem_append, List.mem_cons] at hm
    rcases hm with hm | hm | hm
    · exact absurd hm hnot
    · exact absurd hm hne
    · exact hm
  rw [after_of_after hn hsplit, hsplit, List.append_assoc, List.idxOf_append_of_mem hleft,
    List.idxOf_append_of_notMem hnot, List.idxOf_cons_ne _ hne.symm]
  omega

-- An element that joins at the end lets the others wait for one turn more.
theorem idxOf_after_concat_le {joined : α} (ha : a ∈ list) (hb : b ∈ list) :
    (after (list ++ [joined]) a).idxOf b ≤ (after list a).idxOf b + 1 := by
  obtain ⟨before, rest, rfl, hbefore⟩ := List.eq_append_cons_of_mem ha
  have hjoin : before ++ a :: rest ++ [joined] = before ++ a :: (rest ++ [joined]) := by simp
  rw [hjoin, after_of_split hbefore, after_of_split hbefore]
  by_cases hr : b ∈ rest
  · rw [List.append_assoc, List.append_assoc, List.append_assoc, List.idxOf_append_of_mem hr,
      List.idxOf_append_of_mem hr]
    omega
  · rw [List.append_assoc, List.append_assoc, List.append_assoc,
      List.idxOf_append_of_notMem hr, List.idxOf_append_of_notMem hr]
    have hle : ([joined] ++ (before ++ [a])).idxOf b ≤ (before ++ [a]).idxOf b + 1 := by
      rw [List.singleton_append, List.idxOf_cons]
      cases joined == b
      · exact Nat.le_refl _
      · exact Nat.zero_le _
    omega

-- Elements that leave let no other one wait longer.
theorem idxOf_filter_le (keep : α → Bool) (hk : keep b = true) :
    (list.filter keep).idxOf b ≤ list.idxOf b := by
  induction list with
  | nil => simp
  | cons head rest ih =>
      by_cases hb : head = b
      · subst hb
        rw [List.filter_cons_of_pos hk, List.idxOf_cons_self]
        omega
      · rw [List.idxOf_cons_ne _ hb]
        by_cases hh : keep head = true
        · rw [List.filter_cons_of_pos hh, List.idxOf_cons_ne _ hb]
          omega
        · rw [List.filter_cons_of_neg hh]
          omega

end Order

section Selections

variable {α : Type*} [DecidableEq α] (list : List α) (p : α → Bool)

-- Where repeatedly going on to the next eligible element leads.
def selections : Nat → α → Option α
  | 0, a => some a
  | count + 1, a => ((after list a).find? p).bind (selections count)

variable {list} {p}

theorem selections_of_split (hn : list.Nodup) {count : Nat} {a b : α} {round rest : List α}
    (h : after list a = round ++ rest) (hb : (round.filter p)[count]? = some b) :
    selections list p (count + 1) a = some b := by
  induction count generalizing a round rest with
  | zero =>
      have hf : round.find? p = some b := by
        rw [← List.head?_filter, List.head?_eq_getElem?, hb]
      simp [selections, h, List.find?_append, hf]
  | succ count ih =>
      cases hf : round.find? p with
      | none =>
          have hnil : round.filter p = [] := by
            rw [← List.head?_eq_none_iff, List.head?_filter, hf]
          simp [hnil] at hb
      | some first =>
          obtain ⟨hp, passed, left, rfl, hpassed⟩ := List.find?_eq_some_iff_append.mp hf
          have hleft : (left.filter p)[count]? = some b := by
            have hnil : passed.filter p = [] := by
              rw [List.filter_eq_nil_iff]
              intro x hx
              simpa using hpassed x hx
            simpa [List.filter_append, hnil, hp] using hb
          have hfind : (after list a).find? p = some first := by
            rw [h, List.find?_append, hf]
            rfl
          have hnext : after list first = left ++ (rest ++ passed ++ [first]) := by
            have hsplit : after list a = passed ++ first :: (left ++ rest) := by
              rw [h]
              simp
            rw [after_of_after hn hsplit]
            simp
          rw [selections, hfind]
          exact ih hnext hleft

-- One round selects the eligible elements in their order, each once.
theorem selections_eq (hn : list.Nodup) {count : Nat} {a b : α}
    (hb : ((after list a).filter p)[count]? = some b) :
    selections list p (count + 1) a = some b :=
  selections_of_split hn (List.append_nil _).symm hb

end Selections

end Msos.Library.Turns
