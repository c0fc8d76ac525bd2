import Mathlib.Data.List.Infix

namespace Msos.Library.Search

section Position

variable {α : Type*} [BEq α] [LawfulBEq α]

theorem idxOf_le_of_getElem? {element : α} {list : List α} {i : Nat}
    (h : list[i]? = some element) : list.idxOf element ≤ i := by
  obtain ⟨hi, hget⟩ := List.getElem?_eq_some_iff.mp h
  by_contra hlt
  have hnot := List.not_of_lt_findIdx (Nat.lt_of_not_le hlt)
  simp [hget] at hnot

end Position

section Find

variable {α : Type*} [DecidableEq α]

-- The first position at which the pattern occurs in the text; none is npos.
def find (pattern : List α) : List α → Option Nat
  | [] => if pattern = [] then some 0 else none
  | head :: rest =>
      if pattern <+: head :: rest then some 0 else (find pattern rest).map (· + 1)

theorem find_isSome_iff (pattern text : List α) :
    (find pattern text).isSome ↔ pattern <:+: text := by
  induction text with
  | nil => simp [find]
  | cons head rest ih =>
      rw [List.infix_cons_iff, ← ih]
      simp only [find]
      split <;> simp_all

-- The last position of the element; none is npos.
def findLastOf (element : α) : List α → Option Nat
  | [] => none
  | head :: rest =>
      match findLastOf element rest with
      | some index => some (index + 1)
      | none => if head = element then some 0 else none

theorem findLastOf_of_notMem {element : α} {list : List α} (h : element ∉ list) :
    findLastOf element list = none := by
  induction list with
  | nil => rfl
  | cons head rest ih =>
      obtain ⟨hhead, hrest⟩ := not_or.mp (List.mem_cons.not.mp h)
      simp only [findLastOf, ih hrest]
      exact ite_cond_eq_false _ _ (eq_false (Ne.symm hhead))

theorem findLastOf_append {element : α} (before : List α) {after : List α} (h : element ∉ after) :
    findLastOf element (before ++ element :: after) = some before.length := by
  induction before with
  | nil => simp [findLastOf, findLastOf_of_notMem h]
  | cons head rest ih => simp [findLastOf, ih]

-- A list that has the element splits at the last one.
theorem exists_last {element : α} {list : List α} (h : element ∈ list) :
    ∃ before after, list = before ++ element :: after ∧ element ∉ after := by
  induction list with
  | nil => cases h
  | cons head rest ih =>
      by_cases hrest : element ∈ rest
      · obtain ⟨before, after, rfl, hafter⟩ := ih hrest
        exact ⟨head :: before, after, rfl, hafter⟩
      · obtain rfl := (List.mem_cons.mp h).resolve_right hrest
        exact ⟨[], rest, rfl, hrest⟩

-- The first and the last position of another element; none is npos.
def findFirstNotOf (element : α) (list : List α) : Option Nat := list.findIdx? (· ≠ element)

def findLastNotOf (element : α) : List α → Option Nat
  | [] => none
  | head :: rest =>
      match findLastNotOf element rest with
      | some index => some (index + 1)
      | none => if head ≠ element then some 0 else none

theorem findFirstNotOf_replicate {element other : α} (h : other ≠ element) (count : Nat)
    (rest : List α) :
    findFirstNotOf element (List.replicate count element ++ other :: rest) = some count := by
  induction count with
  | zero =>
      rw [findFirstNotOf, List.replicate_zero, List.nil_append, List.findIdx?_cons]
      exact if_pos (decide_eq_true h)
  | succ count ih =>
      rw [findFirstNotOf] at ih ⊢
      rw [List.replicate_succ, List.cons_append, List.findIdx?_cons, ih]
      simp

theorem drop_findFirstNotOf {element : α} {list : List α} {first : Nat}
    (h : findFirstNotOf element list = some first) :
    list.drop first = list.dropWhile (· = element) := by
  induction list generalizing first with
  | nil => cases h
  | cons head rest ih =>
      rw [findFirstNotOf, List.findIdx?_cons] at h
      by_cases hhead : head = element
      · rw [if_neg (by simp [hhead]), Option.map_eq_some_iff] at h
        obtain ⟨index, hindex, rfl⟩ := h
        rw [List.drop_succ_cons, List.dropWhile_cons_of_pos (by simp [hhead])]
        exact ih hindex
      · rw [if_pos (by simp [hhead])] at h
        obtain rfl := Option.some.inj h
        rw [List.drop_zero, List.dropWhile_cons_of_neg (by simp [hhead])]

theorem findLastNotOf_replicate (element : α) (count : Nat) :
    findLastNotOf element (List.replicate count element) = none := by
  induction count with
  | zero => rfl
  | succ count ih => simp [List.replicate_succ, findLastNotOf, ih]

theorem findLastNotOf_append {element other : α} (h : other ≠ element) (before : List α)
    (count : Nat) :
    findLastNotOf element (before ++ other :: List.replicate count element) =
      some before.length := by
  induction before with
  | nil => simp [findLastNotOf, findLastNotOf_replicate, h]
  | cons head rest ih => simp [findLastNotOf, ih]

-- The first position of an element behind a list without it
theorem findIdx?_append {element : α} {before : List α} (h : element ∉ before) (after : List α) :
    (before ++ element :: after).findIdx? (· = element) = some before.length := by
  induction before with
  | nil =>
      rw [List.nil_append, List.findIdx?_cons]
      exact if_pos (decide_eq_true rfl)
  | cons head rest ih =>
      obtain ⟨hhead, hrest⟩ := not_or.mp (List.mem_cons.not.mp h)
      rw [List.cons_append, List.findIdx?_cons, ih hrest]
      simp [Ne.symm hhead]

theorem findIdx?_of_notMem {element : α} {list : List α} (h : element ∉ list) :
    list.findIdx? (· = element) = none := by
  rw [List.findIdx?_eq_none_iff]
  exact fun other ho => decide_eq_false fun he => h (he ▸ ho)

end Find

section First

variable {α : Type*}

-- The visited elements are those of the list up to the first with the property,
-- or all of them if there is none.
inductive UpToFirst (P : α → Prop) : List α → List α → Prop
  | done : UpToFirst P [] []
  | found {element : α} {rest : List α} (h : P element) :
      UpToFirst P (element :: rest) [element]
  | next {element : α} {rest visited : List α} (h : ¬P element) (hrest : UpToFirst P rest visited) :
      UpToFirst P (element :: rest) (element :: visited)

theorem UpToFirst.head?_eq {P : α → Prop} {list visited : List α} (h : UpToFirst P list visited) :
    visited.head? = list.head? := by
  cases h with
  | done => rfl
  | found h => rfl
  | next h hrest => rfl

-- A single element is visited whether or not it has the property.
theorem upToFirst_singleton (P : α → Prop) (element : α) : UpToFirst P [element] [element] := by
  by_cases h : P element
  · exact .found h
  · exact .next h .done

end First

section Longest

variable {α : Type*} (measure : α → Nat)

-- Keep the first of the strictly longest candidates, starting from `best`.
def pickLongest (best : α) (candidates : List α) : α :=
  candidates.foldl (fun best next => if measure best < measure next then next else best) best

theorem pickLongest_eq_or_mem (best : α) (candidates : List α) :
    pickLongest measure best candidates = best ∨
      (pickLongest measure best candidates ∈ candidates ∧
        measure best < measure (pickLongest measure best candidates)) := by
  induction candidates generalizing best with
  | nil => exact Or.inl rfl
  | cons next rest ih =>
      simp only [pickLongest, List.foldl_cons]
      split
      · rename_i hlt
        rcases ih next with he | ⟨hm, hl⟩
        · right
          simp only [pickLongest] at he
          rw [he]
          exact ⟨List.mem_cons_self, hlt⟩
        · exact Or.inr ⟨List.mem_cons_of_mem _ hm, hlt.trans hl⟩
      · rcases ih best with he | ⟨hm, hl⟩
        · exact Or.inl he
        · exact Or.inr ⟨List.mem_cons_of_mem _ hm, hl⟩

theorem measure_le_pickLongest (best : α) (candidates : List α) :
    measure best ≤ measure (pickLongest measure best candidates) ∧
      ∀ candidate ∈ candidates, measure candidate ≤ measure (pickLongest measure best candidates) := by
  induction candidates generalizing best with
  | nil => simp [pickLongest]
  | cons next rest ih =>
      simp only [pickLongest, List.foldl_cons, List.forall_mem_cons]
      split
      · rename_i hlt
        obtain ⟨hb, hc⟩ := ih next
        exact ⟨(Nat.le_of_lt hlt).trans hb, hb, hc⟩
      · rename_i hge
        obtain ⟨hb, hc⟩ := ih best
        exact ⟨hb, (Nat.le_of_not_lt hge).trans hb, hc⟩

end Longest

end Msos.Library.Search
