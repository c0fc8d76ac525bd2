import Mathlib.Data.List.Nodup

namespace Msos.Library

-- Nested dictionaries and lists, as they are read from a file of JSON.
inductive Nested (κ σ : Type) where
  | leaf (value : σ)
  | list (items : List (Nested κ σ))
  | dict (entries : List (κ × Nested κ σ))

namespace Nested

variable {κ σ : Type}

-- The hypotheses for a list and for a dictionary are about its members.
@[elab_as_elim]
theorem induct {motive : Nested κ σ → Prop} (leaf : ∀ value, motive (.leaf value))
    (list : ∀ items, (∀ item ∈ items, motive item) → motive (.list items))
    (dict : ∀ entries, (∀ entry ∈ entries, motive entry.2) → motive (.dict entries))
    (value : Nested κ σ) : motive value := by
  refine Nested.rec (motive_1 := motive) (motive_2 := fun items => ∀ item ∈ items, motive item)
    (motive_3 := fun entries => ∀ entry ∈ entries, motive entry.2)
    (motive_4 := fun entry => motive entry.2) leaf list dict ?_ ?_ ?_ ?_ ?_ value
  · exact fun item h => absurd h List.not_mem_nil
  · exact fun head rest hhead hrest item h =>
      (List.mem_cons.mp h).elim (fun he => he ▸ hhead) (hrest item)
  · exact fun entry h => absurd h List.not_mem_nil
  · exact fun head rest hhead hrest entry h =>
      (List.mem_cons.mp h).elim (fun he => he ▸ hhead) (hrest entry)
  · exact fun key value h => h

section Dictionaries

variable [BEq κ] [LawfulBEq κ] {entries : List (κ × Nested κ σ)} {key : κ} {value : Nested κ σ}

-- Set the value of a key: in its place, or behind the others.
def assign (key : κ) (value : Nested κ σ) :
    List (κ × Nested κ σ) → List (κ × Nested κ σ)
  | [] => [(key, value)]
  | (other, old) :: rest =>
      if other == key then (key, value) :: rest else (other, old) :: assign key value rest

-- What the keys of a path lead to.
def get? : Nested κ σ → List κ → Option (Nested κ σ)
  | value, [] => some value
  | .dict entries, key :: path => (entries.lookup key).bind fun value => get? value path
  | .leaf _, _ :: _ => none
  | .list _, _ :: _ => none

theorem lookup_cons_self : ((key, value) :: entries).lookup key = some value :=
  List.lookup_cons_self

theorem lookup_cons_of_ne {other : κ} (h : other ≠ key) :
    ((key, value) :: entries).lookup other = entries.lookup other := by
  rw [List.lookup_cons, beq_eq_false_iff_ne.mpr h]

theorem lookup_singleton_iff {other : κ} {found : Nested κ σ} :
    [(key, value)].lookup other = some found ↔ other = key ∧ found = value := by
  by_cases h : other = key
  · rw [h, lookup_cons_self]
    simp [eq_comm]
  · rw [lookup_cons_of_ne h]
    simp [h]

theorem assign_cons_self {old : Nested κ σ} :
    assign key value ((key, old) :: entries) = (key, value) :: entries := by
  rw [assign, if_pos (beq_self_eq_true key)]

theorem assign_cons_of_ne {other : κ} {old : Nested κ σ} (h : other ≠ key) :
    assign key value ((other, old) :: entries) = (other, old) :: assign key value entries := by
  rw [assign, if_neg fun he => h (eq_of_beq he)]

theorem lookup_assign_self : (assign key value entries).lookup key = some value := by
  induction entries with
  | nil => exact lookup_cons_self
  | cons head rest ih =>
      obtain ⟨other, old⟩ := head
      by_cases h : other = key
      · subst h
        rw [assign_cons_self, lookup_cons_self]
      · rw [assign_cons_of_ne h, lookup_cons_of_ne (Ne.symm h), ih]

theorem lookup_assign_of_ne {other : κ} (h : other ≠ key) :
    (assign key value entries).lookup other = entries.lookup other := by
  induction entries with
  | nil => exact lookup_cons_of_ne h
  | cons head rest ih =>
      obtain ⟨first, old⟩ := head
      by_cases hfirst : first = key
      · subst hfirst
        rw [assign_cons_self, lookup_cons_of_ne h, lookup_cons_of_ne h]
      · rw [assign_cons_of_ne hfirst]
        by_cases hother : other = first
        · subst hother
          rw [lookup_cons_self, lookup_cons_self]
        · rw [lookup_cons_of_ne hother, lookup_cons_of_ne hother, ih]

theorem mem_assign {entry : κ × Nested κ σ} (h : entry ∈ assign key value entries) :
    entry = (key, value) ∨ entry ∈ entries := by
  induction entries with
  | nil => exact Or.inl (List.mem_singleton.mp h)
  | cons head rest ih =>
      obtain ⟨other, old⟩ := head
      by_cases hother : other = key
      · subst hother
        rw [assign_cons_self] at h
        exact (List.mem_cons.mp h).imp_right (List.mem_cons_of_mem _)
      · rw [assign_cons_of_ne hother] at h
        rcases List.mem_cons.mp h with rfl | hrest
        · exact Or.inr List.mem_cons_self
        · exact (ih hrest).imp_right (List.mem_cons_of_mem _)

theorem nodup_keys_assign (h : (entries.map Prod.fst).Nodup) :
    ((assign key value entries).map Prod.fst).Nodup := by
  induction entries with
  | nil => exact List.nodup_singleton _
  | cons head rest ih =>
      obtain ⟨other, old⟩ := head
      by_cases hother : other = key
      · subst hother
        rw [assign_cons_self]
        exact h
      · rw [List.map_cons, List.nodup_cons] at h
        rw [assign_cons_of_ne hother, List.map_cons, List.nodup_cons]
        refine ⟨fun hm => ?_, ih h.2⟩
        obtain ⟨entry, hentry, he⟩ := List.mem_map.mp hm
        rcases mem_assign hentry with rfl | hrest
        · exact hother he.symm
        · exact h.1 (he ▸ List.mem_map_of_mem hrest)

theorem mem_of_lookup (h : entries.lookup key = some value) : (key, value) ∈ entries := by
  induction entries with
  | nil => cases h
  | cons head rest ih =>
      obtain ⟨other, old⟩ := head
      by_cases hother : key = other
      · subst hother
        rw [lookup_cons_self] at h
        obtain rfl := Option.some.inj h
        exact List.mem_cons_self
      · rw [lookup_cons_of_ne hother] at h
        exact List.mem_cons_of_mem _ (ih h)

theorem mem_keys_of_lookup (h : entries.lookup key = some value) : key ∈ entries.map Prod.fst :=
  List.mem_map.mpr ⟨_, mem_of_lookup h, rfl⟩

theorem lookup_eq_none_iff : entries.lookup key = none ↔ key ∉ entries.map Prod.fst := by
  induction entries with
  | nil => simp
  | cons head rest ih =>
      obtain ⟨other, old⟩ := head
      by_cases hother : key = other
      · subst hother
        simp
      · rw [lookup_cons_of_ne hother, ih, List.map_cons, List.mem_cons, not_or]
        exact ⟨fun h => ⟨hother, h⟩, And.right⟩

end Dictionaries

section WellFormed

-- A dictionary has a key once, at every depth.
mutual

def WellFormed : Nested κ σ → Prop
  | .leaf _ => True
  | .list items => WellFormedItems items
  | .dict entries => (entries.map Prod.fst).Nodup ∧ WellFormedEntries entries

def WellFormedItems : List (Nested κ σ) → Prop
  | [] => True
  | item :: rest => WellFormed item ∧ WellFormedItems rest

def WellFormedEntries : List (κ × Nested κ σ) → Prop
  | [] => True
  | (_, value) :: rest => WellFormed value ∧ WellFormedEntries rest

end

theorem wellFormedItems_iff_forall (items : List (Nested κ σ)) :
    WellFormedItems items ↔ ∀ item ∈ items, WellFormed item := by
  induction items with
  | nil => simp [WellFormedItems]
  | cons item rest ih => rw [WellFormedItems, List.forall_mem_cons, ih]

theorem wellFormedEntries_iff_forall (entries : List (κ × Nested κ σ)) :
    WellFormedEntries entries ↔ ∀ entry ∈ entries, WellFormed entry.2 := by
  induction entries with
  | nil => simp [WellFormedEntries]
  | cons entry rest ih =>
      obtain ⟨key, value⟩ := entry
      rw [WellFormedEntries, List.forall_mem_cons, ih]

theorem wellFormed_dict_iff {entries : List (κ × Nested κ σ)} :
    WellFormed (.dict entries) ↔
      (entries.map Prod.fst).Nodup ∧ ∀ entry ∈ entries, WellFormed entry.2 := by
  rw [WellFormed, wellFormedEntries_iff_forall]

theorem wellFormed_list_iff {items : List (Nested κ σ)} :
    WellFormed (.list items) ↔ ∀ item ∈ items, WellFormed item := by
  rw [WellFormed, wellFormedItems_iff_forall]

theorem wellFormed_leaf (value : σ) : WellFormed (.leaf value : Nested κ σ) := by
  rw [WellFormed]
  trivial

theorem wellFormed_emptyDict : WellFormed (.dict [] : Nested κ σ) :=
  wellFormed_dict_iff.mpr ⟨List.nodup_nil, fun _ h => absurd h List.not_mem_nil⟩

theorem wellFormed_emptyList : WellFormed (.list [] : Nested κ σ) :=
  wellFormed_list_iff.mpr fun _ h => absurd h List.not_mem_nil

theorem WellFormed.concat {items : List (Nested κ σ)} {item : Nested κ σ}
    (h : WellFormed (.list items)) (hi : WellFormed item) : WellFormed (.list (items ++ [item])) := by
  refine wellFormed_list_iff.mpr fun other hm => ?_
  rcases List.mem_append.mp hm with hm | hm
  · exact wellFormed_list_iff.mp h other hm
  · rw [List.mem_singleton.mp hm]
    exact hi

theorem WellFormed.of_lookup [BEq κ] [LawfulBEq κ] {entries : List (κ × Nested κ σ)} {key : κ}
    {value : Nested κ σ} (h : WellFormed (.dict entries)) (hl : entries.lookup key = some value) :
    WellFormed value :=
  (wellFormed_dict_iff.mp h).2 _ (mem_of_lookup hl)

theorem WellFormed.assign [BEq κ] [LawfulBEq κ] {entries : List (κ × Nested κ σ)} {key : κ}
    {value : Nested κ σ} (h : WellFormed (.dict entries)) (hv : WellFormed value) :
    WellFormed (.dict (assign key value entries)) := by
  obtain ⟨hkeys, hvalues⟩ := wellFormed_dict_iff.mp h
  refine wellFormed_dict_iff.mpr ⟨nodup_keys_assign hkeys, fun entry hentry => ?_⟩
  rcases mem_assign hentry with rfl | hm
  · exact hv
  · exact hvalues entry hm

end WellFormed

end Nested

end Msos.Library
