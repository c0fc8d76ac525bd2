import Mathlib.Data.List.Nodup
import Msos.Library.Turns

namespace Msos.Library

-- A doubly linked list whose nodes never move: iterators name nodes, and
-- erasing a node leaves the iterators to it dangling for good.
structure LinkedList (α : Type*) where
  nodes : List (Nat × α)
  allocated : Nat
  ids_lt : ∀ node ∈ nodes, node.1 < allocated
  ids_nodup : (nodes.map Prod.fst).Nodup

namespace LinkedList

variable {α : Type*}

def empty : LinkedList α := ⟨[], 0, by simp, by simp⟩

def ids (list : LinkedList α) : List Nat := list.nodes.map Prod.fst

def values (list : LinkedList α) : List α := list.nodes.map Prod.snd

def length (list : LinkedList α) : Nat := list.nodes.length

def get? (list : LinkedList α) (id : Nat) : Option α :=
  (list.nodes.find? fun node => node.1 = id).map Prod.snd

-- The first node, or the end.
def first (list : LinkedList α) : Option Nat := list.ids.head?

-- The node after a node, or the end. The list is circular through its
-- sentinel, so the end is followed by the first node.
def next (list : LinkedList α) : Option Nat → Option Nat
  | none => list.first
  | some id => list.ids[list.ids.idxOf id + 1]?

def pushBack (list : LinkedList α) (value : α) : LinkedList α where
  nodes := list.nodes ++ [(list.allocated, value)]
  allocated := list.allocated + 1
  ids_lt := by
    intro node hm
    rcases List.mem_append.mp hm with hm | hm
    · have := list.ids_lt node hm
      omega
    · simp [List.mem_singleton.mp hm]
  ids_nodup := by
    rw [List.map_append, List.nodup_append]
    refine ⟨list.ids_nodup, List.nodup_singleton _, ?_⟩
    intro id hm other ho
    obtain ⟨node, hn, rfl⟩ := List.mem_map.mp hm
    have := list.ids_lt node hn
    simp only [List.map_cons, List.map_nil, List.mem_singleton] at ho
    omega

def eraseNode (list : LinkedList α) (id : Nat) : LinkedList α where
  nodes := list.nodes.filter fun node => node.1 ≠ id
  allocated := list.allocated
  ids_lt := fun node hm => list.ids_lt node (List.mem_filter.mp hm).1
  ids_nodup := List.Nodup.sublist (List.filter_sublist.map _) list.ids_nodup

-- Change the value of one node in place.
def update (list : LinkedList α) (id : Nat) (f : α → α) : LinkedList α where
  nodes := list.nodes.map fun node => if node.1 = id then (node.1, f node.2) else node
  allocated := list.allocated
  ids_lt := by
    intro node hm
    obtain ⟨old, ho, rfl⟩ := List.mem_map.mp hm
    have := list.ids_lt old ho
    split <;> exact this
  ids_nodup := by
    have he : (Prod.fst ∘ fun node : Nat × α => if node.1 = id then (node.1, f node.2) else node) =
        Prod.fst := by
      funext node
      simp only [Function.comp_apply]
      split <;> rfl
    rw [List.map_map, he]
    exact list.ids_nodup

-- Change every value in place.
def mapValues (list : LinkedList α) (f : α → α) : LinkedList α where
  nodes := list.nodes.map fun node => (node.1, f node.2)
  allocated := list.allocated
  ids_lt := by
    intro node hm
    obtain ⟨old, ho, rfl⟩ := List.mem_map.mp hm
    exact list.ids_lt old ho
  ids_nodup := by
    rw [List.map_map]
    exact list.ids_nodup

section Nodes

variable (list : LinkedList α)

@[simp] theorem ids_empty : (empty : LinkedList α).ids = [] := rfl

@[simp] theorem values_empty : (empty : LinkedList α).values = [] := rfl

@[simp] theorem length_ids : list.ids.length = list.length := List.length_map ..

theorem nodup_ids : list.ids.Nodup := list.ids_nodup

@[simp] theorem ids_pushBack (value : α) :
    (list.pushBack value).ids = list.ids ++ [list.allocated] := by
  simp [ids, pushBack]

@[simp] theorem values_pushBack (value : α) :
    (list.pushBack value).values = list.values ++ [value] := by
  simp [values, pushBack]

@[simp] theorem ids_eraseNode (id : Nat) :
    (list.eraseNode id).ids = list.ids.filter (· ≠ id) := by
  simp only [ids, eraseNode, List.filter_map]
  rfl

@[simp] theorem ids_update (id : Nat) (f : α → α) : (list.update id f).ids = list.ids := by
  simp only [ids, update, List.map_map]
  apply List.map_congr_left
  intro node _
  simp only [Function.comp_apply]
  split <;> rfl

@[simp] theorem ids_mapValues (f : α → α) : (list.mapValues f).ids = list.ids := by
  simp [ids, mapValues]

@[simp] theorem values_mapValues (f : α → α) :
    (list.mapValues f).values = list.values.map f := by
  simp [values, mapValues]

theorem ids_eq_nil_iff : list.ids = [] ↔ list.nodes = [] := List.map_eq_nil_iff

theorem allocated_notMem : list.allocated ∉ list.ids := by
  intro hm
  obtain ⟨node, hn, he⟩ := List.mem_map.mp hm
  have := list.ids_lt node hn
  omega

theorem get?_eq_some_iff {id : Nat} {value : α} :
    list.get? id = some value ↔ (id, value) ∈ list.nodes := by
  constructor
  · intro h
    obtain ⟨node, hf, rfl⟩ := Option.map_eq_some_iff.mp h
    have he : node.1 = id := by simpa using List.find?_some hf
    rw [← he]
    exact List.mem_of_find?_eq_some hf
  · intro hm
    cases hf : list.nodes.find? fun node => node.1 = id with
    | none =>
        have := List.find?_eq_none.mp hf _ hm
        simp at this
    | some node =>
        have he : node.1 = id := by simpa using List.find?_some hf
        have hn := List.inj_on_of_nodup_map list.ids_nodup (List.mem_of_find?_eq_some hf) hm he
        simp [get?, hf, hn]

theorem isSome_get?_iff {id : Nat} : (list.get? id).isSome ↔ id ∈ list.ids := by
  rw [Option.isSome_iff_exists]
  constructor
  · rintro ⟨value, h⟩
    exact List.mem_map_of_mem (f := Prod.fst) (list.get?_eq_some_iff.mp h)
  · intro hm
    obtain ⟨node, hn, rfl⟩ := List.mem_map.mp hm
    exact ⟨node.2, list.get?_eq_some_iff.mpr hn⟩

theorem get?_eq_none_iff {id : Nat} : list.get? id = none ↔ id ∉ list.ids := by
  rw [← isSome_get?_iff, Option.not_isSome_iff_eq_none]

theorem mem_ids_of_get? {id : Nat} {value : α} (h : list.get? id = some value) : id ∈ list.ids :=
  list.isSome_get?_iff.mp (by simp [h])

theorem exists_get?_of_mem {id : Nat} (hm : id ∈ list.ids) : ∃ value, list.get? id = some value :=
  Option.isSome_iff_exists.mp (list.isSome_get?_iff.mpr hm)

theorem mem_values_of_get? {id : Nat} {value : α} (h : list.get? id = some value) :
    value ∈ list.values :=
  List.mem_map_of_mem (f := Prod.snd) (list.get?_eq_some_iff.mp h)

theorem exists_get?_of_mem_values {value : α} (hm : value ∈ list.values) :
    ∃ id, list.get? id = some value := by
  obtain ⟨node, hn, rfl⟩ := List.mem_map.mp hm
  exact ⟨node.1, list.get?_eq_some_iff.mpr hn⟩

theorem get?_pushBack_of_mem {id : Nat} (hm : id ∈ list.ids) (value : α) :
    (list.pushBack value).get? id = list.get? id := by
  obtain ⟨old, h⟩ := list.exists_get?_of_mem hm
  rw [h]
  exact (get?_eq_some_iff _).mpr (List.mem_append_left _ (list.get?_eq_some_iff.mp h))

theorem get?_pushBack_allocated (value : α) :
    (list.pushBack value).get? list.allocated = some value :=
  (get?_eq_some_iff _).mpr (List.mem_append_right _ (List.mem_singleton_self _))

theorem get?_pushBack_cases {id : Nat} {value found : α}
    (h : (list.pushBack value).get? id = some found) :
    list.get? id = some found ∨ id = list.allocated ∧ found = value := by
  have hm := mem_ids_of_get? _ h
  rw [ids_pushBack, List.mem_append, List.mem_singleton] at hm
  rcases hm with hm | rfl
  · rw [list.get?_pushBack_of_mem hm] at h
    exact Or.inl h
  · rw [get?_pushBack_allocated] at h
    exact Or.inr ⟨rfl, (Option.some.inj h).symm⟩

theorem get?_mapValues (f : α → α) (id : Nat) :
    (list.mapValues f).get? id = (list.get? id).map f := by
  simp only [get?, mapValues, List.find?_map, Option.map_map]
  rfl

theorem get?_update_self (id : Nat) (f : α → α) :
    (list.update id f).get? id = (list.get? id).map f := by
  apply Option.ext
  intro value
  rw [get?_eq_some_iff, Option.map_eq_some_iff]
  constructor
  · intro hm
    obtain ⟨⟨other, old⟩, hn, he⟩ := List.mem_map.mp hm
    by_cases ho : other = id
    · subst ho
      simp only [ite_true, Prod.mk.injEq, true_and] at he
      exact ⟨old, list.get?_eq_some_iff.mpr hn, he⟩
    · rw [ite_cond_eq_false _ _ (eq_false ho)] at he
      exact absurd (congrArg Prod.fst he) ho
  · rintro ⟨old, ho, rfl⟩
    exact List.mem_map.mpr ⟨(id, old), list.get?_eq_some_iff.mp ho, by simp⟩

theorem get?_update_of_ne {id other : Nat} (hne : other ≠ id) (f : α → α) :
    (list.update id f).get? other = list.get? other := by
  apply Option.ext
  intro value
  rw [get?_eq_some_iff, get?_eq_some_iff]
  simp only [update, List.mem_map]
  constructor
  · rintro ⟨node, hn, he⟩
    split at he
    · rename_i hid
      exact absurd (hid ▸ (congrArg Prod.fst he).symm) hne
    · exact he ▸ hn
  · intro hm
    exact ⟨(other, value), hm, by simp [hne]⟩

theorem get?_eraseNode_of_ne {id erased : Nat} (hne : id ≠ erased) :
    (list.eraseNode erased).get? id = list.get? id := by
  apply Option.ext
  intro value
  rw [get?_eq_some_iff, get?_eq_some_iff]
  simp [eraseNode, hne]

theorem mem_values_of_mem_eraseNode {erased : Nat} {value : α}
    (hm : value ∈ (list.eraseNode erased).values) : value ∈ list.values := by
  obtain ⟨node, hn, rfl⟩ := List.mem_map.mp hm
  exact List.mem_map_of_mem (List.mem_filter.mp hn).1

theorem mem_values_update {id : Nat} {f : α → α} {value : α}
    (hm : value ∈ (list.update id f).values) :
    value ∈ list.values ∨ ∃ old ∈ list.values, value = f old := by
  obtain ⟨node, hn, rfl⟩ := List.mem_map.mp hm
  obtain ⟨old, ho, rfl⟩ := List.mem_map.mp hn
  have hold := List.mem_map_of_mem (f := Prod.snd) ho
  split
  · exact Or.inr ⟨old.2, hold, rfl⟩
  · exact Or.inl hold

theorem map_values_update {β : Type*} {f : α → α} {g : α → β} (hg : ∀ value, g (f value) = g value)
    (id : Nat) : (list.update id f).values.map g = list.values.map g := by
  simp only [values, update, List.map_map]
  apply List.map_congr_left
  intro node _
  by_cases he : node.1 = id <;> simp [he, hg]

theorem values_eraseNode {id : Nat} (keep : α → Bool)
    (hk : ∀ node ∈ list.nodes, keep node.2 = true ↔ node.1 ≠ id) :
    (list.eraseNode id).values = list.values.filter keep := by
  simp only [values, eraseNode, List.filter_map]
  congr 1
  apply List.filter_congr
  intro node hn
  rw [Bool.eq_iff_iff, decide_eq_true_iff, Function.comp_apply, hk node hn]

end Nodes

section Next

variable (list : LinkedList α)

-- The node after the one at a position, going round at the end.
def successor (id : Nat) : Option Nat :=
  match list.next (some id) with
  | none => list.first
  | some after => some after

theorem successor_getElem {i : Nat} (hi : i < list.ids.length) :
    list.successor list.ids[i] = list.ids[(i + 1) % list.ids.length]? := by
  have hidx : list.ids.idxOf list.ids[i] = i := list.nodup_ids.idxOf_getElem i hi
  simp only [successor, next, hidx]
  by_cases hlast : i + 1 < list.ids.length
  · rw [List.getElem?_eq_getElem hlast, Nat.mod_eq_of_lt hlast, List.getElem?_eq_getElem hlast]
  · have he : i + 1 = list.ids.length := by omega
    rw [List.getElem?_eq_none (by omega), he, Nat.mod_self]
    simp [first, List.head?_eq_getElem?]

theorem successor_mem {id : Nat} (hm : id ∈ list.ids) :
    ∃ after, list.successor id = some after ∧ after ∈ list.ids := by
  obtain ⟨i, hi, rfl⟩ := List.getElem_of_mem hm
  have hlt : (i + 1) % list.ids.length < list.ids.length := Nat.mod_lt _ (by omega)
  exact ⟨list.ids[(i + 1) % list.ids.length], by
    rw [successor_getElem, List.getElem?_eq_getElem hlt], List.getElem_mem hlt⟩

theorem successor_ne {id : Nat} (hm : id ∈ list.ids) (hl : 1 < list.length) :
    list.successor id ≠ some id := by
  obtain ⟨i, hi, rfl⟩ := List.getElem_of_mem hm
  have hlen := list.length_ids
  have hlt : (i + 1) % list.ids.length < list.ids.length := Nat.mod_lt _ (by omega)
  rw [successor_getElem, List.getElem?_eq_getElem hlt]
  intro he
  have heq := (List.Nodup.getElem_inj_iff list.nodup_ids).mp (Option.some.inj he)
  by_cases hlast : i + 1 < list.ids.length
  · rw [Nat.mod_eq_of_lt hlast] at heq
    omega
  · have hr : i + 1 = list.ids.length := by omega
    rw [hr, Nat.mod_self] at heq
    omega

theorem first_mem (hne : list.ids ≠ []) : ∃ id, list.first = some id ∧ id ∈ list.ids := by
  obtain ⟨id, rest, he⟩ := List.exists_cons_of_ne_nil hne
  exact ⟨id, by simp [first, he], by simp [he]⟩

-- The nodes as a walk along the list comes to them, from the successor of a
-- node to the node itself.
def turns (id : Nat) : List Nat := Turns.after list.ids id

@[simp] theorem mem_turns {id other : Nat} : other ∈ list.turns id ↔ other ∈ list.ids :=
  Turns.mem_after

theorem nodup_turns (id : Nat) : (list.turns id).Nodup := Turns.nodup_after list.nodup_ids id

@[simp] theorem length_turns (id : Nat) : (list.turns id).length = list.length := by
  simp [turns]

theorem successor_eq_head? {id : Nat} (hm : id ∈ list.ids) :
    list.successor id = (list.turns id).head? := by
  obtain ⟨i, hi, rfl⟩ := List.getElem_of_mem hm
  rw [successor_getElem, turns, Turns.after, list.nodup_ids.idxOf_getElem, List.head?_eq_getElem?,
    List.getElem?_rotate (by omega), Nat.zero_add]

theorem turns_eraseNode {id erased : Nat} (hm : id ∈ list.ids) (hne : id ≠ erased) :
    (list.eraseNode erased).turns id = (list.turns id).filter (· ≠ erased) := by
  rw [turns, ids_eraseNode, Turns.after_filter hm (by simpa using hne), turns]

end Next

end LinkedList

end Msos.Library
