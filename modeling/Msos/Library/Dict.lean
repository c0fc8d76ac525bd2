import Mathlib.Data.List.Induction
import Mathlib.Data.List.Nodup
import Mathlib.Data.Set.Function

namespace Msos.Library

-- A dictionary in the order in which its keys were first set.
structure Dict (κ υ : Type*) where
  items : List (κ × υ)
  keys_nodup : (items.map Prod.fst).Nodup

namespace Dict

variable {κ υ : Type*} [DecidableEq κ]

def empty : Dict κ υ := ⟨[], List.nodup_nil⟩

def get? (dict : Dict κ υ) (key : κ) : Option υ :=
  (dict.items.find? fun item => item.1 = key).map Prod.snd

def replace (key : κ) (value : υ) (items : List (κ × υ)) : List (κ × υ) :=
  items.map fun item => if item.1 = key then (key, value) else item

theorem keys_replace (key : κ) (value : υ) (items : List (κ × υ)) :
    (replace key value items).map Prod.fst = items.map Prod.fst := by
  rw [replace, List.map_map]
  apply List.map_congr_left
  intro item _
  by_cases h : item.1 = key <;> simp [h]

def set (dict : Dict κ υ) (key : κ) (value : υ) : Dict κ υ :=
  if h : key ∈ dict.items.map Prod.fst then
    ⟨replace key value dict.items, by rw [keys_replace]; exact dict.keys_nodup⟩
  else
    ⟨dict.items ++ [(key, value)], by
      rw [List.map_append, List.nodup_append]
      refine ⟨dict.keys_nodup, List.nodup_singleton _, fun other hm new hn he => ?_⟩
      rw [List.map_singleton, List.mem_singleton] at hn
      have hk : other = key := he.trans hn
      exact h (hk ▸ hm)⟩

def ofList (items : List (κ × υ)) : Dict κ υ :=
  items.foldl (fun dict item => dict.set item.1 item.2) empty

def update (dict other : Dict κ υ) : Dict κ υ :=
  other.items.foldl (fun dict item => dict.set item.1 item.2) dict

def filter (dict : Dict κ υ) (keep : κ × υ → Prop) [DecidablePred keep] : Dict κ υ :=
  ⟨dict.items.filter keep, dict.keys_nodup.sublist (List.filter_sublist.map Prod.fst)⟩

section Lookup

variable (dict : Dict κ υ)

theorem get?_eq_some_iff {key : κ} {value : υ} :
    dict.get? key = some value ↔ (key, value) ∈ dict.items := by
  constructor
  · intro h
    obtain ⟨item, hf, rfl⟩ := Option.map_eq_some_iff.mp h
    have he : item.1 = key := by simpa using List.find?_some hf
    rw [← he]
    exact List.mem_of_find?_eq_some hf
  · intro hm
    cases hf : dict.items.find? fun item => item.1 = key with
    | none =>
        have := List.find?_eq_none.mp hf _ hm
        simp at this
    | some item =>
        have he : item.1 = key := by simpa using List.find?_some hf
        have hi := List.inj_on_of_nodup_map dict.keys_nodup (List.mem_of_find?_eq_some hf) hm he
        simp [get?, hf, hi]

theorem get?_eq_none_iff {key : κ} : dict.get? key = none ↔ key ∉ dict.items.map Prod.fst := by
  constructor
  · intro h hm
    obtain ⟨item, hitem, rfl⟩ := List.mem_map.mp hm
    rw [(get?_eq_some_iff dict).mpr hitem] at h
    cases h
  · intro h
    refine Option.eq_none_iff_forall_ne_some.mpr fun value hv => h ?_
    exact List.mem_map_of_mem (f := Prod.fst) ((get?_eq_some_iff dict).mp hv)

theorem mem_set {key : κ} {value : υ} {item : κ × υ} (h : item ∈ (dict.set key value).items) :
    item = (key, value) ∨ item ∈ dict.items := by
  unfold set at h
  split at h
  · obtain ⟨old, ho, rfl⟩ := List.mem_map.mp h
    by_cases he : old.1 = key
    · simp [he]
    · simp [he, ho]
  · rcases List.mem_append.mp h with h | h
    · exact Or.inr h
    · exact Or.inl (List.mem_singleton.mp h)

theorem mem_keys_set (key : κ) (value : υ) {other : κ} :
    other ∈ (dict.set key value).items.map Prod.fst ↔
      other = key ∨ other ∈ dict.items.map Prod.fst := by
  unfold set
  split
  · rename_i hm
    rw [keys_replace]
    refine ⟨Or.inr, fun h => ?_⟩
    rcases h with rfl | h
    · exact hm
    · exact h
  · rw [List.map_append, List.mem_append, List.map_singleton, List.mem_singleton, or_comm]

theorem mem_set_iff {key : κ} {value : υ} {item : κ × υ} :
    item ∈ (dict.set key value).items ↔
      item = (key, value) ∨ item ∈ dict.items ∧ item.1 ≠ key := by
  unfold set
  split
  · rename_i hkey
    simp only [replace, List.mem_map]
    constructor
    · rintro ⟨old, hold, rfl⟩
      by_cases he : old.1 = key
      · exact Or.inl (if_pos he)
      · rw [if_neg he]
        exact Or.inr ⟨hold, he⟩
    · rintro (rfl | ⟨hitem, hne⟩)
      · obtain ⟨old, hold, he⟩ := List.mem_map.mp hkey
        exact ⟨old, hold, if_pos he⟩
      · exact ⟨item, hitem, if_neg hne⟩
  · rename_i hkey
    rw [List.mem_append, List.mem_singleton, or_comm]
    refine or_congr_right ⟨fun hitem => ⟨hitem, ?_⟩, And.left⟩
    rintro rfl
    exact hkey (List.mem_map_of_mem hitem)

theorem get?_set_self (key : κ) (value : υ) : (dict.set key value).get? key = some value :=
  (get?_eq_some_iff _).mpr ((mem_set_iff dict).mpr (Or.inl rfl))

theorem get?_set_of_ne {key other : κ} (value : υ) (h : other ≠ key) :
    (dict.set key value).get? other = dict.get? other := by
  ext found
  simp only [get?_eq_some_iff, mem_set_iff, Prod.mk.injEq, h, false_and, false_or, ne_eq,
    not_false_eq_true, and_true]

end Lookup

section OfList

theorem mem_foldl_set {items : List (κ × υ)} {dict : Dict κ υ} {item : κ × υ}
    (h : item ∈ (items.foldl (fun dict item => dict.set item.1 item.2) dict).items) :
    item ∈ items ∨ item ∈ dict.items := by
  induction items generalizing dict with
  | nil => exact Or.inr h
  | cons head rest ih =>
      rcases ih h with h | h
      · exact Or.inl (List.mem_cons_of_mem _ h)
      · rcases mem_set _ h with rfl | h
        · exact Or.inl List.mem_cons_self
        · exact Or.inr h

theorem mem_keys_foldl_set {items : List (κ × υ)} {dict : Dict κ υ} {key : κ} :
    key ∈ (items.foldl (fun dict item => dict.set item.1 item.2) dict).items.map Prod.fst ↔
      key ∈ items.map Prod.fst ∨ key ∈ dict.items.map Prod.fst := by
  induction items generalizing dict with
  | nil => simp
  | cons head rest ih =>
      rw [List.foldl_cons, ih, mem_keys_set, List.map_cons, List.mem_cons]
      tauto

theorem mem_of_mem_ofList {items : List (κ × υ)} {item : κ × υ}
    (h : item ∈ (ofList items).items) : item ∈ items := by
  rcases mem_foldl_set h with h | h
  · exact h
  · cases h

theorem exists_mem_ofList {items : List (κ × υ)} {item : κ × υ} (h : item ∈ items) :
    ∃ value, (item.1, value) ∈ (ofList items).items := by
  have hk : item.1 ∈ (ofList items).items.map Prod.fst :=
    mem_keys_foldl_set.mpr (Or.inl (List.mem_map_of_mem h))
  obtain ⟨found, hf, he⟩ := List.mem_map.mp hk
  exact ⟨found.2, by rw [← he]; exact hf⟩

theorem get?_foldl_set {items : List (κ × υ)} {dict : Dict κ υ} {key : κ}
    (h : key ∉ items.map Prod.fst) :
    (items.foldl (fun dict item => dict.set item.1 item.2) dict).get? key = dict.get? key := by
  induction items generalizing dict with
  | nil => rfl
  | cons head rest ih =>
      obtain ⟨hhead, hrest⟩ := not_or.mp (List.mem_cons.not.mp h)
      rw [List.foldl_cons, ih hrest, get?_set_of_ne dict head.2 hhead]

-- A key that is set has the value that it gets last, whatever was there before.
theorem get?_foldl_set_of_mem {items : List (κ × υ)} {dict other : Dict κ υ} {key : κ}
    (h : key ∈ items.map Prod.fst) :
    (items.foldl (fun dict item => dict.set item.1 item.2) dict).get? key =
      (items.foldl (fun dict item => dict.set item.1 item.2) other).get? key := by
  induction items using List.reverseRecOn with
  | nil => cases h
  | append_singleton front last ih =>
      rw [List.foldl_concat, List.foldl_concat]
      by_cases he : key = last.1
      · rw [he, get?_set_self, get?_set_self]
      · rw [get?_set_of_ne _ _ he, get?_set_of_ne _ _ he]
        apply ih
        rw [List.map_append, List.mem_append, List.map_singleton, List.mem_singleton] at h
        exact h.resolve_right he

-- The last value of a key is kept.
theorem get?_ofList_append (before : List (κ × υ)) {after : List (κ × υ)} {key : κ} (value : υ)
    (h : key ∉ after.map Prod.fst) :
    (ofList (before ++ (key, value) :: after)).get? key = some value := by
  rw [ofList, List.foldl_append, List.foldl_cons, get?_foldl_set h]
  exact get?_set_self _ key value

end OfList

section Update

variable {dict other : Dict κ υ}

-- Where the values are a function of the keys, an update is a union.
theorem mem_update_iff (value : κ → υ) (hdict : ∀ item ∈ dict.items, item.2 = value item.1)
    (hother : ∀ item ∈ other.items, item.2 = value item.1) (item : κ × υ) :
    item ∈ (dict.update other).items ↔ item ∈ other.items ∨ item ∈ dict.items := by
  constructor
  · exact mem_foldl_set
  · intro hitem
    have hvalue : item.2 = value item.1 := hitem.elim (hother item) (hdict item)
    have hkey : item.1 ∈ (dict.update other).items.map Prod.fst :=
      mem_keys_foldl_set.mpr (hitem.imp List.mem_map_of_mem List.mem_map_of_mem)
    obtain ⟨found, hfound, he⟩ := List.mem_map.mp hkey
    have hfoundValue : found.2 = value found.1 :=
      (mem_foldl_set hfound).elim (hother found) (hdict found)
    have hsame : found = item := Prod.ext he (by rw [hfoundValue, hvalue, he])
    exact hsame ▸ hfound

end Update

section Rename

variable {rename : κ → κ} {names : Set κ}

-- A renaming that keeps the keys apart goes through set.
theorem items_set_rename (hrename : Set.InjOn rename names) {dict renamed : Dict κ υ}
    (hkeys : ∀ item ∈ dict.items, item.1 ∈ names)
    (hitems : renamed.items = dict.items.map fun item => (rename item.1, item.2))
    {key : κ} (hkey : key ∈ names) (value : υ) :
    (renamed.set (rename key) value).items =
      (dict.set key value).items.map fun item => (rename item.1, item.2) := by
  have hsame : ∀ item ∈ dict.items, rename item.1 = rename key ↔ item.1 = key := by
    intro item hitem
    exact hrename.eq_iff (hkeys item hitem) hkey
  have hmem : rename key ∈ renamed.items.map Prod.fst ↔ key ∈ dict.items.map Prod.fst := by
    simp only [hitems, List.map_map, List.mem_map, Function.comp]
    constructor
    · rintro ⟨item, hitem, he⟩
      exact ⟨item, hitem, (hsame item hitem).mp he⟩
    · rintro ⟨item, hitem, he⟩
      exact ⟨item, hitem, (hsame item hitem).mpr he⟩
  unfold set
  by_cases hfound : key ∈ dict.items.map Prod.fst
  · rw [dif_pos hfound, dif_pos (hmem.mpr hfound)]
    simp only [replace, hitems, List.map_map]
    apply List.map_congr_left
    intro item hitem
    by_cases he : item.1 = key
    · simp [he]
    · have hne : rename item.1 ≠ rename key := fun h => he ((hsame item hitem).mp h)
      simp [he, hne]
  · rw [dif_neg hfound, dif_neg (hmem.not.mpr hfound)]
    simp [hitems]

theorem items_ofList_rename (hrename : Set.InjOn rename names) {items : List (κ × υ)}
    (hnames : ∀ item ∈ items, item.1 ∈ names) :
    (ofList (items.map fun item => (rename item.1, item.2))).items =
      (ofList items).items.map fun item => (rename item.1, item.2) := by
  induction items using List.reverseRecOn with
  | nil => rfl
  | append_singleton front item ih =>
      have hfront : ∀ other ∈ front, other.1 ∈ names :=
        fun other hother => hnames other (List.mem_append_left _ hother)
      have hkeys : ∀ other ∈ (ofList front).items, other.1 ∈ names :=
        fun other hother => hfront other (mem_of_mem_ofList hother)
      have hset := items_set_rename hrename hkeys (ih hfront)
        (hnames item (List.mem_append_right _ List.mem_cons_self)) item.2
      simpa only [ofList, List.map_append, List.map_cons, List.map_nil, List.foldl_append,
        List.foldl_cons, List.foldl_nil] using hset

end Rename

end Dict

end Msos.Library
