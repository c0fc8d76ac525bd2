import Msos.Library.Fallible
import Msos.Scripts.GenerateConfig

namespace Msos.Scripts.GenerateConfig

open Msos.Library Msos.Library.Fallible Msos.Library.Nested

section Loop

variable {old new rest result : Entries} {key : Text} {value : Value}

-- What a key of new has in the end, by what it has in old.
inductive Combines : Option Value → Value → Value → Prop
  | absent (value : Value) : Combines none value value
  | leaf (text : Text) (value : Value) : Combines (some (.leaf text)) value value
  | list (items more : List Value) :
      Combines (some (.list items)) (.list more) (.list (items ++ more))
  | dict {inner : Entries} {value : Value} (h : ∃ result, merge inner value = .ok result) :
      Combines (some (.dict inner)) value value

theorem Combines.functional {first : Option Value} {merged merged' : Value}
    (h : Combines first value merged) (h' : Combines first value merged') : merged = merged' := by
  cases h with
  | absent => cases h' with | absent => rfl
  | leaf => cases h' with | leaf => rfl
  | list => cases h' with | list => rfl
  | dict => cases h' with | dict => rfl

theorem mergeEntries_cons_eq_ok_iff :
    mergeEntries old ((key, value) :: rest) = .ok result ↔
      ∃ merged, Combines (old.lookup key) value merged ∧
        mergeEntries (assign key merged old) rest = .ok result := by
  rw [mergeEntries]
  cases old.lookup key with
  | none =>
      constructor
      · exact fun h => ⟨value, .absent value, h⟩
      · rintro ⟨merged, ⟨⟩, h⟩
        exact h
  | some first =>
      cases first with
      | leaf text =>
          constructor
          · exact fun h => ⟨value, .leaf text value, h⟩
          · rintro ⟨merged, ⟨⟩, h⟩
            exact h
      | list items =>
          cases value with
          | leaf text =>
              constructor
              · intro h
                cases h
              · rintro ⟨merged, ⟨⟩, -⟩
          | list more =>
              constructor
              · exact fun h => ⟨_, .list items more, h⟩
              · rintro ⟨merged, ⟨⟩, h⟩
                exact h
          | dict inner =>
              constructor
              · intro h
                cases h
              · rintro ⟨merged, ⟨⟩, -⟩
      | dict inner =>
          constructor
          · intro h
            obtain ⟨discarded, hdiscarded, h⟩ := bind_eq_ok.mp h
            exact ⟨value, .dict ⟨discarded, hdiscarded⟩, h⟩
          · rintro ⟨merged, hmerged, h⟩
            cases hmerged with
            | dict hinner =>
                obtain ⟨discarded, hdiscarded⟩ := hinner
                exact bind_eq_ok.mpr ⟨discarded, hdiscarded, h⟩

-- The loop meets every key once, and leaves the other keys alone.
theorem lookup_mergeEntries (hnew : (new.map Prod.fst).Nodup)
    (h : mergeEntries old new = .ok result) (key : Text) :
    (new.lookup key = none ∧ result.lookup key = old.lookup key) ∨
      ∃ value merged, new.lookup key = some value ∧ Combines (old.lookup key) value merged ∧
        result.lookup key = some merged := by
  induction new generalizing old with
  | nil =>
      rw [mergeEntries] at h
      obtain rfl := Except.ok.inj h
      exact Or.inl ⟨rfl, rfl⟩
  | cons head rest ih =>
      obtain ⟨first, value⟩ := head
      rw [List.map_cons, List.nodup_cons] at hnew
      obtain ⟨merged, hmerged, hrest⟩ := mergeEntries_cons_eq_ok_iff.mp h
      have htail := ih hnew.2 hrest
      by_cases hkey : key = first
      · subst hkey
        have hnone : rest.lookup key = none := lookup_eq_none_iff.mpr hnew.1
        rw [hnone, lookup_assign_self] at htail
        rcases htail with ⟨-, hresult⟩ | ⟨_, _, hsome, -⟩
        · exact Or.inr ⟨value, merged, lookup_cons_self, hmerged, hresult⟩
        · cases hsome
      · rw [lookup_assign_of_ne hkey] at htail
        rw [lookup_cons_of_ne hkey]
        exact htail

-- The loop ends if every key can be combined.
theorem exists_mergeEntries (hnew : (new.map Prod.fst).Nodup)
    (h : ∀ key value, new.lookup key = some value → ∃ merged, Combines (old.lookup key) value merged) :
    ∃ result, mergeEntries old new = .ok result := by
  induction new generalizing old with
  | nil => exact ⟨old, by rw [mergeEntries]⟩
  | cons head rest ih =>
      obtain ⟨first, value⟩ := head
      rw [List.map_cons, List.nodup_cons] at hnew
      obtain ⟨merged, hmerged⟩ := h first value lookup_cons_self
      have hrest : ∀ key value, rest.lookup key = some value →
          ∃ merged', Combines ((assign first merged old).lookup key) value merged' := by
        intro other found hfound
        have hne : other ≠ first := by
          rintro rfl
          exact hnew.1 (mem_keys_of_lookup hfound)
        rw [lookup_assign_of_ne hne]
        exact h other found (by rw [lookup_cons_of_ne hne, hfound])
      obtain ⟨result, hresult⟩ := ih hnew.2 hrest
      exact ⟨result, mergeEntries_cons_eq_ok_iff.mpr ⟨merged, hmerged, hresult⟩⟩

end Loop

section Keeping

-- What a path leads to from a value, if there is one.
def reach (value : Option Value) (path : List Text) : Option Value :=
  value.bind fun value => value.get? path

-- Nothing is lost at a place: neither the key nor a list nor a leaf of old, unless
-- new has a leaf there.
structure KeptAt (old new merged : Option Value) : Prop where
  key : old.isSome ∨ new.isSome → merged.isSome
  lists : ∀ items more, old = some (.list items) → new = some (.list more) →
    merged = some (.list (items ++ more))
  oldList : ∀ items, old = some (.list items) → ∃ more, merged = some (.list (items ++ more))
  newList : ∀ items, new = some (.list items) → ∃ before, merged = some (.list (before ++ items))
  oldLeaf : ∀ text, old = some (.leaf text) →
    merged = some (.leaf text) ∨ ∃ later, new = some (.leaf later)
  newLeaf : ∀ text, new = some (.leaf text) → merged = some (.leaf text)

def Keeps (old new merged : Option Value) : Prop :=
  ∀ path, KeptAt (reach old path) (reach new path) (reach merged path)

def MergeKeeps (old new : Entries) : Prop :=
  ∃ merged, merge old (.dict new) = .ok merged ∧
    Keeps (some (.dict old)) (some (.dict new)) (some (.dict merged))

theorem reach_nil (value : Value) : reach (some value) [] = some value := by
  simp [reach, get?]

theorem reach_dict (entries : Entries) (key : Text) (path : List Text) :
    reach (some (.dict entries)) (key :: path) = reach (entries.lookup key) path := by
  simp [reach, get?]

theorem reach_leaf (text key : Text) (path : List Text) :
    reach (some (.leaf text)) (key :: path) = none := by
  simp [reach, get?]

theorem reach_list (items : List Value) (key : Text) (path : List Text) :
    reach (some (.list items)) (key :: path) = none := by
  simp [reach, get?]

theorem keptAt_none_left (value : Option Value) : KeptAt none value value where
  key := fun h => h.resolve_left (by simp)
  lists := fun items more h => by cases h
  oldList := fun items h => by cases h
  newList := fun items h => ⟨[], h⟩
  oldLeaf := fun text h => by cases h
  newLeaf := fun text h => h

theorem keptAt_none_right (value : Option Value) : KeptAt value none value where
  key := fun h => h.resolve_right (by simp)
  lists := fun items more _ h => by cases h
  oldList := fun items h => ⟨[], by rw [h, List.append_nil]⟩
  newList := fun items h => by cases h
  oldLeaf := fun text h => Or.inl h
  newLeaf := fun text h => by cases h

-- A dictionary has nothing of its own to lose at its place.
theorem keptAt_dict (inner : Entries) (value : Value) :
    KeptAt (some (.dict inner)) (some value) (some value) where
  key := fun _ => rfl
  lists := fun items more h => by cases h
  oldList := fun items h => by cases h
  newList := fun items h => ⟨[], h⟩
  oldLeaf := fun text h => by cases h
  newLeaf := fun text h => h

theorem keptAt_dicts (old new merged : Entries) :
    KeptAt (some (.dict old)) (some (.dict new)) (some (.dict merged)) where
  key := fun _ => rfl
  lists := fun items more h => by cases h
  oldList := fun items h => by cases h
  newList := fun items h => by cases h
  oldLeaf := fun text h => by cases h
  newLeaf := fun text h => by cases h

theorem keptAt_leaf (text later : Text) :
    KeptAt (some (.leaf text)) (some (.leaf later)) (some (.leaf later)) where
  key := fun _ => rfl
  lists := fun items more h => by cases h
  oldList := fun items h => by cases h
  newList := fun items h => by cases h
  oldLeaf := fun _ _ => Or.inr ⟨later, rfl⟩
  newLeaf := fun _ h => h

theorem keptAt_list (items more : List Value) :
    KeptAt (some (.list items)) (some (.list more)) (some (.list (items ++ more))) where
  key := fun _ => rfl
  lists := fun _ _ hi hm => by
    cases hi
    cases hm
    rfl
  oldList := fun _ h => by
    cases h
    exact ⟨more, rfl⟩
  newList := fun _ h => by
    cases h
    exact ⟨items, rfl⟩
  oldLeaf := fun text h => by cases h
  newLeaf := fun text h => by cases h

theorem keeps_none_left (value : Option Value) : Keeps none value value :=
  fun path => keptAt_none_left (reach value path)

theorem keeps_none_right (value : Option Value) : Keeps value none value :=
  fun path => keptAt_none_right (reach value path)

variable {old new merged : Entries}

-- Dictionaries are kept key by key.
theorem keeps_dict_iff :
    Keeps (some (.dict old)) (some (.dict new)) (some (.dict merged)) ↔
      ∀ key, Keeps (old.lookup key) (new.lookup key) (merged.lookup key) := by
  constructor
  · intro h key path
    have hpath := h (key :: path)
    rwa [reach_dict, reach_dict, reach_dict] at hpath
  · intro h path
    cases path with
    | nil =>
        rw [reach_nil, reach_nil, reach_nil]
        exact keptAt_dicts old new merged
    | cons key path =>
        rw [reach_dict, reach_dict, reach_dict]
        exact h key path

theorem keeps_leaf_iff (text : Text) (value : Value) :
    Keeps (some (.leaf text)) (some value) (some value) ↔ ∃ later, value = .leaf later := by
  constructor
  · intro h
    have hroot := h []
    rw [reach_nil, reach_nil] at hroot
    rcases hroot.oldLeaf text rfl with hsame | ⟨later, hlater⟩
    · exact ⟨text, Option.some.inj hsame⟩
    · exact ⟨later, Option.some.inj hlater⟩
  · rintro ⟨later, rfl⟩ path
    cases path with
    | nil =>
        rw [reach_nil, reach_nil]
        exact keptAt_leaf text later
    | cons key path =>
        rw [reach_leaf, reach_leaf]
        exact keptAt_none_left none

theorem keeps_list (items more : List Value) :
    Keeps (some (.list items)) (some (.list more)) (some (.list (items ++ more))) := by
  intro path
  cases path with
  | nil =>
      rw [reach_nil, reach_nil, reach_nil]
      exact keptAt_list items more
  | cons key path =>
      rw [reach_list, reach_list, reach_list]
      exact keptAt_none_left none

-- Only an empty dictionary is kept in something else than a dictionary.
theorem keeps_overwritten_iff (inner : Entries) {value : Value}
    (hvalue : ∀ key path, reach (some value) (key :: path) = none) :
    Keeps (some (.dict inner)) (some value) (some value) ↔ inner = [] := by
  constructor
  · intro h
    cases inner with
    | nil => rfl
    | cons head rest =>
        obtain ⟨key, first⟩ := head
        have hkey := (h [key]).key
        rw [reach_dict, lookup_cons_self, reach_nil, hvalue] at hkey
        exact absurd (hkey (Or.inl rfl)) (by simp)
  · rintro rfl path
    cases path with
    | nil =>
        rw [reach_nil, reach_nil]
        exact keptAt_dict [] value
    | cons key path =>
        rw [hvalue, reach_dict]
        exact keptAt_none_left none

end Keeping

section Fitting

-- A value that can be put in the place of an old one: it repeats all that the old
-- one has, and no list of the old one has an element.
inductive Covered : Value → Value → Prop
  | leaf (text later : Text) : Covered (.leaf text) (.leaf later)
  | list (more : List Value) : Covered (.list []) (.list more)
  | dict {old new : Entries}
      (hkeys : ∀ key value, old.lookup key = some value → (new.lookup key).isSome)
      (hvalues : ∀ key value other, old.lookup key = some value → new.lookup key = some other →
        Covered value other) : Covered (.dict old) (.dict new)
  | emptyText : Covered (.dict []) (.leaf [])
  | emptyList : Covered (.dict []) (.list [])

-- Two values that a key may have in the two objects.
inductive Fits : Value → Value → Prop
  | leaves (text later : Text) : Fits (.leaf text) (.leaf later)
  | lists (items more : List Value) : Fits (.list items) (.list more)
  | dict {inner : Entries} {value : Value} (h : Covered (.dict inner) value) :
      Fits (.dict inner) value

def FitTogether (old new : Entries) : Prop :=
  ∀ key value other, old.lookup key = some value → new.lookup key = some other → Fits value other

-- A key of old that is kept by its value in new has one.
theorem isSome_of_keeps {value : Value} {other : Option Value} (h : Keeps (some value) other other) :
    other.isSome := by
  have hkey := (h []).key
  rw [reach_nil] at hkey
  cases other with
  | none => exact hkey (Or.inl rfl)
  | some other => rfl

theorem combines_dict_iff {inner : Entries} {value : Value} :
    (∃ merged, Combines (some (.dict inner)) value merged) ↔
      ∃ result, merge inner value = .ok result := by
  constructor
  · rintro ⟨merged, hmerged⟩
    cases hmerged with
    | dict h => exact h
  · exact fun h => ⟨value, .dict h⟩

theorem merge_leaf_iff {inner : Entries} {text : Text} :
    (∃ result, merge inner (.leaf text) = .ok result) ↔ text = [] := by
  rw [merge]
  by_cases h : text = []
  · simp [h]
  · simp [h]

theorem merge_list_iff {inner : Entries} {items : List Value} :
    (∃ result, merge inner (.list items) = .ok result) ↔ items = [] := by
  rw [merge]
  cases items with
  | nil => simp
  | cons item rest => simp

theorem merge_dict_iff {inner new : Entries} (hnew : (new.map Prod.fst).Nodup) :
    (∃ result, merge inner (.dict new) = .ok result) ↔
      ∀ key value, new.lookup key = some value →
        ∃ merged, Combines (inner.lookup key) value merged := by
  rw [merge]
  constructor
  · rintro ⟨result, hresult⟩ key value hvalue
    rcases lookup_mergeEntries hnew hresult key with ⟨hnone, -⟩ | ⟨found, merged, hfound, h, -⟩
    · rw [hvalue] at hnone
      cases hnone
    · rw [hvalue] at hfound
      obtain rfl := Option.some.inj hfound
      exact ⟨merged, h⟩
  · exact exists_mergeEntries hnew

-- The new value can be merged into the old one, and then takes its place without a loss.
def Replaces (value other : Value) : Prop :=
  (∃ merged, Combines (some value) other merged) ∧ Keeps (some value) (some other) (some other)

-- One dictionary replaces another if it does so at every key of the old one.
theorem replaces_dict_iff {inner new : Entries} (hnew : (new.map Prod.fst).Nodup) :
    Replaces (.dict inner) (.dict new) ↔
      ∀ key value, inner.lookup key = some value →
        ∃ other, new.lookup key = some other ∧ Replaces value other := by
  rw [Replaces, combines_dict_iff, merge_dict_iff hnew, keeps_dict_iff]
  constructor
  · rintro ⟨hcombines, hkeeps⟩ key value hvalue
    have hkey := hkeeps key
    rw [hvalue] at hkey
    obtain ⟨other, hlookup⟩ := Option.isSome_iff_exists.mp (isSome_of_keeps hkey)
    have hcombine := hcombines key other hlookup
    rw [hvalue] at hcombine
    rw [hlookup] at hkey
    exact ⟨other, hlookup, hcombine, hkey⟩
  · intro hreplaces
    refine ⟨fun key other hlookup => ?_, fun key => ?_⟩
    · cases hvalue : inner.lookup key with
      | none => exact ⟨other, .absent other⟩
      | some value =>
          obtain ⟨found, hfound, hcombine, -⟩ := hreplaces key value hvalue
          rw [hlookup] at hfound
          obtain rfl := Option.some.inj hfound
          exact hcombine
    · cases hvalue : inner.lookup key with
      | none => exact keeps_none_left _
      | some value =>
          obtain ⟨found, hfound, -, hkeeps⟩ := hreplaces key value hvalue
          rw [hfound]
          exact hkeeps

theorem replaces_leaf_iff (text : Text) (other : Value) :
    Replaces (.leaf text) other ↔ ∃ later, other = .leaf later := by
  rw [Replaces, keeps_leaf_iff]
  exact and_iff_right ⟨_, .leaf text other⟩

-- A list is put in the place of another only where that has no elements.
theorem replaces_list_iff (items : List Value) (other : Value) :
    Replaces (.list items) other ↔ items = [] ∧ ∃ more, other = .list more := by
  constructor
  · rintro ⟨⟨merged, hmerged⟩, hkeeps⟩
    cases hmerged with
    | list items more =>
        have hroot := (hkeeps []).lists items more
        rw [reach_nil, reach_nil] at hroot
        have hsame : more = items ++ more := Nested.list.inj (Option.some.inj (hroot rfl rfl))
        exact ⟨List.self_eq_append_left.mp hsame, more, rfl⟩
  · rintro ⟨rfl, more, rfl⟩
    exact ⟨⟨_, .list [] more⟩, keeps_list [] more⟩

theorem covered_iff {value : Value} (other : Value) (hother : WellFormed other) :
    Replaces value other ↔ Covered value other := by
  induction value using Nested.induct generalizing other with
  | leaf text =>
      rw [replaces_leaf_iff]
      constructor
      · rintro ⟨later, rfl⟩
        exact .leaf text later
      · rintro ⟨⟩
        exact ⟨_, rfl⟩
  | list items ih =>
      rw [replaces_list_iff]
      constructor
      · rintro ⟨rfl, more, rfl⟩
        exact .list more
      · rintro ⟨⟩
        exact ⟨rfl, _, rfl⟩
  | dict inner ih =>
      cases other with
      | leaf text =>
          rw [Replaces, combines_dict_iff, merge_leaf_iff, keeps_overwritten_iff inner (reach_leaf text)]
          constructor
          · rintro ⟨rfl, rfl⟩
            exact .emptyText
          · rintro ⟨⟩
            exact ⟨rfl, rfl⟩
      | list items =>
          rw [Replaces, combines_dict_iff, merge_list_iff, keeps_overwritten_iff inner (reach_list items)]
          constructor
          · rintro ⟨rfl, rfl⟩
            exact .emptyList
          · rintro ⟨⟩
            exact ⟨rfl, rfl⟩
      | dict new =>
          have hpair : ∀ key value other, inner.lookup key = some value →
              new.lookup key = some other → (Replaces value other ↔ Covered value other) :=
            fun key value other hvalue hlookup =>
              ih _ (mem_of_lookup hvalue) other (hother.of_lookup hlookup)
          rw [replaces_dict_iff (wellFormed_dict_iff.mp hother).1]
          constructor
          · intro h
            refine .dict (fun key value hvalue => ?_) (fun key value other hvalue hlookup => ?_)
            · obtain ⟨other, hlookup, -⟩ := h key value hvalue
              exact Option.isSome_of_eq_some hlookup
            · obtain ⟨found, hfound, hreplaces⟩ := h key value hvalue
              rw [hlookup] at hfound
              obtain rfl := Option.some.inj hfound
              exact (hpair key value other hvalue hlookup).mp hreplaces
          · intro hcovered key value hvalue
            cases hcovered with
            | dict hkeys hvalues =>
                obtain ⟨other, hlookup⟩ := Option.isSome_iff_exists.mp (hkeys key value hvalue)
                have hcover := hvalues key value other hvalue hlookup
                exact ⟨other, hlookup, (hpair key value other hvalue hlookup).mpr hcover⟩

theorem fits_iff {value : Value} (other : Value) (hother : WellFormed other) :
    (∃ merged, Combines (some value) other merged ∧
      Keeps (some value) (some other) (some merged)) ↔ Fits value other := by
  cases value with
  | leaf text =>
      constructor
      · rintro ⟨merged, hmerged, hkeeps⟩
        cases hmerged with
        | leaf =>
            obtain ⟨later, rfl⟩ := (keeps_leaf_iff text other).mp hkeeps
            exact .leaves text later
      · rintro ⟨⟩
        exact ⟨_, .leaf text _, (keeps_leaf_iff text _).mpr ⟨_, rfl⟩⟩
  | list items =>
      constructor
      · rintro ⟨merged, hmerged, -⟩
        cases hmerged with
        | list items more => exact .lists items more
      · rintro ⟨⟩
        exact ⟨_, .list items _, keeps_list items _⟩
  | dict inner =>
      constructor
      · rintro ⟨merged, hmerged, hkeeps⟩
        cases hmerged with
        | dict h =>
            exact .dict ((covered_iff other hother).mp ⟨⟨other, .dict h⟩, hkeeps⟩)
      · intro h
        cases h with
        | dict hcovered =>
            obtain ⟨⟨merged, hmerged⟩, hkeeps⟩ := (covered_iff other hother).mpr hcovered
            cases hmerged with
            | dict h => exact ⟨other, .dict h, hkeeps⟩

-- A merge keeps everything exactly if the values of every common key fit.
theorem mergeKeeps_iff {old new : Entries} (hnew : WellFormed (.dict new)) :
    MergeKeeps old new ↔ FitTogether old new := by
  have hkeys := (wellFormed_dict_iff.mp hnew).1
  unfold MergeKeeps FitTogether
  rw [merge]
  constructor
  · rintro ⟨result, hresult, hkeeps⟩ key value other hvalue hlookup
    have hkey := keeps_dict_iff.mp hkeeps key
    rcases lookup_mergeEntries hkeys hresult key with ⟨hnone, -⟩ | ⟨found, merged, hfound, h, hmerged⟩
    · rw [hlookup] at hnone
      cases hnone
    · rw [hlookup] at hfound
      obtain rfl := Option.some.inj hfound
      rw [hvalue, hlookup, hmerged] at hkey
      rw [hvalue] at h
      exact (fits_iff _ (hnew.of_lookup hlookup)).mp ⟨merged, h, hkey⟩
  · intro hfit
    have hcombines : ∀ key other, new.lookup key = some other → ∃ merged,
        Combines (old.lookup key) other merged ∧
          Keeps (old.lookup key) (some other) (some merged) := by
      intro key other hlookup
      cases hvalue : old.lookup key with
      | none => exact ⟨other, .absent other, keeps_none_left _⟩
      | some value =>
          exact (fits_iff other (hnew.of_lookup hlookup)).mpr (hfit key value other hvalue hlookup)
    obtain ⟨result, hresult⟩ := @exists_mergeEntries old new hkeys fun key other hlookup =>
      (hcombines key other hlookup).imp fun _ => And.left
    refine ⟨result, hresult, keeps_dict_iff.mpr fun key => ?_⟩
    rcases lookup_mergeEntries hkeys hresult key with ⟨hnone, hsame⟩ | ⟨other, merged, hlookup, h, hmerged⟩
    · rw [hnone, hsame]
      exact keeps_none_right _
    · obtain ⟨merged', h', hkeeps⟩ := hcombines key other hlookup
      rw [hlookup, hmerged, h.functional h']
      exact hkeeps

end Fitting

section Objects

variable {lower : Text → Text}

-- The objects that are built have every key once: they are filled by assignments.
theorem wellFormed_processed (value : Text) (parts : List Text) :
    (∀ current result, WellFormed (.dict current) →
      processDict lower value parts current = .ok result → WellFormed (.dict result)) ∧
    ∀ current result, WellFormed (.list current) →
      processList lower value parts current = .ok result → WellFormed (.list result) := by
  induction parts with
  | nil =>
      constructor
      · intro current result hcurrent h
        rw [processDict] at h
        exact Except.ok.inj h ▸ hcurrent
      · intro current result hcurrent h
        rw [processList] at h
        exact Except.ok.inj h ▸ hcurrent
  | cons part rest ih =>
      obtain ⟨ihDict, ihList⟩ := ih
      constructor
      · intro current result hcurrent h
        rw [processDict] at h
        split at h
        · exact ihDict current result hcurrent h
        · split at h
          · obtain ⟨items, hitems, h⟩ := bind_eq_ok.mp h
            obtain rfl := Except.ok.inj h
            exact hcurrent.assign (ihList [] items wellFormed_emptyList hitems)
          · split at h
            · obtain ⟨⟨key, val⟩, -, h⟩ := bind_eq_ok.mp h
              exact ihDict _ result (hcurrent.assign (wellFormed_leaf val)) h
            · obtain ⟨inner, hinner, h⟩ := bind_eq_ok.mp h
              obtain rfl := Except.ok.inj h
              exact hcurrent.assign (ihDict [] inner wellFormed_emptyDict hinner)
      · intro current result hcurrent h
        rw [processList] at h
        split at h
        · exact ihList current result hcurrent h
        · split at h
          · cases h
          · split at h
            · obtain ⟨⟨key, val⟩, -, h⟩ := bind_eq_ok.mp h
              obtain ⟨inner, hinner, h⟩ := bind_eq_ok.mp h
              obtain rfl := Except.ok.inj h
              have hfirst : WellFormed (.dict (assign key (.leaf val) [])) :=
                wellFormed_emptyDict.assign (wellFormed_leaf val)
              exact hcurrent.concat (ihDict _ inner hfirst hinner)
            · exact ihList _ result (hcurrent.concat wellFormed_emptyDict) h

end Objects

section Runs

variable {lower : Text → Text}

-- An entity is made into an object.
def Gives (lower : Text → Text) (entity : Entity) (obj : Entries) : Prop :=
  ∃ symbol, entity.symbol? = some symbol ∧ processSymbol lower symbol entity.value = .ok obj

def SetsLeaf (lower : Text → Text) (later : List Entity) (path : List Text) : Prop :=
  ∃ entity ∈ later, ∃ obj, Gives lower entity obj ∧
    ∃ text, reach (some (.dict obj)) path = some (.leaf text)

-- The leaves of an object are in the configuration at their paths, unless a later
-- entity has one there, and its lists are in one piece in the lists there.
structure Contains (lower : Text → Text) (config obj : Entries) (later : List Entity) : Prop where
  key : ∀ path, (reach (some (.dict obj)) path).isSome → (reach (some (.dict config)) path).isSome
  leaf : ∀ path text, reach (some (.dict obj)) path = some (.leaf text) →
    reach (some (.dict config)) path = some (.leaf text) ∨ SetsLeaf lower later path
  list : ∀ path items, reach (some (.dict obj)) path = some (.list items) →
    ∃ before after, reach (some (.dict config)) path = some (.list (before ++ items ++ after))

def ContainsEach (lower : Text → Text) (config : Entries) (toParse : List Entity) : Prop :=
  ∀ before entity later obj, toParse = before ++ entity :: later → Gives lower entity obj →
    Contains lower config obj later

-- Every entity of a run has an object, whose values fit those of the configuration.
def StepsFit (lower : Text → Text) (config : Entries) : List Entity → Prop
  | [] => True
  | entity :: rest =>
      match entity.symbol? with
      | none => StepsFit lower config rest
      | some symbol => ∃ obj merged, processSymbol lower symbol entity.value = .ok obj ∧
          FitTogether config obj ∧ mergeEntries config obj = .ok merged ∧
            StepsFit lower merged rest

theorem SetsLeaf.mono {later : List Entity} {path : List Text} (h : SetsLeaf lower later path)
    (entity : Entity) : SetsLeaf lower (entity :: later) path := by
  obtain ⟨other, hm, hsets⟩ := h
  exact ⟨other, List.mem_cons_of_mem entity hm, hsets⟩

theorem contains_self (config : Entries) : Contains lower config config [] where
  key := fun _ h => h
  leaf := fun _ _ h => Or.inl h
  list := fun _ _ h => ⟨[], [], by rw [h, List.nil_append, List.append_nil]⟩

variable {config obj merged final : Entries} {later : List Entity} {entity : Entity}

theorem Contains.mono (h : Contains lower final config later) (entity : Entity) :
    Contains lower final config (entity :: later) where
  key := h.key
  leaf := fun path text hleaf => (h.leaf path text hleaf).imp_right fun hsets => hsets.mono entity
  list := h.list

-- What a merge has kept of the new object stays in the end.
theorem contains_new (hkeeps : Keeps (some (.dict config)) (some (.dict obj)) (some (.dict merged)))
    (h : Contains lower final merged later) : Contains lower final obj later where
  key := fun path hkey => h.key path ((hkeeps path).key (Or.inr hkey))
  leaf := fun path text hleaf => h.leaf path text ((hkeeps path).newLeaf text hleaf)
  list := by
    intro path items hitems
    obtain ⟨front, hfront⟩ := (hkeeps path).newList items hitems
    obtain ⟨before, after, hlist⟩ := h.list path _ hfront
    exact ⟨before ++ front, after, by rw [hlist, ← List.append_assoc before]⟩

-- So does what it has kept of the configuration, unless the object has a leaf there.
theorem contains_old (hkeeps : Keeps (some (.dict config)) (some (.dict obj)) (some (.dict merged)))
    (hgives : Gives lower entity obj) (h : Contains lower final merged later) :
    Contains lower final config (entity :: later) where
  key := fun path hkey => h.key path ((hkeeps path).key (Or.inl hkey))
  leaf := by
    intro path text hleaf
    rcases (hkeeps path).oldLeaf text hleaf with hsame | hlater
    · exact (h.leaf path text hsame).imp_right fun hsets => hsets.mono entity
    · exact Or.inr ⟨entity, List.mem_cons_self, obj, hgives, hlater⟩
  list := by
    intro path items hitems
    obtain ⟨more, hmore⟩ := (hkeeps path).oldList items hitems
    obtain ⟨before, after, hlist⟩ := h.list path _ hmore
    exact ⟨before, more ++ after, by rw [hlist]; simp⟩

theorem generateFrom_contains (toParse : List Entity) (h : StepsFit lower config toParse) :
    ∃ final, generateFrom lower config toParse = .ok final ∧
      Contains lower final config toParse ∧ ContainsEach lower final toParse := by
  induction toParse generalizing config with
  | nil =>
      refine ⟨config, rfl, contains_self config, ?_⟩
      intro before entity later obj hsplit
      exact absurd (congrArg List.length hsplit) (by simp)
  | cons entity rest ih =>
      cases hsymbol : entity.symbol? with
      | none =>
          rw [StepsFit, hsymbol] at h
          obtain ⟨final, hfinal, hcontains, heach⟩ := ih h
          refine ⟨final, by rw [generateFrom, hsymbol]; exact hfinal, hcontains.mono entity, ?_⟩
          intro before other later obj hsplit hgives
          cases before with
          | nil =>
              obtain ⟨rfl, rfl⟩ := List.cons.inj hsplit
              obtain ⟨symbol, hsome, -⟩ := hgives
              rw [hsymbol] at hsome
              cases hsome
          | cons first before => exact heach before other later obj (List.cons.inj hsplit).2 hgives
      | some symbol =>
          rw [StepsFit, hsymbol] at h
          obtain ⟨obj, merged, hobj, hfit, hmerged, hrest⟩ := h
          obtain ⟨final, hfinal, hcontains, heach⟩ := ih hrest
          have hwell : WellFormed (.dict obj) :=
            (wellFormed_processed entity.value symbol).1 [] obj wellFormed_emptyDict hobj
          have hgives : Gives lower entity obj := ⟨symbol, hsymbol, hobj⟩
          obtain ⟨merged', hmerged', hkeeps⟩ := (mergeKeeps_iff hwell).mpr hfit
          rw [merge, hmerged] at hmerged'
          obtain rfl := Except.ok.inj hmerged'
          refine ⟨final, ?_, contains_old hkeeps hgives hcontains, ?_⟩
          · rw [generateFrom, hsymbol]
            exact bind_eq_ok.mpr ⟨obj, hobj, bind_eq_ok.mpr ⟨merged, hmerged, hfinal⟩⟩
          · intro before other later found hsplit hfound
            cases before with
            | nil =>
                obtain ⟨rfl, rfl⟩ := List.cons.inj hsplit
                obtain ⟨symbol', hsymbol', hfound⟩ := hfound
                rw [hsymbol] at hsymbol'
                obtain rfl := Option.some.inj hsymbol'
                rw [hobj] at hfound
                obtain rfl := Except.ok.inj hfound
                exact contains_new hkeeps hcontains
            | cons first before =>
                exact heach before other later found (List.cons.inj hsplit).2 hfound

-- A run whose merges all have values that fit loses no value of its entities.
theorem keepsEverything_iff (lower : Text → Text) :
    (∀ old new, WellFormed (.dict new) → (MergeKeeps old new ↔ FitTogether old new)) ∧
    ∀ toParse, StepsFit lower [] toParse →
      ∃ config, generateJson lower toParse = .ok config ∧ ContainsEach lower config toParse := by
  refine ⟨fun old new hnew => mergeKeeps_iff hnew, fun toParse h => ?_⟩
  obtain ⟨config, hconfig, -, heach⟩ := generateFrom_contains toParse h
  exact ⟨config, hconfig, heach⟩

def named : Entries := [("uart".toList, .dict [("name".toList, .leaf "tty1".toList)])]

def pinned : Entries :=
  [("uart".toList, .dict [("name".toList, .leaf "tty1".toList), ("pin".toList, .leaf "1".toList)])]

def namedEntity : Entity := ⟨"PARAM_ARRAY.uart.name$tty1".toList, []⟩

def pinnedEntity : Entity := ⟨"PARAM_ARRAY.uart.name$tty1.pin$1".toList, []⟩

theorem named_fits_pinned : FitTogether named pinned := by
  intro key value other hold hnew
  obtain ⟨rfl, rfl⟩ := lookup_singleton_iff.mp hold
  obtain ⟨-, rfl⟩ := lookup_singleton_iff.mp hnew
  refine .dict (.dict (fun key value hfound => ?_) fun key value other hfound hother => ?_)
  · obtain ⟨rfl, rfl⟩ := lookup_singleton_iff.mp hfound
    rfl
  · obtain ⟨rfl, rfl⟩ := lookup_singleton_iff.mp hfound
    obtain rfl : other = .leaf "tty1".toList := (Option.some.inj hother).symm
    exact .leaf _ _

theorem stepsFit_uart : StepsFit id [] [namedEntity, pinnedEntity] := by
  have hfirst : namedEntity.symbol? = some ["uart".toList, "name$tty1".toList] := by decide
  have hsecond : pinnedEntity.symbol? = some ["uart".toList, "name$tty1".toList, "pin$1".toList] := by
    decide
  simp only [StepsFit, hfirst, hsecond]
  have hempty : FitTogether [] named := by
    intro key value other h
    cases h
  exact ⟨named, named, rfl, hempty, rfl, pinned, pinned, rfl, named_fits_pinned, rfl, trivial⟩

-- The second entity has the dictionary of the first one and all that is in it.
theorem keepsEverything_iff_uart :
    (MergeKeeps named pinned ↔ FitTogether named pinned) ∧
    ∃ config, generateJson id [namedEntity, pinnedEntity] = .ok config ∧
      ContainsEach id config [namedEntity, pinnedEntity] := by
  have hinner : WellFormed (.dict (assign "pin".toList (.leaf "1".toList)
      (assign "name".toList (.leaf "tty1".toList) []))) :=
    (wellFormed_emptyDict.assign (wellFormed_leaf _)).assign (wellFormed_leaf _)
  have hnew : WellFormed (.dict pinned) := wellFormed_emptyDict.assign hinner
  exact ⟨(keepsEverything_iff id).1 _ _ hnew, (keepsEverything_iff id).2 _ stepsFit_uart⟩

-- The keys of a common dictionary are lost.
theorem common_dict_not_mergeKeeps :
    ¬MergeKeeps [("a".toList, .dict [("x".toList, .leaf "1".toList)])]
      [("a".toList, .dict [("y".toList, .leaf "2".toList)])] := by
  have hinner : WellFormed (.dict [("y".toList, .leaf "2".toList)]) :=
    wellFormed_emptyDict.assign (wellFormed_leaf _)
  have hnew : WellFormed (.dict [("a".toList, .dict [("y".toList, .leaf "2".toList)])]) :=
    wellFormed_emptyDict.assign hinner
  rw [mergeKeeps_iff hnew]
  intro h
  cases h "a".toList _ _ lookup_cons_self lookup_cons_self with
  | dict hcovered =>
      cases hcovered with
      | dict hkeys hvalues => exact absurd (hkeys "x".toList _ lookup_cons_self) (by decide)

end Runs

end Msos.Scripts.GenerateConfig
