import Mathlib.Data.List.Perm.Basic
import Msos.Library.Fallible
import Msos.Scripts.GenerateBinary

namespace Msos.Scripts

open Msos.Library Msos.Library.Fallible

section Unique

variable {relocations : List NamedRelocation} {name : Name}

theorem hasRelocation_append (relocation : NamedRelocation) :
    hasRelocation (relocations ++ [relocation]) name ↔
      hasRelocation relocations name ∨ relocation.name = name := by
  simp [hasRelocation, or_and_right, exists_or]

theorem unique_append (relocation : NamedRelocation) : unique (relocations ++ [relocation]) =
    if hasRelocation (unique relocations) relocation.name then unique relocations
    else unique relocations ++ [relocation] := by
  rw [unique, List.foldl_append]
  rfl

theorem hasRelocation_unique_iff :
    hasRelocation (unique relocations) name ↔ hasRelocation relocations name := by
  induction relocations using List.reverseRecOn with
  | nil => rfl
  | append_singleton rest relocation ih =>
      rw [unique_append, hasRelocation_append]
      split
      · rename_i hm
        refine ⟨fun h => Or.inl (ih.mp h), fun h => ?_⟩
        rcases h with h | rfl
        · exact ih.mpr h
        · exact hm
      · rw [hasRelocation_append, ih]

theorem unique_append_of_mem {relocation : NamedRelocation}
    (h : hasRelocation relocations relocation.name) :
    unique (relocations ++ [relocation]) = unique relocations := by
  rw [unique_append, if_pos (hasRelocation_unique_iff.mpr h)]

theorem unique_append_of_not_mem {relocation : NamedRelocation}
    (h : ¬hasRelocation relocations relocation.name) :
    unique (relocations ++ [relocation]) = unique relocations ++ [relocation] := by
  rw [unique_append, if_neg fun hm => h (hasRelocation_unique_iff.mp hm)]

theorem mem_of_mem_unique {relocation : NamedRelocation} (h : relocation ∈ unique relocations) :
    relocation ∈ relocations := by
  induction relocations using List.reverseRecOn with
  | nil => exact h
  | append_singleton rest last ih =>
      rw [unique_append] at h
      rw [List.mem_append]
      split at h
      · exact Or.inl (ih h)
      · rcases List.mem_append.mp h with h | h
        · exact Or.inl (ih h)
        · exact Or.inr h

theorem getIndexOfRelocation_of_mem (h : hasRelocation relocations name) :
    ∃ relocation ∈ relocations, relocation.name = name ∧
      getIndexOfRelocation relocations name = relocation.index := by
  obtain ⟨relocation, hm, hn⟩ := h
  cases hf : relocations.find? fun relocation => relocation.name = name with
  | none =>
      have := List.find?_eq_none.mp hf relocation hm
      simp [hn] at this
  | some found =>
      have hname : found.name = name := by simpa using List.find?_some hf
      refine ⟨found, List.mem_of_find?_eq_some hf, hname, ?_⟩
      rw [getIndexOfRelocation, hf]

end Unique

section Extraction

variable (processed : List Symbol)

-- A relocation against the global offset table, with its symbol.
def Got (relocation : Relocation) (symbol : Symbol) : Prop :=
  relocation.infoType = .gotBrel ∧ findProcessed processed relocation.symbolName = some symbol

def slotIndices (extracted : Extracted) : List Int :=
  (unique extracted.externals).map NamedRelocation.index ++
    extracted.locals.map LocalRelocation.index

-- A relocation against main, when the module has it itself
def AgainstMain (relocation : Relocation) : Prop :=
  relocation.symbolName = main ∧
    ∃ symbol, Got processed relocation symbol ∧ localization symbol = .exported

-- What is known of the three lists: each name and each local relocation has a
-- slot of its own, and they are numbered without a gap, main among them.
structure Allots (done : List Relocation) (extracted : Extracted) : Prop where
  externals : ∀ external ∈ extracted.externals, ∃ relocation ∈ done, ∃ symbol,
    Got processed relocation symbol ∧ localization symbol = .external ∧
      external.name = relocation.symbolName ∧ external.offset = relocation.offset
  locals : ∀ local_ ∈ extracted.locals, ∃ relocation ∈ done, ∃ symbol,
    Got processed relocation symbol ∧ localization symbol = .internal ∧
      local_ = ⟨relocation.symbolValue, relocation.offset, local_.index, relocation.sectionIndex⟩
  exporteds : extracted.exporteds = [] ↔ ∀ relocation ∈ done, ¬AgainstMain processed relocation
  covered : ∀ relocation ∈ done, relocation.infoType = .gotBrel → ∃ symbol,
    Got processed relocation symbol ∧ (localization symbol ≠ .exported →
      ∃ patch ∈ patches extracted, patch.1 = relocation.offset)
  shared : ∀ external ∈ extracted.externals, ∀ other ∈ extracted.externals,
    external.name = other.name → external.index = other.index
  numbered : ∃ count : Nat, extracted.index = count ∧
    (slotIndices extracted ++ (unique extracted.exporteds).map NamedRelocation.index).Perm
      ((List.range count).map Int.ofNat)

-- What is known when no exported symbol has been met
structure Extracts (done : List Relocation) (extracted : Extracted) : Prop where
  exporteds : extracted.exporteds = []
  externals : ∀ external ∈ extracted.externals, ∃ relocation ∈ done, ∃ symbol,
    Got processed relocation symbol ∧ localization symbol = .external ∧
      external.name = relocation.symbolName ∧ external.offset = relocation.offset
  locals : ∀ local_ ∈ extracted.locals, ∃ relocation ∈ done, ∃ symbol,
    Got processed relocation symbol ∧ localization symbol = .internal ∧
      local_ = ⟨relocation.symbolValue, relocation.offset, local_.index, relocation.sectionIndex⟩
  covered : ∀ relocation ∈ done, relocation.infoType = .gotBrel →
    ∃ patch ∈ patches extracted, patch.1 = relocation.offset
  shared : ∀ external ∈ extracted.externals, ∀ other ∈ extracted.externals,
    external.name = other.name → external.index = other.index
  numbered : ∃ count : Nat, extracted.index = count ∧
    (slotIndices extracted).Perm ((List.range count).map Int.ofNat)

variable {processed} {done : List Relocation} {extracted next : Extracted} {relocation : Relocation}
  {symbol : Symbol}

theorem Got.unique {other : Symbol} (h : Got processed relocation symbol)
    (h' : Got processed relocation other) : symbol = other :=
  Option.some.inj (h.2.symm.trans h'.2)

theorem not_againstMain_of_got (hg : Got processed relocation symbol)
    (hl : localization symbol ≠ .exported) : ¬AgainstMain processed relocation := by
  rintro ⟨_, other, ho, hexported⟩
  rw [← hg.unique ho] at hexported
  exact hl hexported

theorem mem_patches {patch : Nat × Int} : patch ∈ patches extracted ↔
    (∃ local_ ∈ extracted.locals, (local_.offset, local_.index) = patch) ∨
      (∃ external ∈ extracted.externals, (external.offset, external.index) = patch) ∨
        ∃ exported ∈ extracted.exporteds, (exported.offset, exported.index) = patch := by
  rw [patches, List.mem_append, List.mem_append, List.mem_map, List.mem_map, List.mem_map, or_assoc]

theorem patches_subset (hlocals : extracted.locals ⊆ next.locals)
    (hexternals : extracted.externals ⊆ next.externals)
    (hexporteds : extracted.exporteds ⊆ next.exporteds) : patches extracted ⊆ patches next := by
  intro patch hp
  rw [mem_patches] at hp ⊢
  rcases hp with ⟨local_, hm, he⟩ | ⟨external, hm, he⟩ | ⟨exported, hm, he⟩
  · exact Or.inl ⟨local_, hlocals hm, he⟩
  · exact Or.inr (Or.inl ⟨external, hexternals hm, he⟩)
  · exact Or.inr (Or.inr ⟨exported, hexporteds hm, he⟩)

-- The next number, wherever its slot stands in the list
theorem perm_append_next {first rest : List Int} {count : Nat}
    (h : (first ++ rest).Perm ((List.range count).map Int.ofNat)) :
    (first ++ [(count : Int)] ++ rest).Perm ((List.range (count + 1)).map Int.ofNat) := by
  rw [List.range_succ, List.map_append, List.append_assoc]
  refine List.Perm.trans ?_ (h.append_right _)
  rw [List.append_assoc]
  exact List.Perm.append_left _ List.perm_append_comm

theorem allots_empty : Allots processed [] Extracted.empty := by
  refine ⟨?_, ?_, ⟨fun _ _ hm => absurd hm List.not_mem_nil, fun _ => rfl⟩, ?_, ?_, 0, rfl, .nil⟩
  · exact fun _ hm => absurd hm List.not_mem_nil
  · exact fun _ hm => absurd hm List.not_mem_nil
  · exact fun _ hm => absurd hm List.not_mem_nil
  · exact fun _ hm => absurd hm List.not_mem_nil

section Step

variable (h : Allots processed done extracted)
include h

theorem Allots.externals_append {external : NamedRelocation} (hm : external ∈ extracted.externals) :
    ∃ other ∈ done ++ [relocation], ∃ symbol, Got processed other symbol ∧
      localization symbol = .external ∧ external.name = other.symbolName ∧
        external.offset = other.offset := by
  obtain ⟨old, ho, hrest⟩ := h.externals external hm
  exact ⟨old, List.mem_append_left _ ho, hrest⟩

theorem Allots.locals_append {local_ : LocalRelocation} (hm : local_ ∈ extracted.locals) :
    ∃ other ∈ done ++ [relocation], ∃ symbol, Got processed other symbol ∧
      localization symbol = .internal ∧
        local_ = ⟨other.symbolValue, other.offset, local_.index, other.sectionIndex⟩ := by
  obtain ⟨old, ho, hrest⟩ := h.locals local_ hm
  exact ⟨old, List.mem_append_left _ ho, hrest⟩

theorem Allots.covered_append (hp : patches extracted ⊆ patches next)
    (hn : relocation.infoType = .gotBrel → ∃ symbol, Got processed relocation symbol ∧
      (localization symbol ≠ .exported → ∃ patch ∈ patches next, patch.1 = relocation.offset)) :
    ∀ other ∈ done ++ [relocation], other.infoType = .gotBrel → ∃ symbol,
      Got processed other symbol ∧ (localization symbol ≠ .exported →
        ∃ patch ∈ patches next, patch.1 = other.offset) := by
  intro other hm ht
  rcases List.mem_append.mp hm with hm | hm
  · obtain ⟨symbol, hg, hold⟩ := h.covered other hm ht
    refine ⟨symbol, hg, fun hl => ?_⟩
    obtain ⟨patch, hpatch, he⟩ := hold hl
    exact ⟨patch, hp hpatch, he⟩
  · obtain rfl := List.mem_singleton.mp hm
    exact hn ht

theorem Allots.shared_append {index : Int}
    (hshared : ∀ external ∈ extracted.externals, external.name = relocation.symbolName →
      external.index = index) :
    ∀ external ∈ extracted.externals ++ [⟨relocation.symbolName, relocation.offset, index⟩],
      ∀ other ∈ extracted.externals ++ [⟨relocation.symbolName, relocation.offset, index⟩],
        external.name = other.name → external.index = other.index := by
  intro external hm other hm' hname
  rcases List.mem_append.mp hm with hm | hm <;> rcases List.mem_append.mp hm' with hm' | hm'
  · exact h.shared external hm other hm' hname
  · obtain rfl := List.mem_singleton.mp hm'
    exact hshared external hm hname
  · obtain rfl := List.mem_singleton.mp hm
    exact (hshared other hm' hname.symm).symm
  · rw [List.mem_singleton.mp hm, List.mem_singleton.mp hm']

theorem Allots.exporteds_append (hn : ¬AgainstMain processed relocation) :
    extracted.exporteds = [] ↔
      ∀ other ∈ done ++ [relocation], ¬AgainstMain processed other := by
  rw [h.exporteds, List.forall_mem_append, List.forall_mem_singleton]
  exact ⟨fun hall => ⟨hall, hn⟩, And.left⟩

-- A relocation that takes no slot and is not patched
theorem Allots.pass (hn : relocation.infoType = .gotBrel →
      ∃ symbol, Got processed relocation symbol ∧ localization symbol = .exported)
    (hm : ¬AgainstMain processed relocation) : Allots processed (done ++ [relocation]) extracted := by
  refine ⟨fun _ => h.externals_append, fun _ => h.locals_append, h.exporteds_append hm,
    h.covered_append (fun _ hp => hp) fun ht => ?_, h.shared, h.numbered⟩
  obtain ⟨symbol, hg, hl⟩ := hn ht
  exact ⟨symbol, hg, fun hne => absurd hl hne⟩

-- One more external relocation, with the slot of its name or with a new one
theorem Allots.external (hg : Got processed relocation symbol)
    (hl : localization symbol = .external) {index : Int}
    (hn : next = { extracted with
      externals := extracted.externals ++ [⟨relocation.symbolName, relocation.offset, index⟩]
      index := next.index })
    (hshared : ∀ external ∈ extracted.externals, external.name = relocation.symbolName →
      external.index = index)
    (hnumbered : ∃ count : Nat, next.index = count ∧
      (slotIndices next ++ (unique next.exporteds).map NamedRelocation.index).Perm
        ((List.range count).map Int.ofNat)) :
    Allots processed (done ++ [relocation]) next := by
  have hexternals : next.externals =
    extracted.externals ++ [⟨relocation.symbolName, relocation.offset, index⟩] := by rw [hn]
  have hlocals : next.locals = extracted.locals := by rw [hn]
  have hexporteds : next.exporteds = extracted.exporteds := by rw [hn]
  have hnot : localization symbol ≠ .exported := by
    rw [hl]
    decide
  refine ⟨?_, ?_, ?_, ?_, ?_, hnumbered⟩
  · intro external hm
    rw [hexternals] at hm
    rcases List.mem_append.mp hm with hm | hm
    · exact h.externals_append hm
    · obtain rfl := List.mem_singleton.mp hm
      exact ⟨relocation, List.mem_append_right _ (List.mem_singleton_self _), symbol, hg, hl, rfl,
        rfl⟩
  · intro local_ hm
    rw [hlocals] at hm
    exact h.locals_append hm
  · rw [hexporteds]
    exact h.exporteds_append (not_againstMain_of_got hg hnot)
  · refine h.covered_append (patches_subset ?_ ?_ ?_) fun _ => ⟨symbol, hg, fun _ => ?_⟩
    · rw [hlocals]
      exact List.Subset.refl _
    · rw [hexternals]
      exact List.subset_append_left ..
    · rw [hexporteds]
      exact List.Subset.refl _
    · refine ⟨(relocation.offset, index), mem_patches.mpr (Or.inr (Or.inl ?_)), rfl⟩
      rw [hexternals]
      exact ⟨_, List.mem_append_right _ (List.mem_singleton_self _), rfl⟩
  · rw [hexternals]
    exact h.shared_append hshared

theorem Allots.repeated (hg : Got processed relocation symbol)
    (hl : localization symbol = .external)
    (hm : hasRelocation extracted.externals relocation.symbolName) :
    Allots processed (done ++ [relocation]) { extracted with
      externals := extracted.externals ++ [⟨relocation.symbolName, relocation.offset,
        getIndexOfRelocation extracted.externals relocation.symbolName⟩] } := by
  obtain ⟨found, hf, hname, hindex⟩ := getIndexOfRelocation_of_mem hm
  apply h.external hg hl rfl
  · intro external he hn
    rw [hindex]
    exact h.shared external he found hf (hn.trans hname.symm)
  · rw [slotIndices, unique_append_of_mem hm]
    exact h.numbered

theorem Allots.first (hg : Got processed relocation symbol)
    (hl : localization symbol = .external)
    (hm : ¬hasRelocation extracted.externals relocation.symbolName) :
    Allots processed (done ++ [relocation]) { extracted with
      externals := extracted.externals ++ [⟨relocation.symbolName, relocation.offset,
        extracted.index⟩]
      index := extracted.index + 1 } := by
  obtain ⟨count, hc, hp⟩ := h.numbered
  apply h.external hg hl rfl
  · intro external he hn
    exact absurd ⟨external, he, hn⟩ hm
  · refine ⟨count + 1, by rw [hc]; rfl, ?_⟩
    rw [slotIndices, List.append_assoc] at hp
    rw [slotIndices, unique_append_of_not_mem hm, List.map_append, List.map_singleton, hc,
      List.append_assoc]
    exact perm_append_next hp

theorem Allots.internal (hg : Got processed relocation symbol)
    (hl : localization symbol = .internal) :
    Allots processed (done ++ [relocation]) { extracted with
      locals := extracted.locals ++ [⟨relocation.symbolValue, relocation.offset, extracted.index,
        relocation.sectionIndex⟩]
      index := extracted.index + 1 } := by
  obtain ⟨count, hc, hp⟩ := h.numbered
  have hnot : localization symbol ≠ .exported := by
    rw [hl]
    decide
  refine ⟨fun _ => h.externals_append, ?_, h.exporteds_append (not_againstMain_of_got hg hnot),
    h.covered_append (patches_subset (List.subset_append_left ..) (List.Subset.refl _)
      (List.Subset.refl _)) fun _ => ⟨symbol, hg, fun _ => ?_⟩, h.shared, count + 1,
    by rw [hc]; rfl, ?_⟩
  · intro local_ hm
    rcases List.mem_append.mp hm with hm | hm
    · exact h.locals_append hm
    · obtain rfl := List.mem_singleton.mp hm
      exact ⟨relocation, List.mem_append_right _ (List.mem_singleton_self _), symbol, hg, hl, rfl⟩
  · exact ⟨(relocation.offset, extracted.index), mem_patches.mpr (Or.inl
      ⟨_, List.mem_append_right _ (List.mem_singleton_self _), rfl⟩), rfl⟩
  · rw [slotIndices, List.map_append, List.map_singleton, hc, ← List.append_assoc]
    exact perm_append_next hp

-- One more relocation against main, whatever its index
theorem Allots.exported (hm : AgainstMain processed relocation) {index : Int}
    (hn : next = { extracted with
      exporteds := extracted.exporteds ++ [⟨relocation.symbolName, relocation.offset, index⟩]
      index := next.index })
    (hnumbered : ∃ count : Nat, next.index = count ∧
      (slotIndices next ++ (unique next.exporteds).map NamedRelocation.index).Perm
        ((List.range count).map Int.ofNat)) :
    Allots processed (done ++ [relocation]) next := by
  have hexternals : next.externals = extracted.externals := by rw [hn]
  have hlocals : next.locals = extracted.locals := by rw [hn]
  have hexporteds : next.exporteds =
    extracted.exporteds ++ [⟨relocation.symbolName, relocation.offset, index⟩] := by rw [hn]
  refine ⟨?_, ?_, ?_, ?_, ?_, hnumbered⟩
  · intro external he
    rw [hexternals] at he
    exact h.externals_append he
  · intro local_ hl
    rw [hlocals] at hl
    exact h.locals_append hl
  · rw [hexporteds]
    refine ⟨fun hnil => absurd hnil (List.append_ne_nil_of_right_ne_nil _ (List.cons_ne_nil _ _)),
      fun hall => ?_⟩
    exact absurd hm (hall _ (List.mem_append_right _ (List.mem_singleton_self _)))
  · refine h.covered_append (patches_subset ?_ ?_ ?_) fun _ => ?_
    · rw [hlocals]
      exact List.Subset.refl _
    · rw [hexternals]
      exact List.Subset.refl _
    · rw [hexporteds]
      exact List.subset_append_left ..
    · obtain ⟨_, symbol, hg, hl⟩ := hm
      exact ⟨symbol, hg, fun hne => absurd hl hne⟩
  · rw [hexternals]
    exact h.shared

theorem Allots.extractGot_exported (hg : Got processed relocation symbol)
    (hl : localization symbol = .exported) :
    Allots processed (done ++ [relocation]) (extractGot extracted relocation .exported) := by
  unfold extractGot
  by_cases hname : relocation.symbolName = main
  · have hm : AgainstMain processed relocation := ⟨hname, symbol, hg, hl⟩
    obtain ⟨count, hc, hp⟩ := h.numbered
    rw [if_pos hname]
    by_cases hr : hasRelocation extracted.exporteds relocation.symbolName
    · rw [if_pos hr]
      apply h.exported hm rfl
      rw [unique_append_of_mem hr]
      exact ⟨count, hc, hp⟩
    · rw [if_neg hr]
      apply h.exported hm rfl
      refine ⟨count + 1, by rw [hc]; rfl, ?_⟩
      rw [unique_append_of_not_mem hr, List.map_append, List.map_singleton, hc,
        ← List.append_assoc, ← List.append_nil (_ ++ [(count : Int)])]
      exact perm_append_next (by rwa [List.append_nil])
  · rw [if_neg hname]
    exact h.pass (fun _ => ⟨symbol, hg, hl⟩) fun hm => hname hm.1

theorem Allots.step (hs : extractRelocation processed extracted relocation = .ok next) :
    Allots processed (done ++ [relocation]) next := by
  unfold extractRelocation at hs
  split at hs
  · rename_i ht
    split at hs
    · rename_i symbol hf
      obtain rfl := Except.ok.inj hs
      cases hl : localization symbol with
      | external =>
          by_cases hm : hasRelocation extracted.externals relocation.symbolName
          · simp only [extractGot, hm, ite_true]
            exact h.repeated ⟨ht, hf⟩ hl hm
          · simp only [extractGot, hm, ite_false]
            exact h.first ⟨ht, hf⟩ hl hm
      | exported => exact h.extractGot_exported ⟨ht, hf⟩ hl
      | internal => exact h.internal ⟨ht, hf⟩ hl
    · cases hs
  · cases hs
  all_goals
    rename_i ht
    obtain rfl := Except.ok.inj hs
    have hne : relocation.infoType ≠ .gotBrel := by
      rw [ht]
      decide
    exact h.pass (fun hg => absurd hg hne) fun ⟨_, _, hg, _⟩ => hne hg.1

end Step

-- The whole run
theorem allots_of_ok {relocations : List Relocation}
    (hx : extractRelocations processed relocations = .ok extracted) :
    Allots processed relocations extracted :=
  foldlM_ok allots_empty (fun _ _ _ _ h hs => h.step hs) hx

theorem extracts_of_ok {relocations : List Relocation}
    (hexported : ∀ relocation ∈ relocations, ∀ symbol, Got processed relocation symbol →
      localization symbol ≠ .exported)
    (hx : extractRelocations processed relocations = .ok extracted) :
    Extracts processed relocations extracted := by
  have h := allots_of_ok hx
  have hnone : extracted.exporteds = [] := by
    rw [h.exporteds]
    rintro relocation hm ⟨_, symbol, hg, hl⟩
    exact hexported relocation hm symbol hg hl
  refine ⟨hnone, h.externals, h.locals, fun relocation hm ht => ?_, h.shared, ?_⟩
  · obtain ⟨symbol, hg, hcovered⟩ := h.covered relocation hm ht
    exact hcovered (hexported relocation hm symbol hg)
  · obtain ⟨count, hc, hp⟩ := h.numbered
    rw [hnone] at hp
    exact ⟨count, hc, by simpa [unique] using hp⟩

end Extraction

end Msos.Scripts
