import Mathlib.Data.Finset.Card
import Msos.Module

namespace Msos.Module

open Msos.Library Msos.Library.Fallible Scripts ElfParser

section Definitions

-- The localization of the symbol that a relocation of the lookup table is
-- against
def localizationOf (symbols : Dict Name Symbol) (relocation : Relocation) : Option Localization :=
  if relocation.infoType = .gotBrel then
    (findProcessed (processedSymbols symbols) relocation.symbolName).map localization
  else none

def externalNames (symbols : Dict Name Symbol) (relocations : List Relocation) : List Name :=
  (relocations.filter fun relocation =>
    localizationOf symbols relocation = some .external).map Relocation.symbolName

-- The slots that the relocations take: one for each internal one, and one for
-- each external name.
def slotCount (symbols : Dict Name Symbol) (relocations : List Relocation) : Nat :=
  (relocations.filter fun relocation => localizationOf symbols relocation = some .internal).length +
    (externalNames symbols relocations).dedup.length

def slotWord (sections : ModuleSections) (slot : Nat) (relocation : Relocation) : Nat × Nat :=
  if relocation.sectionIndex = .at sections.indices.code then (2 * slot, relocation.symbolValue)
  else (2 * slot + 1, relocation.symbolValue - sections.code.size)

-- The table of the local relocations, for the relocations behind some others.
def localWords (symbols : Dict Name Symbol) (sections : ModuleSections) :
    List Relocation → List Relocation → List (Nat × Nat)
  | _, [] => []
  | before, relocation :: rest =>
      if localizationOf symbols relocation = some .internal then
        slotWord sections (slotCount symbols before) relocation ::
          localWords symbols sections (before ++ [relocation]) rest
      else localWords symbols sections (before ++ [relocation]) rest

end Definitions

section Counting

variable {symbols : Dict Name Symbol} {relocations : List Relocation} {relocation : Relocation}

theorem externalNames_append : externalNames symbols (relocations ++ [relocation]) =
    externalNames symbols relocations ++
      if localizationOf symbols relocation = some .external then [relocation.symbolName] else [] := by
  rw [externalNames, List.filter_append, List.map_append]
  by_cases h : localizationOf symbols relocation = some .external <;> simp [h, externalNames]

theorem slotCount_internal (h : localizationOf symbols relocation = some .internal) :
    slotCount symbols (relocations ++ [relocation]) = slotCount symbols relocations + 1 := by
  have hnot : localizationOf symbols relocation ≠ some .external := by
    rw [h]
    decide
  rw [slotCount, slotCount, externalNames_append, if_neg hnot, List.append_nil, List.filter_append,
    List.length_append, List.filter_singleton]
  simp only [h, decide_true, cond_true, List.length_singleton]
  omega

theorem slotCount_external (h : localizationOf symbols relocation = some .external) :
    slotCount symbols (relocations ++ [relocation]) = slotCount symbols relocations +
      if relocation.symbolName ∈ externalNames symbols relocations then 0 else 1 := by
  have hnot : localizationOf symbols relocation ≠ some .internal := by
    rw [h]
    decide
  have hdedup : (externalNames symbols relocations ++ [relocation.symbolName]).dedup.length =
      (externalNames symbols relocations).dedup.length +
        if relocation.symbolName ∈ externalNames symbols relocations then 0 else 1 := by
    rw [← List.card_toFinset, ← List.card_toFinset, List.toFinset_append, List.toFinset_cons,
      List.toFinset_nil, Finset.union_insert, Finset.union_empty]
    split
    · rename_i hm
      rw [Finset.insert_eq_of_mem (List.mem_toFinset.mpr hm), Nat.add_zero]
    · rename_i hm
      exact Finset.card_insert_of_notMem fun hmem => hm (List.mem_toFinset.mp hmem)
  rw [slotCount, slotCount, externalNames_append, if_pos h, List.filter_append, List.length_append,
    List.filter_singleton, hdedup]
  simp only [hnot, decide_false, cond_false, List.length_nil]
  omega

theorem slotCount_none (h : localizationOf symbols relocation = none) :
    slotCount symbols (relocations ++ [relocation]) = slotCount symbols relocations := by
  rw [slotCount, slotCount, externalNames_append, List.filter_append, h]
  simp [h]

theorem localWords_append (sections : ModuleSections) (before : List Relocation) :
    localWords symbols sections before (relocations ++ [relocation]) =
      localWords symbols sections before relocations ++
        if localizationOf symbols relocation = some .internal then
          [slotWord sections (slotCount symbols (before ++ relocations)) relocation]
        else [] := by
  induction relocations generalizing before with
  | nil => simp [localWords]
  | cons first rest ih =>
      rw [List.cons_append, localWords, localWords, ih, List.append_assoc]
      split
      · rfl
      · rfl

end Counting

section Extraction

variable (symbols : Dict Name Symbol) (sections : ModuleSections)

-- The numbers that extract_relocations has given out, without its state
structure Numbered (done : List Relocation) (extracted : Extracted) : Prop where
  index : extracted.index = slotCount symbols done
  externals : ∀ name, hasRelocation extracted.externals name ↔ name ∈ externalNames symbols done
  locals : extracted.locals.map (localWord sections.indices sections.code.data.length) =
    localWords symbols sections [] done

variable {symbols sections} {done : List Relocation} {extracted next : Extracted}
  {relocation : Relocation} {symbol : Symbol}

theorem localizationOf_got (h : Got (processedSymbols symbols) relocation symbol) :
    localizationOf symbols relocation = some (localization symbol) := by
  rw [localizationOf, if_pos h.1, h.2]
  rfl

theorem numbered_empty : Numbered symbols sections [] Extracted.empty := by
  refine ⟨rfl, fun name => ?_, rfl⟩
  simp [Extracted.empty, hasRelocation, externalNames]

section Step

variable (h : Numbered symbols sections done extracted)
include h

theorem Numbered.skip (hn : relocation.infoType ≠ .gotBrel) :
    Numbered symbols sections (done ++ [relocation]) extracted := by
  have hnone : localizationOf symbols relocation = none := if_neg hn
  refine ⟨?_, ?_, ?_⟩
  · rw [slotCount_none hnone]
    exact h.index
  · rw [externalNames_append, hnone, if_neg (by decide), List.append_nil]
    exact h.externals
  · rw [localWords_append, hnone, if_neg (by decide), List.append_nil]
    exact h.locals

theorem Numbered.external (hl : localizationOf symbols relocation = some .external) :
    Numbered symbols sections (done ++ [relocation]) (extractGot extracted relocation .external) := by
  have hnot : localizationOf symbols relocation ≠ some .internal := by
    rw [hl]
    decide
  have hlocals : localWords symbols sections [] (done ++ [relocation]) =
      localWords symbols sections [] done := by
    rw [localWords_append, if_neg hnot, List.append_nil]
  have hmem := h.externals relocation.symbolName
  have hnames : ∀ index name, hasRelocation (extracted.externals ++
      [⟨relocation.symbolName, relocation.offset, index⟩]) name ↔
        name ∈ externalNames symbols (done ++ [relocation]) := by
    intro index name
    rw [hasRelocation_append, h.externals name, externalNames_append, if_pos hl, List.mem_append,
      List.mem_singleton, eq_comm (a := relocation.symbolName)]
  by_cases hm : hasRelocation extracted.externals relocation.symbolName
  · simp only [extractGot, hm, ite_true]
    refine ⟨?_, hnames _, ?_⟩
    · rw [slotCount_external hl, if_pos (hmem.mp hm), Nat.add_zero]
      exact h.index
    · rw [hlocals]
      exact h.locals
  · simp only [extractGot, hm, ite_false]
    refine ⟨?_, hnames _, ?_⟩
    · rw [slotCount_external hl, if_neg fun hmem' => hm (hmem.mpr hmem'), h.index]
      rfl
    · rw [hlocals]
      exact h.locals

theorem Numbered.internal (hl : localizationOf symbols relocation = some .internal) :
    Numbered symbols sections (done ++ [relocation]) (extractGot extracted relocation .internal) := by
  have hnot : localizationOf symbols relocation ≠ some .external := by
    rw [hl]
    decide
  refine ⟨?_, ?_, ?_⟩
  · rw [slotCount_internal hl]
    simp only [extractGot, h.index]
    rfl
  · rw [externalNames_append, if_neg hnot, List.append_nil]
    exact h.externals
  · rw [localWords_append, if_pos hl, List.nil_append]
    simp only [extractGot, List.map_append, h.locals, List.map_singleton]
    congr 2
    rw [localWord, slotWord, h.index]
    rfl

theorem Numbered.step (hexported : localizationOf symbols relocation ≠ some .exported)
    (hs : extractRelocation (processedSymbols symbols) extracted relocation = .ok next) :
    Numbered symbols sections (done ++ [relocation]) next := by
  unfold extractRelocation at hs
  split at hs
  · rename_i ht
    split at hs
    · rename_i symbol hf
      obtain rfl := Except.ok.inj hs
      have hl := localizationOf_got (show Got (processedSymbols symbols) relocation symbol from
        ⟨ht, hf⟩)
      cases hlocal : localization symbol with
      | external => exact h.external (hl.trans (congrArg some hlocal))
      | exported => exact absurd (hl.trans (congrArg some hlocal)) hexported
      | internal => exact h.internal (hl.trans (congrArg some hlocal))
    · cases hs
  · cases hs
  all_goals
    rename_i ht
    obtain rfl := Except.ok.inj hs
    exact h.skip (by rw [ht]; decide)

end Step

theorem numbered_of_ok {relocations : List Relocation}
    (hexported : ∀ relocation ∈ relocations, localizationOf symbols relocation ≠ some .exported)
    (hx : extractRelocations (processedSymbols symbols) relocations = .ok extracted) :
    Numbered symbols sections relocations extracted := by
  have hrun : (∀ relocation ∈ relocations, localizationOf symbols relocation ≠ some .exported) →
      Numbered symbols sections relocations extracted := by
    refine foldlM_ok (P := fun done extracted => (∀ relocation ∈ done,
      localizationOf symbols relocation ≠ some .exported) → Numbered symbols sections done extracted)
        (fun _ => numbered_empty) ?_ hx
    intro done relocation extracted next ih hs hexported
    have hdone := ih fun other hm => hexported other (List.mem_append_left _ hm)
    exact hdone.step (hexported relocation (List.mem_append_right _ (List.mem_singleton_self _))) hs
  exact hrun hexported

end Extraction

end Msos.Module
