import Msos.Library.Search
import Msos.Module.LookupTable

namespace Msos.Module

open Msos.Library Msos.Library.Fallible Scripts ElfParser

section Definitions

-- The entries that get_relocations goes through
def usedEntries (elf : ElfFile) : List RelocationEntry :=
  elf.relocations.filter fun entry => entry.symbol ≠ 0

-- What extract_relocations has up to a relocation, and with it.
structure Comes (processed : List Symbol) (relocations : List Relocation) (i : Nat)
    (relocation : Relocation) (before after : Extracted) : Prop where
  relocation_eq : relocations[i]? = some relocation
  before_eq : extractRelocations processed (relocations.take i) = .ok before
  after_eq : extractRelocations processed (relocations.take (i + 1)) = .ok after

def PutsExternal (processed : List Symbol) (relocations : List Relocation) (i : Nat) : Prop :=
  ∃ relocation before after index, Comes processed relocations i relocation before after ∧
    after.externals = before.externals ++ [⟨relocation.symbolName, relocation.offset, index⟩]

def PutsLocal (processed : List Symbol) (relocations : List Relocation) (i : Nat) : Prop :=
  ∃ relocation before after index, Comes processed relocations i relocation before after ∧
    after.locals = before.locals ++ [⟨relocation.symbolValue, relocation.offset, index,
      relocation.sectionIndex⟩]

-- An undefined visible global symbol
def IsImported (symbol : Symbol) : Prop :=
  symbol.sectionIndex = .undef ∧ symbol.binding = .global_ ∧ symbol.visibility ≠ .hidden

-- A defined symbol that is local or hidden
def IsInternal (symbol : Symbol) : Prop :=
  symbol.sectionIndex ≠ .undef ∧ (symbol.binding = .local_ ∨ symbol.visibility = .hidden)

-- Each relocation of the lookup table, those against main apart, is in the
-- list that its own symbol belongs to.
def ClassifiedByOwn (elf : ElfFile) : Prop :=
  ∀ relocations, getRelocations elf = .ok relocations → ∀ (i : Nat) entry symbol,
    (usedEntries elf)[i]? = some entry → entry.type = .gotBrel →
      elf.symbols[entry.symbol]? = some symbol → symbol.name ≠ Scripts.main →
        (PutsExternal (processedSymbols (getSymbols elf)) relocations i ↔ IsImported symbol) ∧
          (PutsLocal (processedSymbols (getSymbols elf)) relocations i ↔ IsInternal symbol)

-- The last symbol of the table that has a name
def LastNamed (symbols : List Symbol) (name : Name) (symbol : Symbol) : Prop :=
  ∃ before after, symbols = before ++ symbol :: after ∧ symbol.name = name ∧
    ∀ later ∈ after, later.name ≠ name

-- The last symbol of the name that goes into a relocation is of the kind of
-- the symbol that the relocation is against.
def LastAgrees (elf : ElfFile) : Prop :=
  ∀ entry symbol name last, Against elf entry symbol → entry.type = .gotBrel →
    symbol.name ≠ Scripts.main → symbolName elf symbol = .ok name →
      LastNamed elf.symbols name last →
        (localization last = .external ↔ IsImported symbol) ∧
          (localization last = .internal ↔ IsInternal symbol)

-- The same symbols in another order, and the relocations against the same ones
structure Reordered (elf other : ElfFile) : Prop where
  sections : other.sections = elf.sections
  symbols : other.symbols.Perm elf.symbols
  relocations : List.Forall₂ (fun entry moved => moved.offset = entry.offset ∧
    moved.type = entry.type ∧ (moved.symbol = 0 ↔ entry.symbol = 0) ∧
      other.symbols[moved.symbol]? = elf.symbols[entry.symbol]?) elf.relocations other.relocations

-- The relocations at a place are in the same lists.
def SameLists (elf other : ElfFile) : Prop :=
  ∀ relocations moved, getRelocations elf = .ok relocations → getRelocations other = .ok moved →
    ∀ (i : Nat) entry symbol, (usedEntries elf)[i]? = some entry → entry.type = .gotBrel →
      elf.symbols[entry.symbol]? = some symbol → symbol.name ≠ Scripts.main →
        (PutsExternal (processedSymbols (getSymbols elf)) relocations i ↔
            PutsExternal (processedSymbols (getSymbols other)) moved i) ∧
          (PutsLocal (processedSymbols (getSymbols elf)) relocations i ↔
            PutsLocal (processedSymbols (getSymbols other)) moved i)

end Definitions

section Extraction

variable {processed : List Symbol} {relocations : List Relocation} {relocation : Relocation}
  {extracted before after : Extracted} {symbol : Symbol} {i : Nat}

-- A relocation against the table goes into one list, by the localization.
theorem extractGot_externals (extracted : Extracted) (relocation : Relocation)
    (localization : Localization) : ∃ index,
    (extractGot extracted relocation localization).externals =
      extracted.externals ++ if localization = .external then
        [⟨relocation.symbolName, relocation.offset, index⟩] else [] := by
  cases localization with
  | external =>
      simp only [extractGot]
      split <;> exact ⟨_, rfl⟩
  | exported =>
      refine ⟨0, ?_⟩
      simp only [extractGot, reduceCtorEq, if_false, List.append_nil]
      split
      · split <;> rfl
      · rfl
  | internal => exact ⟨0, (List.append_nil _).symm⟩

theorem extractGot_locals (extracted : Extracted) (relocation : Relocation)
    (localization : Localization) : ∃ index,
    (extractGot extracted relocation localization).locals =
      extracted.locals ++ if localization = .internal then
        [⟨relocation.symbolValue, relocation.offset, index, relocation.sectionIndex⟩] else [] := by
  cases localization with
  | external =>
      refine ⟨0, ?_⟩
      simp only [extractGot, reduceCtorEq, if_false, List.append_nil]
      split <;> rfl
  | exported =>
      refine ⟨0, ?_⟩
      simp only [extractGot, reduceCtorEq, if_false, List.append_nil]
      split
      · split <;> rfl
      · rfl
  | internal => exact ⟨_, rfl⟩

-- An extraction that succeeds comes to each of its relocations.
theorem exists_comes (hx : extractRelocations processed relocations = .ok extracted)
    (hi : relocations[i]? = some relocation) : ∃ before after,
      Comes processed relocations i relocation before after ∧
        extractRelocation processed before relocation = .ok after := by
  have hlt := (List.getElem?_eq_some_iff.mp hi).1
  have htake : relocations.take (i + 1) = relocations.take i ++ [relocation] := by
    rw [List.take_add_one, hi]
    rfl
  rw [extractRelocations, ← List.take_append_drop (i + 1) relocations, List.foldlM_append,
    bind_eq_ok] at hx
  obtain ⟨after, hafter, -⟩ := hx
  have hsplit := hafter
  rw [htake, List.foldlM_append, bind_eq_ok] at hsplit
  obtain ⟨before, hbefore, hstep⟩ := hsplit
  rw [List.foldlM_cons, bind_eq_ok] at hstep
  obtain ⟨last, hlast, hend⟩ := hstep
  obtain rfl := Except.ok.inj hend
  exact ⟨before, last, ⟨hi, hbefore, hafter⟩, hlast⟩

theorem Comes.unique {other : Relocation} {first last : Extracted}
    (h : Comes processed relocations i relocation before after)
    (h' : Comes processed relocations i other first last) :
    relocation = other ∧ before = first ∧ after = last :=
  ⟨Option.some.inj (h.relocation_eq.symm.trans h'.relocation_eq),
    Except.ok.inj (h.before_eq.symm.trans h'.before_eq),
    Except.ok.inj (h.after_eq.symm.trans h'.after_eq)⟩

theorem puts_iff (hx : extractRelocations processed relocations = .ok extracted)
    (hi : relocations[i]? = some relocation) (ht : relocation.infoType = .gotBrel) :
    ∃ symbol, findProcessed processed relocation.symbolName = some symbol ∧
      (PutsExternal processed relocations i ↔ localization symbol = .external) ∧
        (PutsLocal processed relocations i ↔ localization symbol = .internal) := by
  obtain ⟨before, after, hcomes, hstep⟩ := exists_comes hx hi
  simp only [extractRelocation, ht] at hstep
  cases hf : findProcessed processed relocation.symbolName with
  | none => simp [hf] at hstep
  | some symbol =>
      simp only [hf, Except.ok.injEq] at hstep
      obtain ⟨external, hexternals⟩ := extractGot_externals before relocation (localization symbol)
      obtain ⟨internal, hlocals⟩ := extractGot_locals before relocation (localization symbol)
      rw [hstep] at hexternals hlocals
      refine ⟨symbol, rfl, ⟨?_, fun hl => ?_⟩, ?_, fun hl => ?_⟩
      · rintro ⟨other, first, last, index, hother, hput⟩
        obtain ⟨rfl, rfl, rfl⟩ := hcomes.unique hother
        by_contra hl
        rw [hexternals, if_neg hl] at hput
        simp at hput
      · rw [if_pos hl] at hexternals
        exact ⟨relocation, before, after, external, hcomes, hexternals⟩
      · rintro ⟨other, first, last, index, hother, hput⟩
        obtain ⟨rfl, rfl, rfl⟩ := hcomes.unique hother
        by_contra hl
        rw [hlocals, if_neg hl] at hput
        simp at hput
      · rw [if_pos hl] at hlocals
        exact ⟨relocation, before, after, internal, hcomes, hlocals⟩

end Extraction

section Lookup

variable {elf : ElfFile} {relocations : List Relocation} {extracted : Extracted}
  {entry : RelocationEntry} {symbol last : Symbol} {name : Name} {i : Nat}

theorem get?_of_lastNamed (h : LastNamed elf.symbols name last) :
    (getSymbols elf).get? name = some last := by
  obtain ⟨before, after, hsymbols, rfl, hafter⟩ := h
  rw [getSymbols, hsymbols, List.map_append, List.map_cons]
  refine Dict.get?_ofList_append _ last ?_
  rw [List.map_map, List.mem_map]
  rintro ⟨later, hlater, hname⟩
  exact hafter later hlater hname

theorem exists_lastNamed (hs : symbol ∈ elf.symbols) : ∃ last,
    LastNamed elf.symbols symbol.name last := by
  have hname : symbol.name ∈ elf.symbols.map Symbol.name := List.mem_map_of_mem hs
  obtain ⟨before, after, hnames, hafter⟩ := Search.exists_last hname
  obtain ⟨first, rest, hsymbols, -, hrest⟩ := List.map_eq_append_iff.mp hnames
  obtain ⟨last, behind, rfl, hlast, rfl⟩ := List.map_eq_cons_iff.mp hrest
  refine ⟨last, first, behind, hsymbols, hlast, fun later hlater he => ?_⟩
  exact hafter (he ▸ List.mem_map_of_mem hlater)

-- A name leads to the last symbol that has it.
theorem lastNamed_of_findProcessed
    (hf : findProcessed (processedSymbols (getSymbols elf)) name = some symbol) :
    LastNamed elf.symbols name symbol := by
  obtain ⟨hmem, -, rfl⟩ := findProcessed_eq_some hf
  obtain ⟨last, hlast⟩ := exists_lastNamed hmem
  obtain ⟨hprocessed, -⟩ := List.mem_filter.mp (List.mem_of_find?_eq_some hf)
  obtain ⟨⟨key, found⟩, hitem, rfl⟩ := List.mem_map.mp hprocessed
  obtain ⟨-, rfl⟩ := mem_getSymbols hitem
  have hsame := (Dict.get?_eq_some_iff _).mpr hitem
  rw [get?_of_lastNamed hlast] at hsame
  rwa [Option.some.inj hsame] at hlast

theorem lastNamed_unique {other : Symbol} (h : LastNamed elf.symbols name last)
    (h' : LastNamed elf.symbols name other) : last = other :=
  Option.some.inj ((get?_of_lastNamed h).symm.trans (get?_of_lastNamed h'))

-- The relocation that get_relocations returns for an entry.
theorem getElem?_getRelocations (hr : getRelocations elf = .ok relocations)
    (he : (usedEntries elf)[i]? = some entry) (hs : elf.symbols[entry.symbol]? = some symbol) :
    Against elf entry symbol ∧ ∃ name, symbolName elf symbol = .ok name ∧
      relocations[i]? = some ⟨entry.offset, entry.type, name, symbol.value, symbol.sectionIndex⟩ := by
  obtain ⟨hmem, hne⟩ := List.mem_filter.mp (List.mem_of_getElem? he)
  have hmap := congrArg (·[i]?) (mapM_eq_ok.mp hr)
  simp only [List.getElem?_map] at hmap
  rw [show (elf.relocations.filter fun entry => entry.symbol ≠ 0)[i]? = some entry from he,
    Option.map_some] at hmap
  obtain ⟨relocation, hrelocation, hok⟩ := Option.map_eq_some_iff.mp hmap.symm
  obtain ⟨found, hfound, name, hname, rfl⟩ := getRelocation_eq_ok.mp hok.symm
  obtain rfl := Option.some.inj (hfound.symm.trans hs)
  exact ⟨⟨hmem, by simpa using hne, hs⟩, name, hname, hrelocation⟩

-- Which lists a relocation is in is said by the last symbol of its name.
theorem puts_iff_last (hr : getRelocations elf = .ok relocations)
    (hx : extractRelocations (processedSymbols (getSymbols elf)) relocations = .ok extracted)
    (he : (usedEntries elf)[i]? = some entry) (ht : entry.type = .gotBrel)
    (hs : elf.symbols[entry.symbol]? = some symbol) :
    Against elf entry symbol ∧ ∃ name last, symbolName elf symbol = .ok name ∧
      LastNamed elf.symbols name last ∧
        (PutsExternal (processedSymbols (getSymbols elf)) relocations i ↔
          localization last = .external) ∧
        (PutsLocal (processedSymbols (getSymbols elf)) relocations i ↔
          localization last = .internal) := by
  obtain ⟨hagainst, name, hname, hrelocation⟩ := getElem?_getRelocations hr he hs
  obtain ⟨last, hlast, hexternal, hlocal⟩ := puts_iff hx hrelocation ht
  exact ⟨hagainst, name, last, hname, lastNamed_of_findProcessed hlast, hexternal, hlocal⟩

theorem classifiedByOwn_iff (hr : getRelocations elf = .ok relocations)
    (hx : extractRelocations (processedSymbols (getSymbols elf)) relocations = .ok extracted) :
    ClassifiedByOwn elf ↔ LastAgrees elf := by
  constructor
  · intro hown entry symbol name last ha ht hmain hname hlast
    obtain ⟨hmem, hne, hs⟩ := ha
    have hused : entry ∈ usedEntries elf := List.mem_filter.mpr ⟨hmem, by simpa using hne⟩
    obtain ⟨i, he⟩ := List.getElem?_of_mem hused
    obtain ⟨-, found, kept, hfound, hkept, hexternal, hlocal⟩ := puts_iff_last hr hx he ht hs
    obtain rfl := Except.ok.inj (hname.symm.trans hfound)
    obtain rfl := lastNamed_unique hlast hkept
    rw [← hexternal, ← hlocal]
    exact hown relocations hr i entry symbol he ht hs hmain
  · intro hlast others ho i entry symbol he ht hs hmain
    obtain rfl := Except.ok.inj (hr.symm.trans ho)
    obtain ⟨ha, name, last, hname, hnamed, hexternal, hlocal⟩ := puts_iff_last hr hx he ht hs
    rw [hexternal, hlocal]
    exact hlast entry symbol name last ha ht hmain hname hnamed

-- The entries stand at the same places after a reordering.
theorem usedEntries_reordered {other : ElfFile} (h : Reordered elf other)
    (he : (usedEntries elf)[i]? = some entry) : ∃ moved, (usedEntries other)[i]? = some moved ∧
      moved.type = entry.type ∧ other.symbols[moved.symbol]? = elf.symbols[entry.symbol]? := by
  have hused : List.Forall₂ (fun entry moved => moved.type = entry.type ∧
      other.symbols[moved.symbol]? = elf.symbols[entry.symbol]?) (usedEntries elf)
      (usedEntries other) := by
    rw [usedEntries, usedEntries]
    have hall := h.relocations
    generalize elf.relocations = entries at hall
    generalize other.relocations = others at hall
    induction hall with
    | nil => exact .nil
    | @cons entry moved entries others hsame _ ih =>
        obtain ⟨-, htype, hzero, hsymbol⟩ := hsame
        by_cases hne : entry.symbol = 0
        · rw [List.filter_cons_of_neg (by simpa using hne),
            List.filter_cons_of_neg (by simpa using hzero.mpr hne)]
          exact ih
        · rw [List.filter_cons_of_pos (by simpa using hne),
            List.filter_cons_of_pos (by simpa using hzero.not.mpr hne)]
          exact .cons ⟨htype, hsymbol⟩ ih
  obtain ⟨hlt, hget⟩ := List.getElem?_eq_some_iff.mp he
  have hlength := hused.length_eq
  have hmoved := hused.get hlt (by omega)
  refine ⟨_, List.getElem?_eq_getElem (by omega), ?_⟩
  simpa [hget] using hmoved

theorem sameLists_of_classified {other : ElfFile} (h : Reordered elf other)
    (hown : ClassifiedByOwn elf) (hother : ClassifiedByOwn other) : SameLists elf other := by
  intro relocations moved hr hm i entry symbol he ht hs hmain
  obtain ⟨entry', he', htype, hsymbol⟩ := usedEntries_reordered h he
  obtain ⟨hexternal, hlocal⟩ := hown relocations hr i entry symbol he ht hs hmain
  obtain ⟨hexternal', hlocal'⟩ := hother moved hm i entry' symbol he' (htype.trans ht)
    (hsymbol.trans hs) hmain
  exact ⟨hexternal.trans hexternal'.symm, hlocal.trans hlocal'.symm⟩

end Lookup

section Module

variable {objcopy : ElfFile → Name → ElfFile} {api : Name → Option Nat} {elf other : ElfFile}
  {file otherFile : List UInt8}

theorem extracted_of_generateModule (hg : generateModule objcopy api elf = .ok file) :
    ∃ relocations extracted,
      getRelocations (changeVisibilityOfWrappedSymbols objcopy elf) = .ok relocations ∧
        extractRelocations (processedSymbols (getSymbols
          (changeVisibilityOfWrappedSymbols objcopy elf))) relocations = .ok extracted := by
  obtain ⟨sections, hs, -⟩ := bind_eq_ok.mp hg
  obtain ⟨relocations, hr, himage⟩ := generateModule_eq_ok hs hg
  obtain ⟨extracted, patched, hgenerated, -⟩ := generateImage_eq_ok himage
  exact ⟨relocations, extracted, hr, hgenerated.extractRelocations_eq⟩

-- Symbols are put by name, so that a relocation goes where the last symbol of
-- its name belongs; where that is the place of its own symbol, the order of
-- the table does not matter.
theorem generateModule_classified_iff (hg : generateModule objcopy api elf = .ok file) :
    (ClassifiedByOwn (changeVisibilityOfWrappedSymbols objcopy elf) ↔
        LastAgrees (changeVisibilityOfWrappedSymbols objcopy elf)) ∧
      ∀ other otherFile, generateModule objcopy api other = .ok otherFile →
        Reordered (changeVisibilityOfWrappedSymbols objcopy elf)
          (changeVisibilityOfWrappedSymbols objcopy other) →
        LastAgrees (changeVisibilityOfWrappedSymbols objcopy elf) →
        LastAgrees (changeVisibilityOfWrappedSymbols objcopy other) →
        SameLists (changeVisibilityOfWrappedSymbols objcopy elf)
          (changeVisibilityOfWrappedSymbols objcopy other) := by
  obtain ⟨relocations, extracted, hr, hx⟩ := extracted_of_generateModule hg
  refine ⟨classifiedByOwn_iff hr hx, fun other otherFile hother hsame hlast hagrees => ?_⟩
  obtain ⟨moved, extracted', hm, hx'⟩ := extracted_of_generateModule hother
  exact sameLists_of_classified hsame ((classifiedByOwn_iff hr hx).mpr hlast)
    ((classifiedByOwn_iff hm hx').mpr hagrees)

theorem generateModule_classified_iff_printer :
    (ClassifiedByOwn (changeVisibilityOfWrappedSymbols keepVisibility printerElf) ↔
        LastAgrees (changeVisibilityOfWrappedSymbols keepVisibility printerElf)) ∧
      ∀ other otherFile, generateModule keepVisibility libraryApi other = .ok otherFile →
        Reordered (changeVisibilityOfWrappedSymbols keepVisibility printerElf)
          (changeVisibilityOfWrappedSymbols keepVisibility other) →
        LastAgrees (changeVisibilityOfWrappedSymbols keepVisibility printerElf) →
        LastAgrees (changeVisibilityOfWrappedSymbols keepVisibility other) →
        SameLists (changeVisibilityOfWrappedSymbols keepVisibility printerElf)
          (changeVisibilityOfWrappedSymbols keepVisibility other) :=
  generateModule_classified_iff
    (show generateModule keepVisibility libraryApi printerElf = .ok (fileOf printerElf) by
      decide +kernel)

-- A static puts of one file, and the puts of the library that another one
-- calls; global symbols stand behind the local ones.
def staticElf : ElfFile :=
  { printerElf with
    symbols := [nullSymbol, ⟨"puts".toList, .func, .local_, .default_, 4, .at 1⟩,
      ⟨main, .func, .global_, .default_, 0, .at 1⟩,
      ⟨"puts".toList, .noType, .global_, .default_, 0, .undef⟩]
    relocations := [⟨8, .gotBrel, 1⟩, ⟨12, .gotBrel, 3⟩] }

def staticRelocations : List Relocation :=
  [⟨8, .gotBrel, "puts".toList, 4, .at 1⟩, ⟨12, .gotBrel, "puts".toList, 0, .undef⟩]

-- The reference to the static function goes to the one of the library.
theorem static_put_external :
    generateModule keepVisibility libraryApi staticElf = .ok (fileOf staticElf) ∧
      getRelocations (changeVisibilityOfWrappedSymbols keepVisibility staticElf) =
        .ok staticRelocations ∧
      PutsExternal (processedSymbols (getSymbols
        (changeVisibilityOfWrappedSymbols keepVisibility staticElf))) staticRelocations 0 ∧
      ¬ClassifiedByOwn (changeVisibilityOfWrappedSymbols keepVisibility staticElf) := by
  have hputs : PutsExternal (processedSymbols (getSymbols
      (changeVisibilityOfWrappedSymbols keepVisibility staticElf))) staticRelocations 0 :=
    ⟨⟨8, .gotBrel, "puts".toList, 4, .at 1⟩, ⟨[], [], [], 0⟩,
      ⟨[], [⟨"puts".toList, 8, 0⟩], [], 1⟩, 0, ⟨rfl, rfl, rfl⟩, rfl⟩
  refine ⟨by decide +kernel, rfl, hputs, fun hown => ?_⟩
  obtain ⟨hexternal, -⟩ := hown staticRelocations rfl 0 ⟨8, .gotBrel, 1⟩
    ⟨"puts".toList, .func, .local_, .default_, 4, .at 1⟩ rfl rfl rfl (by decide)
  exact absurd (hexternal.mp hputs).1 (by decide)

end Module

end Msos.Module
