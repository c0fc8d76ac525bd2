import Msos.Scripts.GenerateWrappers.Theorems

namespace Msos.Scripts.GenerateWrappers

open Msos.Library GenerateConfig

-- A place in the symbol table of a file, which relocations refer to
structure Site where
  file : Nat
  symbol : Nat
deriving DecidableEq, Repr

-- The object file of the wrappers is assembled anew and does not count.
def At (files : List ObjectFile) (site : Site) (symbol : Symbol) : Prop :=
  ∃ file, files[site.file]? = some file ∧ ¬ wrapperFile <:+ file.path ∧
    file.symbols[site.symbol]? = some symbol

def isDefinition (symbol : Symbol) : Prop := symbol.sectionIndex ≠ .undef ∧ isExternal symbol.binding

instance : DecidablePred isDefinition := fun _ => inferInstanceAs (Decidable (_ ∧ _))

-- The definitions that a linker may bind the name to
def Defines (files : List ObjectFile) (name : Name) (site : Site) : Prop :=
  ∃ symbol, At files site symbol ∧ isDefinition symbol ∧ symbol.name = name

-- A call by the name reaches the definition, itself or through a wrapper.
def Reaches (wrappers : Dict Name Name) (files : List ObjectFile) (name : Name) (site : Site) : Prop :=
  Defines files name site ∨ ∃ callee, wrappers.get? name = some callee ∧ Defines files callee site

-- Every symbol leads to the definitions that it led to before, and no wrapper
-- stands beside another definition of its name.
structure LinksAlike (before : List ObjectFile) (wrappers : Dict Name Name) (after : List ObjectFile) :
    Prop where
  references : ∀ site old, At before site old → isExternal old.binding →
    ∃ new, At after site new ∧
      ∀ target, Reaches wrappers after new.name target ↔ Defines before old.name target
  wrapperDefinitions : ∀ name callee target,
    wrappers.get? name = some callee → ¬ Defines after name target

-- A name that one file has as a public function, every file that defines it has so.
def WrappedByAll (files : List ObjectFile) : Prop :=
  ∀ file ∈ files, ¬ wrapperFile <:+ file.path → ∀ other ∈ files, ¬ wrapperFile <:+ other.path →
    ∀ symbol ∈ other.symbols, isDefinition symbol →
      symbol.name ∈ publicNames file → symbol.name ∈ publicNames other

instance : DecidablePred WrappedByAll := fun _ => inferInstanceAs (Decidable (∀ _ ∈ _, _))

theorem rename_eq_append_iff {names : List Name} {old name : Name} (hold : ¬ dlOriginal <:+: old) :
    rename names old = name ++ dlOriginal ↔ old = name ∧ old ∈ names := by
  have hsuffix : ¬ dlOriginal <:+ old := fun h => hold h.isInfix
  by_cases hmem : old ∈ names
  · rw [rename, if_pos ⟨hmem, hsuffix⟩, List.append_left_inj]
    simp [hmem]
  · rw [rename_of_not_mem hmem]
    constructor
    · rintro rfl
      exact absurd (List.suffix_append name dlOriginal) hsuffix
    · exact fun h => absurd h.2 hmem

theorem rename_eq_iff {names : List Name} {old name : Name} (hold : ¬ dlOriginal <:+: old)
    (hname : ¬ dlOriginal <:+: name) : rename names old = name ↔ old = name ∧ old ∉ names := by
  have hsuffix : ¬ dlOriginal <:+ old := fun h => hold h.isInfix
  by_cases hmem : old ∈ names
  · rw [rename, if_pos ⟨hmem, hsuffix⟩]
    constructor
    · rintro rfl
      exact absurd (List.suffix_append old dlOriginal).isInfix hname
    · exact fun h => absurd hmem h.2
  · rw [rename_of_not_mem hmem]
    simp [hmem]

variable {objcopy : ObjectFile → Name → Name → ObjectFile} (hobjcopy : Redefines objcopy)
  {files : List ObjectFile} (hfresh : ∀ file ∈ files, Fresh file)

section Wrappers

include hobjcopy hfresh

theorem mem_wrapFile_iff {file : ObjectFile} (hfile : file ∈ files) (item : Name × Name) :
    item ∈ (wrapFile objcopy file).1.items ↔
      item.2 = item.1 ++ dlOriginal ∧ ¬ wrapperFile <:+ file.path ∧ item.1 ∈ publicNames file := by
  by_cases hpath : wrapperFile <:+ file.path
  · simp [wrapFile_of_wrapper hpath, hpath, Dict.empty]
  · have hnames := (hfresh file hfile).unwrapped hpath
    have hpairs : (publicNames file).map (fun name => (symbolName name, symbolName name ++ dlOriginal)) =
        (publicNames file).map fun name => (name, name ++ dlOriginal) := by
      apply List.map_congr_left
      intro name hname
      rw [symbolName_of_plain (not_infix_of_mem_publicNames hnames hname)]
    rw [(hfresh file hfile).wrapFile_eq hobjcopy hpath, hpairs]
    constructor
    · intro hitem
      obtain ⟨name, hname, rfl⟩ := List.mem_map.mp (Dict.mem_of_mem_ofList hitem)
      exact ⟨rfl, hpath, hname⟩
    · rintro ⟨hcallee, -, hname⟩
      obtain ⟨value, hvalue⟩ := Dict.exists_mem_ofList
        (List.mem_map_of_mem (f := fun name => (name, name ++ dlOriginal)) hname)
      obtain ⟨name, -, he⟩ := List.mem_map.mp (Dict.mem_of_mem_ofList hvalue)
      simp only [Prod.mk.injEq] at he
      obtain ⟨rfl, rfl⟩ := he
      rwa [← hcallee] at hvalue

theorem mem_foldl_update_iff {wrappers : Dict Name Name}
    (hwrappers : ∀ item ∈ wrappers.items, item.2 = item.1 ++ dlOriginal) (item : Name × Name) :
    item ∈ (files.foldl (fun wrappers file => wrappers.update (wrapFile objcopy file).1) wrappers).items ↔
      (∃ file ∈ files, item ∈ (wrapFile objcopy file).1.items) ∨ item ∈ wrappers.items := by
  induction files generalizing wrappers with
  | nil => simp
  | cons file rest ih =>
      have hfile : ∀ item ∈ (wrapFile objcopy file).1.items, item.2 = item.1 ++ dlOriginal :=
        fun item hitem => ((mem_wrapFile_iff hobjcopy hfresh List.mem_cons_self item).mp hitem).1
      have hupdate := Dict.mem_update_iff (· ++ dlOriginal) hwrappers hfile
      have hnext : ∀ item ∈ (wrappers.update (wrapFile objcopy file).1).items,
          item.2 = item.1 ++ dlOriginal := by
        intro item hitem
        exact ((hupdate item).mp hitem).elim (hfile item) (hwrappers item)
      rw [List.foldl_cons, ih (fun other hother => hfresh other (List.mem_cons_of_mem _ hother)) hnext,
        hupdate, List.exists_mem_cons_iff, or_left_comm, or_assoc]

-- A wrapper for each public name of a file
theorem get?_wrapFiles_iff {name callee : Name} :
    (wrapFiles objcopy files).1.get? name = some callee ↔
      callee = name ++ dlOriginal ∧
        ∃ file ∈ files, ¬ wrapperFile <:+ file.path ∧ name ∈ publicNames file := by
  have hempty : ∀ item ∈ (Dict.empty : Dict Name Name).items, item.2 = item.1 ++ dlOriginal := by
    intro item hitem
    cases hitem
  rw [Dict.get?_eq_some_iff, wrapFiles_eq, mem_foldl_update_iff hobjcopy hfresh hempty]
  constructor
  · rintro (⟨file, hfile, hitem⟩ | hitem)
    · obtain ⟨hcallee, hpath, hname⟩ := (mem_wrapFile_iff hobjcopy hfresh hfile _).mp hitem
      exact ⟨hcallee, file, hfile, hpath, hname⟩
    · cases hitem
  · rintro ⟨hcallee, file, hfile, hpath, hname⟩
    exact Or.inl ⟨file, hfile, (mem_wrapFile_iff hobjcopy hfresh hfile _).mpr ⟨hcallee, hpath, hname⟩⟩

-- Where the script renames a symbol to, told from the other end.
theorem at_wrapFiles_iff {site : Site} {new : Symbol} :
    At (wrapFiles objcopy files).2 site new ↔
      ∃ file ∈ files, files[site.file]? = some file ∧ ¬ wrapperFile <:+ file.path ∧
        ∃ old, file.symbols[site.symbol]? = some old ∧ new = renamed (publicNames file) old := by
  simp only [At, wrapFiles_eq, List.getElem?_map, Option.map_eq_some_iff]
  constructor
  · rintro ⟨_, ⟨file, hfile, rfl⟩, hpath, hnew⟩
    have hf := hfresh file (List.mem_of_getElem? hfile)
    rw [hf.path_wrapFile hobjcopy] at hpath
    rw [hf.wrapFile_eq hobjcopy hpath, List.getElem?_map, Option.map_eq_some_iff] at hnew
    obtain ⟨old, hold, rfl⟩ := hnew
    exact ⟨file, List.mem_of_getElem? hfile, hfile, hpath, old, hold, rfl⟩
  · rintro ⟨file, hm, hfile, hpath, old, hold, rfl⟩
    have hf := hfresh file hm
    refine ⟨_, ⟨file, hfile, rfl⟩, by rwa [hf.path_wrapFile hobjcopy], ?_⟩
    rw [hf.wrapFile_eq hobjcopy hpath, List.getElem?_map, hold, Option.map_some]

-- The definitions under a name with the suffix are those that were wrapped, the
-- definitions under a plain name those that were not.
theorem defines_append_iff {name : Name} {site : Site} :
    Defines (wrapFiles objcopy files).2 (name ++ dlOriginal) site ↔
      ∃ file ∈ files, files[site.file]? = some file ∧ ¬ wrapperFile <:+ file.path ∧
        name ∈ publicNames file ∧
          ∃ old, file.symbols[site.symbol]? = some old ∧ isDefinition old ∧ old.name = name := by
  simp only [Defines, at_wrapFiles_iff hobjcopy hfresh]
  constructor
  · rintro ⟨_, ⟨file, hfile, hsite, hpath, old, hold, rfl⟩, hdefinition, hname⟩
    have hnames := (hfresh file hfile).unwrapped hpath old (List.mem_of_getElem? hold)
    obtain ⟨rfl, hmem⟩ := (rename_eq_append_iff hnames).mp hname
    exact ⟨file, hfile, hsite, hpath, hmem, old, hold, hdefinition, rfl⟩
  · rintro ⟨file, hfile, hsite, hpath, hmem, old, hold, hdefinition, rfl⟩
    have hnames := (hfresh file hfile).unwrapped hpath old (List.mem_of_getElem? hold)
    exact ⟨_, ⟨file, hfile, hsite, hpath, old, hold, rfl⟩, hdefinition,
      (rename_eq_append_iff hnames).mpr ⟨rfl, hmem⟩⟩

theorem defines_plain_iff {name : Name} (hname : ¬ dlOriginal <:+: name) {site : Site} :
    Defines (wrapFiles objcopy files).2 name site ↔
      ∃ file ∈ files, files[site.file]? = some file ∧ ¬ wrapperFile <:+ file.path ∧
        name ∉ publicNames file ∧
          ∃ old, file.symbols[site.symbol]? = some old ∧ isDefinition old ∧ old.name = name := by
  simp only [Defines, at_wrapFiles_iff hobjcopy hfresh]
  constructor
  · rintro ⟨_, ⟨file, hfile, hsite, hpath, old, hold, rfl⟩, hdefinition, hnew⟩
    have hnames := (hfresh file hfile).unwrapped hpath old (List.mem_of_getElem? hold)
    obtain ⟨rfl, hmem⟩ := (rename_eq_iff hnames hname).mp hnew
    exact ⟨file, hfile, hsite, hpath, hmem, old, hold, hdefinition, rfl⟩
  · rintro ⟨file, hfile, hsite, hpath, hmem, old, hold, hdefinition, rfl⟩
    exact ⟨_, ⟨file, hfile, hsite, hpath, old, hold, rfl⟩, hdefinition,
      (rename_eq_iff hname hname).mpr ⟨rfl, hmem⟩⟩

omit hobjcopy hfresh in
theorem defines_iff {name : Name} {site : Site} :
    Defines files name site ↔
      ∃ file ∈ files, files[site.file]? = some file ∧ ¬ wrapperFile <:+ file.path ∧
        ∃ old, file.symbols[site.symbol]? = some old ∧ isDefinition old ∧ old.name = name := by
  constructor
  · rintro ⟨old, ⟨file, hsite, hpath, hold⟩, hdefinition, hname⟩
    exact ⟨file, List.mem_of_getElem? hsite, hsite, hpath, old, hold, hdefinition, hname⟩
  · rintro ⟨file, -, hsite, hpath, old, hold, hdefinition, hname⟩
    exact ⟨old, ⟨file, hsite, hpath, hold⟩, hdefinition, hname⟩

-- A plain name leads to all definitions that it led to: to those that were not
-- wrapped directly, to the others through its wrapper.
theorem reaches_plain_iff {name : Name} (hname : ¬ dlOriginal <:+: name) {site : Site} :
    Reaches (wrapFiles objcopy files).1 (wrapFiles objcopy files).2 name site ↔
      Defines files name site := by
  rw [Reaches, defines_plain_iff hobjcopy hfresh hname, defines_iff]
  constructor
  · rintro (⟨file, hfile, hsite, hpath, -, hold⟩ | ⟨callee, hcallee, hdefines⟩)
    · exact ⟨file, hfile, hsite, hpath, hold⟩
    · obtain ⟨rfl, -⟩ := (get?_wrapFiles_iff hobjcopy hfresh).mp hcallee
      obtain ⟨file, hfile, hsite, hpath, -, hold⟩ := (defines_append_iff hobjcopy hfresh).mp hdefines
      exact ⟨file, hfile, hsite, hpath, hold⟩
  · rintro ⟨file, hfile, hsite, hpath, hold⟩
    by_cases hmem : name ∈ publicNames file
    · have hcallee : (wrapFiles objcopy files).1.get? name = some (name ++ dlOriginal) :=
        (get?_wrapFiles_iff hobjcopy hfresh).mpr ⟨rfl, file, hfile, hpath, hmem⟩
      have hdefines := (defines_append_iff hobjcopy hfresh).mpr ⟨file, hfile, hsite, hpath, hmem, hold⟩
      exact Or.inr ⟨_, hcallee, hdefines⟩
    · exact Or.inl ⟨file, hfile, hsite, hpath, hmem, hold⟩

-- There is no wrapper of a wrapped name.
theorem reaches_append_iff {name : Name} {site : Site} :
    Reaches (wrapFiles objcopy files).1 (wrapFiles objcopy files).2 (name ++ dlOriginal) site ↔
      Defines (wrapFiles objcopy files).2 (name ++ dlOriginal) site := by
  constructor
  · rintro (hdefines | ⟨callee, hcallee, -⟩)
    · exact hdefines
    · obtain ⟨-, file, hfile, hpath, hmem⟩ := (get?_wrapFiles_iff hobjcopy hfresh).mp hcallee
      have hnames := (hfresh file hfile).unwrapped hpath
      exact absurd (List.suffix_append name dlOriginal).isInfix
        (not_infix_of_mem_publicNames hnames hmem)
  · exact Or.inl

theorem linksAlike_iff :
    LinksAlike files (wrapFiles objcopy files).1 (wrapFiles objcopy files).2 ↔ WrappedByAll files := by
  constructor
  · intro hlinks file hfile hpath other hother hotherPath symbol hsymbol hdefinition hpublic
    by_contra hmem
    obtain ⟨i, hi⟩ := List.getElem?_of_mem hother
    obtain ⟨j, hj⟩ := List.getElem?_of_mem hsymbol
    have hname := (hfresh other hother).unwrapped hotherPath symbol hsymbol
    have hcallee : (wrapFiles objcopy files).1.get? symbol.name = some (symbol.name ++ dlOriginal) :=
      (get?_wrapFiles_iff hobjcopy hfresh).mpr ⟨rfl, file, hfile, hpath, hpublic⟩
    apply hlinks.wrapperDefinitions symbol.name _ ⟨i, j⟩ hcallee
    exact (defines_plain_iff hobjcopy hfresh hname).mpr
      ⟨other, hother, hi, hotherPath, hmem, symbol, hj, hdefinition, rfl⟩
  · intro hall
    constructor
    · rintro site old ⟨file, hsite, hpath, hold⟩ hexternal
      have hfile := List.mem_of_getElem? hsite
      have hname := (hfresh file hfile).unwrapped hpath old (List.mem_of_getElem? hold)
      refine ⟨renamed (publicNames file) old,
        (at_wrapFiles_iff hobjcopy hfresh).mpr ⟨file, hfile, hsite, hpath, old, hold, rfl⟩,
        fun target => ?_⟩
      by_cases hmem : old.name ∈ publicNames file
      · have hnames := (hfresh file hfile).unwrapped hpath
        have hnew : (renamed (publicNames file) old).name = old.name ++ dlOriginal :=
          rename_of_mem hnames hmem
        rw [hnew, reaches_append_iff hobjcopy hfresh, defines_append_iff hobjcopy hfresh, defines_iff]
        constructor
        · rintro ⟨other, hother, htarget, hotherPath, -, hfound⟩
          exact ⟨other, hother, htarget, hotherPath, hfound⟩
        · rintro ⟨other, hother, htarget, hotherPath, found, hfound, hdefinition, he⟩
          have hpublic := hall file hfile hpath other hother hotherPath found
            (List.mem_of_getElem? hfound) hdefinition (he ▸ hmem)
          exact ⟨other, hother, htarget, hotherPath, he ▸ hpublic, found, hfound, hdefinition, he⟩
      · have hnew : (renamed (publicNames file) old).name = old.name := rename_of_not_mem hmem
        rw [hnew, reaches_plain_iff hobjcopy hfresh hname]
    · intro name callee target hcallee hdefines
      obtain ⟨-, file, hfile, hpath, hmem⟩ := (get?_wrapFiles_iff hobjcopy hfresh).mp hcallee
      have hname := not_infix_of_mem_publicNames ((hfresh file hfile).unwrapped hpath) hmem
      obtain ⟨other, hother, -, hotherPath, hnot, found, hfound, hdefinition, rfl⟩ :=
        (defines_plain_iff hobjcopy hfresh hname).mp hdefines
      exact hnot (hall file hfile hpath other hother hotherPath found (List.mem_of_getElem? hfound)
        hdefinition hmem)

end Wrappers

-- Wrapping keeps what every symbol is linked to, whatever was compiled and wrapped
-- before, just when no wrapped name has a definition that is not wrapped.
theorem build_linksAlike_iff {objcopy : ObjectFile → Name → Name → ObjectFile}
    (hobjcopy : Redefines objcopy) {events : List BuildEvent}
    (hevents : ∀ file, .compile file ∈ events → Fresh file) :
    LinksAlike (sources objcopy events) (wrapFiles objcopy (build objcopy events)).1
      (wrapFiles objcopy (build objcopy events)).2 ↔ WrappedByAll (sources objcopy events) := by
  have hbuilt := builtFrom_build hobjcopy hevents
  have hfresh : ∀ file ∈ sources objcopy events, Fresh file :=
    fun file hfile => hevents file ((sources_compiled events).2 file hfile)
  rw [wrapFiles_of_builtFrom hobjcopy hbuilt]
  exact linksAlike_iff hobjcopy hfresh

theorem build_linksAlike_recompiled :
    LinksAlike (sources redefineSym recompiled) (wrapFiles redefineSym (build redefineSym recompiled)).1
      (wrapFiles redefineSym (build redefineSym recompiled)).2 :=
  (build_linksAlike_iff (fun _ _ _ _ _ _ => rfl) recompiled_fresh).mpr (by decide)

end Msos.Scripts.GenerateWrappers
