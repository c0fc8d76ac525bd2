import Mathlib.Data.List.Forall2
import Mathlib.Data.List.Infix
import Msos.Scripts.GenerateWrappers

namespace Msos.Scripts.GenerateWrappers

open Msos.Library GenerateConfig

section RemoveAll

theorem removeAll_cons_of_not_prefix {pattern rest : Name} {c : Char} (h : ¬ pattern <+: c :: rest) :
    removeAll pattern (c :: rest) = c :: removeAll pattern rest := by
  rw [removeAll, dif_neg fun hp => h hp.2]

theorem removeAll_self {pattern : Name} (hne : pattern ≠ []) : removeAll pattern pattern = [] := by
  cases pattern with
  | nil => exact absurd rfl hne
  | cons c rest =>
      rw [removeAll, dif_pos ⟨hne, List.prefix_refl _⟩, List.drop_length, removeAll]

-- No proper suffix of the name is also a prefix of it, so that no occurrence
-- can overlap another one.
def Borderless (pattern : Name) : Prop :=
  ∀ k < pattern.length, 0 < k → ¬ pattern.drop k <+: pattern

theorem dlOriginal_borderless : Borderless dlOriginal := by
  unfold Borderless
  decide

theorem not_prefix_append {pattern text : Name} (hborder : Borderless pattern)
    (htext : ¬ pattern <:+: text) (hne : text ≠ []) : ¬ pattern <+: text ++ pattern := by
  intro hprefix
  by_cases hlength : pattern.length ≤ text.length
  · have hinner := List.prefix_of_prefix_length_le hprefix (List.prefix_append text pattern) hlength
    exact htext hinner.isInfix
  · have hlt : text.length < pattern.length := by omega
    have hstart := List.prefix_of_prefix_length_le (List.prefix_append text pattern) hprefix hlt.le
    obtain ⟨tail, htail⟩ := hstart
    have hdrop : pattern.drop text.length = tail := by
      rw [← htail, List.drop_left]
    apply hborder text.length hlt (List.length_pos_iff.mpr hne)
    rw [hdrop]
    have hp : text ++ tail <+: text ++ pattern := htail.symm ▸ hprefix
    exact (List.prefix_append_right_inj text).mp hp

theorem removeAll_append {pattern text : Name} (hborder : Borderless pattern) (hne : pattern ≠ [])
    (htext : ¬ pattern <:+: text) : removeAll pattern (text ++ pattern) = text := by
  induction text with
  | nil => exact removeAll_self hne
  | cons c rest ih =>
      have hrest : ¬ pattern <:+: rest := fun h => htext (h.trans (List.suffix_cons c rest).isInfix)
      rw [List.cons_append, removeAll_cons_of_not_prefix, ih hrest]
      exact not_prefix_append hborder htext (List.cons_ne_nil c rest)

end RemoveAll

section Plain

def isPlain (c : Char) : Bool :=
  c.isAlphanum || c == '_' || c == '.' || c == '/' || c == '-' || c == '+'

-- A word that the shell, objcopy and ar take as it stands
def Plain (word : Name) : Prop := word ≠ [] ∧ word.head? ≠ some '-' ∧ word.all isPlain

instance : DecidablePred Plain := fun _ => inferInstanceAs (Decidable (_ ∧ _ ∧ _))

theorem Plain.append {first second : Name} (hf : Plain first) (hs : Plain second) :
    Plain (first ++ second) := by
  obtain ⟨hne, hhead, hall⟩ := hf
  refine ⟨fun h => hne (List.append_eq_nil_iff.mp h).1, ?_, ?_⟩
  · rwa [List.head?_append_of_ne_nil _ hne]
  · rw [List.all_append, hall, hs.2.2, Bool.and_self]

theorem dlOriginal_plain : Plain dlOriginal := by decide

end Plain

section Renaming

def redefine (old new : Name) (symbol : Symbol) : Symbol :=
  if symbol.name = old then { symbol with name := new } else symbol

-- What is relied on of objcopy: it renames every symbol with the old name, when the
-- shell hands the words of the command on as they are.
def Redefines (objcopy : ObjectFile → Name → Name → ObjectFile) : Prop :=
  ∀ file old new, Plain file.path → Plain old → Plain new →
    objcopy file old new = { file with symbols := file.symbols.map (redefine old new) }

def isRenamed (names : List Name) (name : Name) : Prop := name ∈ names ∧ ¬ dlOriginal <:+ name

instance (names : List Name) : DecidablePred (isRenamed names) :=
  fun _ => inferInstanceAs (Decidable (_ ∧ _))

def rename (names : List Name) (name : Name) : Name :=
  if isRenamed names name then name ++ dlOriginal else name

def renamed (names : List Name) (symbol : Symbol) : Symbol :=
  { symbol with name := rename names symbol.name }

-- One run of objcopy more in front: its result has the suffix and stays.
theorem renamed_cons {name : Name} (rest : List Name) (hname : ¬ dlOriginal <:+ name) (symbol : Symbol) :
    renamed rest (redefine name (name ++ dlOriginal) symbol) = renamed (name :: rest) symbol := by
  by_cases he : symbol.name = name
  · have hsuffix : dlOriginal <:+ name ++ dlOriginal := List.suffix_append _ _
    simp [renamed, redefine, rename, isRenamed, he, hname, hsuffix]
  · simp [renamed, redefine, rename, isRenamed, he]

theorem renamed_cons_of_suffix {name : Name} (rest : List Name) (hname : dlOriginal <:+ name)
    (symbol : Symbol) : renamed (name :: rest) symbol = renamed rest symbol := by
  have hsame : isRenamed (name :: rest) symbol.name ↔ isRenamed rest symbol.name := by
    by_cases he : symbol.name = name
    · simp [isRenamed, he, hname]
    · simp [isRenamed, he]
  simp only [renamed, rename, hsame]

variable {objcopy : ObjectFile → Name → Name → ObjectFile} (hobjcopy : Redefines objcopy)

include hobjcopy

theorem foldl_wrapSymbol {names : List Name} (state : Dict Name Name × ObjectFile)
    (hpath : Plain state.2.path) (hnames : ∀ name ∈ names, dlOriginal <:+ name ∨ Plain name) :
    names.foldl (wrapSymbol objcopy) state =
      (names.foldl (fun wrappers name => wrappers.set (symbolName name) (symbolName name ++ dlOriginal))
        state.1, { state.2 with symbols := state.2.symbols.map (renamed names) }) := by
  induction names generalizing state with
  | nil =>
      have hid : renamed [] = id := by
        funext symbol
        simp [renamed, rename, isRenamed]
      simp [hid]
  | cons name rest ih =>
      obtain ⟨hhead, hrest⟩ := List.forall_mem_cons.mp hnames
      by_cases hname : dlOriginal <:+ name
      · have hsymbols : renamed (name :: rest) = renamed rest :=
          funext (renamed_cons_of_suffix rest hname)
        have hsame : (wrapSymbol objcopy state name).2 = state.2 := if_pos hname
        rw [List.foldl_cons, ih _ (hsame ▸ hpath) hrest, List.foldl_cons, hsame, hsymbols]
        rfl
      · have hsymbols : renamed rest ∘ redefine name (name ++ dlOriginal) = renamed (name :: rest) :=
          funext (renamed_cons rest hname)
        have hplain := hhead.resolve_left hname
        have hrenamed : (wrapSymbol objcopy state name).2 = { state.2 with
            symbols := state.2.symbols.map (redefine name (name ++ dlOriginal)) } :=
          (if_neg hname).trans
            (hobjcopy state.2 name _ hpath hplain (hplain.append dlOriginal_plain))
        rw [List.foldl_cons, ih _ (by rw [hrenamed]; exact hpath) hrest, List.foldl_cons, hrenamed,
          List.map_map, hsymbols]
        rfl

end Renaming

section Incremental

def publicNames (file : ObjectFile) : List Name :=
  getSymbolNames (getPublicFunctionsFromSymbols (getSymbols file))

-- The words of the commands for the file are plain, and no symbol of it has the suffix
-- anywhere in its name. The file with the wrappers themselves is skipped and may have it.
structure Fresh (file : ObjectFile) : Prop where
  path : Plain file.path
  unwrapped : ¬ wrapperFile <:+ file.path → ∀ symbol ∈ file.symbols, ¬ dlOriginal <:+: symbol.name
  names : ¬ wrapperFile <:+ file.path → ∀ name ∈ publicNames file, Plain name

instance : DecidablePred Fresh := fun file =>
  decidable_of_iff (Plain file.path ∧
      (¬ wrapperFile <:+ file.path → ∀ symbol ∈ file.symbols, ¬ dlOriginal <:+: symbol.name) ∧
        (¬ wrapperFile <:+ file.path → ∀ name ∈ publicNames file, Plain name))
    ⟨fun h => ⟨h.1, h.2.1, h.2.2⟩, fun h => ⟨h.path, h.unwrapped, h.names⟩⟩

theorem symbolName_of_plain {name : Name} (h : ¬ dlOriginal <:+: name) : symbolName name = name :=
  if_neg fun hsuffix => h hsuffix.isInfix

theorem symbolName_append {name : Name} (h : ¬ dlOriginal <:+: name) :
    symbolName (name ++ dlOriginal) = name := by
  rw [symbolName, if_pos (List.suffix_append _ _)]
  exact removeAll_append dlOriginal_borderless (by decide) h

theorem publicNames_eq (file : ObjectFile) :
    publicNames file = ((getSymbols file).items.filter isPublic).map Prod.fst := rfl

theorem mem_publicNames_iff {file : ObjectFile} {name : Name} :
    name ∈ publicNames file ↔ ∃ item ∈ (getSymbols file).items, isPublic item ∧ item.1 = name := by
  simp [publicNames_eq]

theorem exists_symbol_of_mem_getSymbols {file : ObjectFile} {item : Name × SymbolData}
    (h : item ∈ (getSymbols file).items) : ∃ symbol ∈ file.symbols, symbolItem symbol = item :=
  List.mem_map.mp (Dict.mem_of_mem_ofList h)

variable {file : ObjectFile} (hfresh : ∀ symbol ∈ file.symbols, ¬ dlOriginal <:+: symbol.name)

include hfresh

theorem not_infix_of_mem_publicNames {name : Name} (h : name ∈ publicNames file) :
    ¬ dlOriginal <:+: name := by
  obtain ⟨item, hitem, -, rfl⟩ := mem_publicNames_iff.mp h
  obtain ⟨symbol, hsymbol, rfl⟩ := exists_symbol_of_mem_getSymbols hitem
  exact hfresh symbol hsymbol

theorem rename_of_mem {name : Name} (h : name ∈ publicNames file) :
    rename (publicNames file) name = name ++ dlOriginal :=
  if_pos ⟨h, fun hsuffix => not_infix_of_mem_publicNames hfresh h hsuffix.isInfix⟩

omit hfresh in
theorem rename_of_not_mem {names : List Name} {name : Name} (h : name ∉ names) :
    rename names name = name :=
  if_neg fun hrenamed => h hrenamed.1

omit hfresh in
theorem rename_injOn (names : List Name) : Set.InjOn (rename names) {name | ¬ dlOriginal <:+ name} := by
  intro first hfirst second hsecond he
  unfold rename at he
  split at he <;> split at he
  · exact List.append_cancel_right he
  · exact absurd (he ▸ List.suffix_append first dlOriginal) hsecond
  · exact absurd (he ▸ List.suffix_append second dlOriginal) hfirst
  · exact he

theorem getSymbols_renamed (names : List Name) :
    (getSymbols { file with symbols := file.symbols.map (renamed names) }).items =
      (getSymbols file).items.map fun item => (rename names item.1, item.2) := by
  have hitems : (file.symbols.map (renamed names)).map symbolItem =
      (file.symbols.map symbolItem).map fun item => (rename names item.1, item.2) := by
    rw [List.map_map, List.map_map]
    rfl
  rw [getSymbols, hitems]
  apply Dict.items_ofList_rename (rename_injOn names)
  intro item hitem
  obtain ⟨symbol, hsymbol, rfl⟩ := List.mem_map.mp hitem
  exact fun hsuffix => hfresh symbol hsymbol hsuffix.isInfix

theorem isPublic_rename {item : Name × SymbolData} (h : item ∈ (getSymbols file).items) :
    isPublic (rename (publicNames file) item.1, item.2) ↔ isPublic item := by
  by_cases hname : item.1 ∈ publicNames file
  · obtain ⟨found, hfound, hpublic, he⟩ := mem_publicNames_iff.mp hname
    -- The names are the keys of a dictionary.
    have hsame := List.inj_on_of_nodup_map (getSymbols file).keys_nodup hfound h he
    rw [rename_of_mem hfresh hname]
    exact ⟨fun _ => hsame ▸ hpublic, fun _ => Or.inr (Or.inr (List.suffix_append _ _))⟩
  · rw [rename_of_not_mem hname]

theorem publicNames_renamed :
    publicNames { file with symbols := file.symbols.map (renamed (publicNames file)) } =
      (publicNames file).map (· ++ dlOriginal) := by
  have hfilter : ((getSymbols file).items.map fun item =>
      (rename (publicNames file) item.1, item.2)).filter isPublic =
        ((getSymbols file).items.filter isPublic).map fun item =>
          (rename (publicNames file) item.1, item.2) := by
    rw [List.filter_map]
    congr 1
    apply List.filter_congr
    intro item hitem
    exact decide_eq_decide.mpr (isPublic_rename hfresh hitem)
  rw [publicNames_eq, getSymbols_renamed hfresh, hfilter, publicNames_eq, List.map_map, List.map_map]
  apply List.map_congr_left
  intro item hitem
  exact rename_of_mem hfresh (List.mem_map_of_mem hitem)

variable {objcopy : ObjectFile → Name → Name → ObjectFile} (hobjcopy : Redefines objcopy)

omit hfresh in
include hobjcopy in
theorem wrapFile_eq (file : ObjectFile) (hpath : ¬ wrapperFile <:+ file.path)
    (hplain : Plain file.path) (hnames : ∀ name ∈ publicNames file, dlOriginal <:+ name ∨ Plain name) :
    wrapFile objcopy file =
      (Dict.ofList ((publicNames file).map fun name => (symbolName name, symbolName name ++ dlOriginal)),
        { file with symbols := file.symbols.map (renamed (publicNames file)) }) := by
  have hfold := foldl_wrapSymbol hobjcopy (Dict.empty, file) hplain hnames
  rw [Dict.ofList, List.foldl_map]
  exact (if_neg hpath).trans hfold

omit hfresh in
include hobjcopy in
theorem Fresh.wrapFile_eq {file : ObjectFile} (h : Fresh file) (hpath : ¬ wrapperFile <:+ file.path) :
    wrapFile objcopy file =
      (Dict.ofList ((publicNames file).map fun name => (symbolName name, symbolName name ++ dlOriginal)),
        { file with symbols := file.symbols.map (renamed (publicNames file)) }) :=
  GenerateWrappers.wrapFile_eq hobjcopy file hpath h.path fun name hm => Or.inr (h.names hpath name hm)

omit hfresh in
theorem renamed_of_suffix {names : List Name} (h : ∀ name ∈ names, dlOriginal <:+ name) :
    renamed names = id := by
  funext symbol
  have hnot : ¬ isRenamed names symbol.name := fun hrenamed => hrenamed.2 (h _ hrenamed.1)
  simp [renamed, rename, hnot]

include hobjcopy in
omit hfresh in
theorem wrapFile_wrapFile (h : Fresh file) (hpath : ¬ wrapperFile <:+ file.path) :
    wrapFile objcopy (wrapFile objcopy file).2 = wrapFile objcopy file := by
  have hfresh := h.unwrapped hpath
  have hsuffix : ∀ name ∈ (publicNames file).map (· ++ dlOriginal), dlOriginal <:+ name := by
    intro name hname
    obtain ⟨base, -, rfl⟩ := List.mem_map.mp hname
    exact List.suffix_append base dlOriginal
  have hagain := wrapFile_eq hobjcopy
    { file with symbols := file.symbols.map (renamed (publicNames file)) } hpath h.path
    fun name hm => Or.inl (hsuffix name (publicNames_renamed hfresh ▸ hm))
  rw [publicNames_renamed hfresh, renamed_of_suffix hsuffix, List.map_id, List.map_map] at hagain
  rw [h.wrapFile_eq hobjcopy hpath]
  refine hagain.trans ?_
  congr 2
  apply List.map_congr_left
  intro name hname
  have hbase := not_infix_of_mem_publicNames hfresh hname
  simp only [Function.comp, symbolName_append hbase, symbolName_of_plain hbase]

end Incremental

section Sources

variable {objcopy : ObjectFile → Name → Name → ObjectFile}

theorem sources_concat (front : List BuildEvent) (event : BuildEvent) :
    sources objcopy (front ++ [event]) =
      if event ≠ .wrap then buildStep objcopy (sources objcopy front) event
      else sources objcopy front := by
  simp only [sources, build, List.foldl_filter, List.foldl_append, List.foldl_cons,
    List.foldl_nil, decide_eq_true_eq]

theorem mem_compile {file other : ObjectFile} {files : List ObjectFile}
    (h : other ∈ compile file files) : other = file ∨ other ∈ files := by
  induction files with
  | nil => exact Or.inl (List.mem_singleton.mp h)
  | cons head rest ih =>
      rw [compile] at h
      split at h
      · exact (List.mem_cons.mp h).imp_right (List.mem_cons_of_mem _)
      · rcases List.mem_cons.mp h with rfl | h
        · exact Or.inr List.mem_cons_self
        · exact (ih h).imp_right (List.mem_cons_of_mem _)

theorem nodup_compile {file : ObjectFile} {files : List ObjectFile}
    (h : (files.map ObjectFile.path).Nodup) : ((compile file files).map ObjectFile.path).Nodup := by
  induction files with
  | nil => exact List.nodup_singleton _
  | cons head rest ih =>
      obtain ⟨hhead, hrest⟩ := List.nodup_cons.mp h
      rw [compile]
      split
      · rename_i he
        exact List.nodup_cons.mpr ⟨he ▸ hhead, hrest⟩
      · rename_i hne
        refine List.nodup_cons.mpr ⟨fun hm => ?_, ih hrest⟩
        obtain ⟨other, hother, he⟩ := List.mem_map.mp hm
        rcases mem_compile hother with rfl | hother
        · exact hne he.symm
        · exact hhead (he ▸ List.mem_map_of_mem hother)

-- No path is there twice, and every file is one that was compiled.
theorem sources_compiled (events : List BuildEvent) :
    ((sources objcopy events).map ObjectFile.path).Nodup ∧
      ∀ file ∈ sources objcopy events, .compile file ∈ events := by
  induction events using List.reverseRecOn with
  | nil => exact ⟨List.nodup_nil, fun file hfile => nomatch hfile⟩
  | append_singleton front event ih =>
      obtain ⟨hnodup, hfiles⟩ := ih
      have hkeep : ∀ file ∈ sources objcopy front, .compile file ∈ front ++ [event] :=
        fun file hfile => List.mem_append_left _ (hfiles file hfile)
      rw [sources_concat]
      cases event with
      | compile file =>
          refine ⟨nodup_compile hnodup, fun other hother => ?_⟩
          rcases mem_compile hother with rfl | hother
          · exact List.mem_append_right _ List.mem_cons_self
          · exact hkeep other hother
      | remove path =>
          have hsub : List.Sublist ((sources objcopy front).filter fun file => file.path ≠ path)
            (sources objcopy front) := List.filter_sublist
          exact ⟨hnodup.sublist (hsub.map _), fun file hfile => hkeep file (hsub.mem hfile)⟩
      | wrap => exact ⟨hnodup, hkeep⟩

end Sources

section Builds

variable {objcopy : ObjectFile → Name → Name → ObjectFile}

-- The object that a build has for a source: as it was compiled, or wrapped since.
def BuiltFrom (objcopy : ObjectFile → Name → Name → ObjectFile) (source object : ObjectFile) : Prop :=
  Fresh source ∧ (object = source ∨ object = (wrapFile objcopy source).2)

theorem foldl_wrapFiles (files : List ObjectFile) (wrappers : Dict Name Name) (done : List ObjectFile) :
    files.foldl (fun (wrappers, wrapped) file =>
      (wrappers.update (wrapFile objcopy file).1, wrapped ++ [(wrapFile objcopy file).2]))
      (wrappers, done) =
        (files.foldl (fun wrappers file => wrappers.update (wrapFile objcopy file).1) wrappers,
          done ++ files.map fun file => (wrapFile objcopy file).2) := by
  induction files generalizing wrappers done with
  | nil => simp
  | cons file rest ih => simp [ih]

theorem wrapFiles_eq (files : List ObjectFile) :
    wrapFiles objcopy files =
      (files.foldl (fun wrappers file => wrappers.update (wrapFile objcopy file).1) Dict.empty,
        files.map fun file => (wrapFile objcopy file).2) := by
  rw [wrapFiles, foldl_wrapFiles, List.nil_append]

theorem wrapFile_of_wrapper {file : ObjectFile} (hpath : wrapperFile <:+ file.path) :
    wrapFile objcopy file = (Dict.empty, file) := if_pos hpath

variable (hobjcopy : Redefines objcopy)

include hobjcopy

theorem Fresh.path_wrapFile {file : ObjectFile} (h : Fresh file) :
    (wrapFile objcopy file).2.path = file.path := by
  by_cases hpath : wrapperFile <:+ file.path
  · rw [wrapFile_of_wrapper hpath]
  · rw [h.wrapFile_eq hobjcopy hpath]

theorem BuiltFrom.path_eq {source object : ObjectFile} (h : BuiltFrom objcopy source object) :
    object.path = source.path := by
  obtain ⟨hfresh, rfl | rfl⟩ := h
  · rfl
  · exact hfresh.path_wrapFile hobjcopy

-- Wrapping a file again changes nothing and finds the same wrappers.
theorem BuiltFrom.wrapFile_eq {source object : ObjectFile} (h : BuiltFrom objcopy source object) :
    wrapFile objcopy object = wrapFile objcopy source := by
  obtain ⟨hfresh, rfl | rfl⟩ := h
  · rfl
  · by_cases hpath : wrapperFile <:+ source.path
    · rw [wrapFile_of_wrapper hpath, wrapFile_of_wrapper hpath]
    · exact wrapFile_wrapFile hobjcopy hfresh hpath

theorem wrapFiles_of_builtFrom {before files : List ObjectFile}
    (h : List.Forall₂ (BuiltFrom objcopy) before files) :
    wrapFiles objcopy files = wrapFiles objcopy before := by
  rw [wrapFiles_eq, wrapFiles_eq]
  generalize (Dict.empty : Dict Name Name) = wrappers
  induction h generalizing wrappers with
  | nil => rfl
  | @cons source _ _ _ hhead _ ih =>
      have hrest := ih (wrappers.update (wrapFile objcopy source).1)
      simp only [Prod.mk.injEq] at hrest
      simp only [List.foldl_cons, List.map_cons, hhead.wrapFile_eq hobjcopy, hrest]

theorem builtFrom_compile {before files : List ObjectFile} {file : ObjectFile} (hfile : Fresh file)
    (h : List.Forall₂ (BuiltFrom objcopy) before files) :
    List.Forall₂ (BuiltFrom objcopy) (compile file before) (compile file files) := by
  have hself : BuiltFrom objcopy file file := ⟨hfile, Or.inl rfl⟩
  induction h with
  | nil => exact List.Forall₂.cons hself List.Forall₂.nil
  | cons hhead hrest ih =>
      rw [compile, compile, hhead.path_eq hobjcopy]
      split
      · exact List.Forall₂.cons hself hrest
      · exact List.Forall₂.cons hhead ih

theorem builtFrom_remove {before files : List ObjectFile} (path : Name)
    (h : List.Forall₂ (BuiltFrom objcopy) before files) :
    List.Forall₂ (BuiltFrom objcopy) (before.filter fun file => file.path ≠ path)
      (files.filter fun file => file.path ≠ path) := by
  induction h with
  | nil => exact List.Forall₂.nil
  | @cons source object _ _ hhead _ ih =>
      have hpath := hhead.path_eq hobjcopy
      by_cases he : source.path = path
      · rwa [List.filter_cons_of_neg (by simp [he]), List.filter_cons_of_neg (by simp [hpath, he])]
      · rw [List.filter_cons_of_pos (by simp [he]), List.filter_cons_of_pos (by simp [hpath, he])]
        exact List.Forall₂.cons hhead ih

theorem builtFrom_wrap {before files : List ObjectFile}
    (h : List.Forall₂ (BuiltFrom objcopy) before files) :
    List.Forall₂ (BuiltFrom objcopy) before (wrapFiles objcopy files).2 := by
  rw [wrapFiles_of_builtFrom hobjcopy h, wrapFiles_eq, List.forall₂_map_right_iff]
  induction h with
  | nil => exact List.Forall₂.nil
  | cons hhead _ ih => exact List.Forall₂.cons ⟨hhead.1, Or.inr rfl⟩ ih

theorem builtFrom_step {before files : List ObjectFile} {event : BuildEvent}
    (hevent : ∀ file, event = .compile file → Fresh file)
    (h : List.Forall₂ (BuiltFrom objcopy) before files) :
    List.Forall₂ (BuiltFrom objcopy)
      (if event ≠ .wrap then buildStep objcopy before event else before)
      (buildStep objcopy files event) := by
  cases event with
  | compile file => exact builtFrom_compile hobjcopy (hevent file rfl) h
  | remove path => exact builtFrom_remove hobjcopy path h
  | wrap => exact builtFrom_wrap hobjcopy h

theorem builtFrom_build {events : List BuildEvent}
    (hevents : ∀ file, .compile file ∈ events → Fresh file) :
    List.Forall₂ (BuiltFrom objcopy) (sources objcopy events) (build objcopy events) := by
  induction events using List.reverseRecOn with
  | nil => exact List.Forall₂.nil
  | append_singleton front event ih =>
      have hfront := ih fun file hfile => hevents file (List.mem_append_left _ hfile)
      have hevent : ∀ file, event = .compile file → Fresh file := by
        rintro file rfl
        exact hevents file (List.mem_append_right _ List.mem_cons_self)
      have hstep := builtFrom_step hobjcopy hevent hfront
      rwa [sources_concat, build, List.foldl_concat]

-- However compilations, deletions and earlier runs of the script followed each
-- other, the next run gives what it gives on the files as they were compiled.
theorem wrapFiles_build {events : List BuildEvent}
    (hevents : ∀ file, .compile file ∈ events → Fresh file) :
    wrapFiles objcopy (build objcopy events) = wrapFiles objcopy (sources objcopy events) :=
  wrapFiles_of_builtFrom hobjcopy (builtFrom_build hobjcopy hevents)

-- The suffix inside of a name gets lost when a wrapped file is read again.
example : symbolName "f_dl_original_x".toList = "f_dl_original_x".toList ∧
    symbolName "f_dl_original_x_dl_original".toList = "f_x".toList := by decide +kernel

-- objcopy as its manual has it
def redefineSym (file : ObjectFile) (old new : Name) : ObjectFile :=
  { file with symbols := file.symbols.map (redefine old new) }

def callee : ObjectFile :=
  ⟨"callee.o".toList, [⟨"print".toList, .func, .global_, .default_, 0, .at 1⟩,
    ⟨"step".toList, .func, .local_, .default_, 8, .at 1⟩]⟩

def caller : ObjectFile :=
  ⟨"caller.o".toList, [⟨"print".toList, .noType, .global_, .default_, 0, .undef⟩,
    ⟨main, .func, .global_, .hidden, 0, .at 1⟩]⟩

-- The caller is compiled again after both were wrapped.
def recompiled : List BuildEvent := [.compile callee, .compile caller, .wrap, .compile caller, .wrap]

omit hobjcopy in
theorem recompiled_fresh (file : ObjectFile) (h : .compile file ∈ recompiled) : Fresh file := by
  have hfile : file = callee ∨ file = caller := by
    simp [recompiled] at h
    tauto
  rcases hfile with rfl | rfl
  · decide
  · decide

end Builds

end Msos.Scripts.GenerateWrappers
