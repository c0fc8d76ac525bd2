import Mathlib.Data.List.Induction
import Msos.Library.Dict
import Msos.Library.Fallible
import Msos.Scripts.ElfParser

namespace Msos.Scripts.GenerateApi

open Msos.Library Msos.Library.Fallible

inductive CursorKind
  | functionDecl
  | varDecl
  | other
deriving DecidableEq, Repr

-- A cursor of a parsed header; `own` says that it lies in the header itself.
structure Cursor where
  kind : CursorKind
  spelling : Name
  own : Bool
deriving DecidableEq, Repr

structure Config where
  includes : List Name
  rangeStart : Nat
  rangeStop : Nat
deriving DecidableEq, Repr

-- The raise of a string, and the variable of a loop that made no round, are
-- errors of Python.
inductive ApiError
  | fileNotFound (include_ : Name)
  | rangeTooSmall
  | unboundLocal
deriving DecidableEq, Repr

def isDeclaration (cursor : Cursor) : Prop :=
  (cursor.kind = .functionDecl ∨ cursor.kind = .varDecl) ∧ cursor.own = true

instance : DecidablePred isDeclaration := fun _ => inferInstanceAs (Decidable (_ ∧ _))

-- The names that a header declares, in the order of walk_preorder
def declared (cursors : List Cursor) : List Name :=
  (cursors.filter fun cursor => isDeclaration cursor).map Cursor.spelling

structure Numbering where
  index : Nat
  enum : List (Name × Nat)
  generatedSymbols : Dict Name Nat

def declare (rangeStop : Nat) (state : Numbering) (cursor : Cursor) : Except ApiError Numbering :=
  if isDeclaration cursor then
    if rangeStop - 1 ≤ state.index then .error .rangeTooSmall
    else .ok {
      index := state.index + 1
      enum := state.enum ++ [(cursor.spelling, state.index)]
      generatedSymbols := state.generatedSymbols.set cursor.spelling state.index }
  else .ok state

section Files

-- `parse` stands for the search of a header and for clang.
variable (parse : Name → Option (List Cursor))

-- One round of the loop over the includes, with the cursors of the last one
def processInclude (rangeStop : Nat) (state : Numbering × Option (List Cursor)) (include_ : Name) :
    Except ApiError (Numbering × Option (List Cursor)) :=
  match parse include_ with
  | none => .error (.fileNotFound include_)
  | some cursors =>
      (cursors.foldlM (declare rangeStop) state.1).map fun numbering => (numbering, some cursors)

-- The enum of the header, and the names that its macro makes entries for.
structure GeneratedFile where
  enum : List (Name × Nat)
  entries : List Name
deriving DecidableEq, Repr

-- The macro is made from the cursors that the loop has left behind.
def generateFile (config : Config) (generatedSymbols : Dict Name Nat) :
    Except ApiError (GeneratedFile × Dict Name Nat) := do
  let (numbering, tu) ← config.includes.foldlM (processInclude parse config.rangeStop)
    (⟨config.rangeStart, [], generatedSymbols⟩, none)
  match tu with
  | none => .error .unboundLocal
  | some cursors => return (⟨numbering.enum, declared cursors⟩, numbering.generatedSymbols)

-- The libraries with fixed codes, and the ones to generate
structure Description where
  libs : List (Name × List (Name × Nat))
  generate : List (Name × Config)
deriving DecidableEq, Repr

def Description.symbolCodes (description : Description) : List (Name × Nat) :=
  description.libs.flatMap Prod.snd

-- The generated headers, and generated_symbols.json.
structure Api where
  files : List GeneratedFile
  generatedSymbols : Dict Name Nat

def generateLib (state : Api) (lib : Name × Config) : Except ApiError Api :=
  (generateFile parse lib.2 state.generatedSymbols).map fun (file, generatedSymbols) =>
    ⟨state.files ++ [file], generatedSymbols⟩

def generateApi (description : Description) : Except ApiError Api :=
  description.generate.foldlM (generateLib parse) ⟨[], Dict.ofList description.symbolCodes⟩

end Files

-- The enumerators that the headers define, with their values
def enumerators (description : Description) (api : Api) : List (Name × Nat) :=
  description.symbolCodes ++ api.files.flatMap GeneratedFile.enum

section Numbers

variable {stop : Nat}

def setAll (dict : Dict Name Nat) (items : List (Name × Nat)) : Dict Name Nat :=
  items.foldl (fun dict item => dict.set item.1 item.2) dict

-- The numbering of a list of names goes on from its index.
def Numbering.extend (state : Numbering) (names : List Name) : Numbering where
  index := state.index + names.length
  enum := state.enum ++ names.zipIdx state.index
  generatedSymbols := setAll state.generatedSymbols (names.zipIdx state.index)

theorem extend_nil (state : Numbering) : state.extend [] = state := by
  simp [Numbering.extend, setAll]

theorem extend_cons (state : Numbering) (name : Name) (names : List Name) :
    state.extend (name :: names) = (state.extend [name]).extend names := by
  simp [Numbering.extend, setAll, Nat.add_comm, Nat.add_left_comm]

theorem extend_append (state : Numbering) (first second : List Name) :
    state.extend (first ++ second) = (state.extend first).extend second := by
  induction first generalizing state with
  | nil => rw [List.nil_append, extend_nil]
  | cons name rest ih => rw [List.cons_append, extend_cons state name, ih, extend_cons state name rest]

-- The names fit below the last code of the range.
def Fits (stop : Nat) (state : Numbering) (names : List Name) : Prop :=
  names = [] ∨ state.index + names.length < stop

theorem declare_eq (state : Numbering) (cursor : Cursor) : declare stop state cursor =
    if isDeclaration cursor then
      if state.index + 1 < stop then .ok (state.extend [cursor.spelling])
      else .error .rangeTooSmall
    else .ok state := by
  unfold declare
  by_cases hd : isDeclaration cursor
  · rw [if_pos hd, if_pos hd]
    by_cases hfits : state.index + 1 < stop
    · rw [if_neg (by omega), if_pos hfits]
      rfl
    · rw [if_pos (by omega), if_neg hfits]
  · rw [if_neg hd, if_neg hd]

theorem foldlM_declare_eq_ok (cursors : List Cursor) (state after : Numbering) :
    cursors.foldlM (declare stop) state = .ok after ↔
      Fits stop state (declared cursors) ∧ after = state.extend (declared cursors) := by
  induction cursors generalizing state with
  | nil =>
      rw [List.foldlM_nil, declared, List.filter_nil, List.map_nil, extend_nil]
      simp [Fits, pure, Except.pure, eq_comm]
  | cons cursor rest ih =>
      rw [List.foldlM_cons, bind_eq_ok, declare_eq]
      by_cases hd : isDeclaration cursor
      · have hdeclared : declared (cursor :: rest) = cursor.spelling :: declared rest := by
          simp [declared, hd]
        rw [if_pos hd, hdeclared, extend_cons state cursor.spelling (declared rest)]
        by_cases hfits : state.index + 1 < stop
        · simp only [if_pos hfits, Except.ok.injEq, exists_eq_left', ih]
          have hiff : Fits stop (state.extend [cursor.spelling]) (declared rest) ↔
              Fits stop state (cursor.spelling :: declared rest) := by
            simp only [Fits, Numbering.extend, List.length_cons, List.length_nil, reduceCtorEq,
              false_or]
            cases hrest : declared rest with
            | nil => simpa using hfits
            | cons name names =>
                simp only [reduceCtorEq, false_or, List.length_cons]
                omega
          rw [hiff]
        · rw [if_neg hfits]
          simp only [reduceCtorEq, false_and, exists_false, false_iff, not_and]
          rintro (h | h)
          · cases h
          · rw [List.length_cons] at h
            omega
      · have hdeclared : declared (cursor :: rest) = declared rest := by simp [declared, hd]
        rw [if_neg hd, hdeclared]
        simp [ih]

end Numbers

section Generated

variable {parse : Name → Option (List Cursor)} {config : Config} {stop : Nat}

theorem fits_append (state : Numbering) (first second : List Name) :
    Fits stop state (first ++ second) ↔
      Fits stop state first ∧ Fits stop (state.extend first) second := by
  unfold Fits Numbering.extend
  cases first with
  | nil => simp
  | cons name rest =>
      cases second with
      | nil => simp
      | cons other others =>
          simp only [List.cons_append, reduceCtorEq, false_or, List.length_cons,
            List.length_append]
          omega

-- The loop over the includes numbers all their names, and leaves the cursors
-- of the last one.
theorem foldlM_processInclude_eq_ok (includes : List Name)
    (state after : Numbering × Option (List Cursor)) :
    includes.foldlM (processInclude parse stop) state = .ok after ↔
      ∃ headers : List (List Cursor), includes.map parse = headers.map some ∧
        Fits stop state.1 (headers.flatMap declared) ∧
        after = (state.1.extend (headers.flatMap declared),
          (headers.getLast?.map some).getD state.2) := by
  induction includes generalizing state with
  | nil =>
      rw [List.foldlM_nil]
      constructor
      · intro h
        obtain rfl := Except.ok.inj h
        exact ⟨[], rfl, Or.inl rfl, by simp [extend_nil]⟩
      · rintro ⟨headers, hmap, -, rfl⟩
        obtain rfl : headers = [] := by simpa using hmap.symm
        simp [extend_nil, pure, Except.pure]
  | cons head rest ih =>
      rw [List.foldlM_cons, bind_eq_ok]
      constructor
      · rintro ⟨middle, hmiddle, h⟩
        unfold processInclude at hmiddle
        cases hparse : parse head with
        | none =>
            rw [hparse] at hmiddle
            cases hmiddle
        | some cursors =>
            rw [hparse] at hmiddle
            obtain ⟨numbering, hnumbering, rfl⟩ := map_eq_ok.mp hmiddle
            obtain ⟨hfits, rfl⟩ := (foldlM_declare_eq_ok cursors state.1 _).mp hnumbering
            obtain ⟨headers, hmap, hrest, rfl⟩ := (ih _).mp h
            refine ⟨cursors :: headers, ?_, ?_, ?_⟩
            · rw [List.map_cons, hparse, hmap, List.map_cons]
            · rw [List.flatMap_cons, fits_append]
              exact ⟨hfits, hrest⟩
            · rw [List.flatMap_cons, extend_append]
              cases headers with
              | nil => rfl
              | cons second others => simp [List.getLast?_cons]
      · rintro ⟨headers, hmap, hfits, rfl⟩
        cases headers with
        | nil => simp at hmap
        | cons cursors headers =>
            rw [List.map_cons, List.map_cons, List.cons.injEq] at hmap
            rw [List.flatMap_cons, fits_append] at hfits
            refine ⟨(state.1.extend (declared cursors), some cursors), ?_, ?_⟩
            · simp only [processInclude, hmap.1]
              exact map_eq_ok.mpr ⟨_, (foldlM_declare_eq_ok cursors state.1 _).mpr ⟨hfits.1, rfl⟩, rfl⟩
            · refine (ih _).mpr ⟨headers, hmap.2, hfits.2, ?_⟩
              rw [List.flatMap_cons, extend_append]
              cases headers with
              | nil => rfl
              | cons second others => simp [List.getLast?_cons]

-- A header is generated exactly when every include is found and the names fit,
-- without the last code of the range. The codes are consecutive, and the macro
-- has the names of the last include only.
theorem generateFile_eq_ok_iff (generatedSymbols after : Dict Name Nat) (file : GeneratedFile) :
    generateFile parse config generatedSymbols = .ok (file, after) ↔
      ∃ headers last, config.includes.map parse = (headers ++ [last]).map some ∧
        ((headers ++ [last]).flatMap declared = [] ∨
          config.rangeStart + ((headers ++ [last]).flatMap declared).length < config.rangeStop) ∧
        file = ⟨((headers ++ [last]).flatMap declared).zipIdx config.rangeStart, declared last⟩ ∧
        after = setAll generatedSymbols
          (((headers ++ [last]).flatMap declared).zipIdx config.rangeStart) := by
  unfold generateFile
  rw [bind_eq_ok]
  constructor
  · rintro ⟨⟨numbering, tu⟩, hloop, h⟩
    obtain ⟨all, hmap, hfits, hafter⟩ := (foldlM_processInclude_eq_ok _ _ _).mp hloop
    obtain ⟨rfl, rfl⟩ := Prod.mk.inj hafter
    cases all using List.reverseRecOn with
    | nil => cases h
    | append_singleton headers last =>
        simp only [List.getLast?_concat, Option.map_some, Option.getD_some] at h
        obtain ⟨rfl, rfl⟩ := Prod.mk.inj (Except.ok.inj h)
        exact ⟨headers, last, hmap, hfits, rfl, rfl⟩
  · rintro ⟨headers, last, hmap, hfits, rfl, rfl⟩
    refine ⟨_, (foldlM_processInclude_eq_ok _ _ _).mpr ⟨headers ++ [last], hmap, hfits, rfl⟩, ?_⟩
    simp only [List.getLast?_concat, Option.map_some, Option.getD_some]
    rfl

end Generated

section Codes

variable {parse : Name → Option (List Cursor)} {description : Description} {api : Api}

-- The codes of a header are distinct, and lie in the range of its library.
structure InRange (config : Config) (file : GeneratedFile) : Prop where
  inside : ∀ item ∈ file.enum, config.rangeStart ≤ item.2 ∧ item.2 < config.rangeStop
  nodup : (file.enum.map Prod.snd).Nodup

-- The fixed codes are distinct, and the ranges lie apart from them and from
-- each other.
structure RangesApart (description : Description) : Prop where
  fixed : (description.symbolCodes.map Prod.snd).Nodup
  ranges : description.generate.Pairwise fun one other =>
    one.2.rangeStop ≤ other.2.rangeStart ∨ other.2.rangeStop ≤ one.2.rangeStart
  outside : ∀ item ∈ description.symbolCodes, ∀ lib ∈ description.generate,
    item.2 < lib.2.rangeStart ∨ lib.2.rangeStop ≤ item.2

theorem inRange_zipIdx {config : Config} {names entries : List Name}
    (h : names = [] ∨ config.rangeStart + names.length < config.rangeStop) :
    InRange config ⟨names.zipIdx config.rangeStart, entries⟩ where
  inside := by
    intro item hm
    have hindex := List.le_snd_of_mem_zipIdx hm
    have hbound := List.snd_lt_of_mem_zipIdx hm
    rcases h with rfl | h
    · cases hm
    · omega
  nodup := by
    rw [List.zipIdx_map_snd]
    exact List.nodup_range' ..

-- Each library gets its header, and the dictionary collects all names.
theorem generateApi_spec (h : generateApi parse description = .ok api) :
    List.Forall₂ (fun lib file => InRange lib.2 file) description.generate api.files ∧
      api.generatedSymbols = Dict.ofList (enumerators description api) := by
  refine foldlM_ok (f := generateLib parse)
    (P := fun done state => List.Forall₂ (fun (lib : Name × Config) file => InRange lib.2 file)
        done state.files ∧
      state.generatedSymbols = Dict.ofList (enumerators description state)) ?_ ?_ h
  · refine ⟨.nil, ?_⟩
    simp [enumerators]
  · rintro done lib before after ⟨hfiles, hdict⟩ hstep
    obtain ⟨⟨file, dict⟩, hfile, rfl⟩ := map_eq_ok.mp hstep
    obtain ⟨headers, last, -, hfits, rfl, rfl⟩ := (generateFile_eq_ok_iff _ _ _).mp hfile
    refine ⟨List.rel_append hfiles (.cons (inRange_zipIdx hfits) .nil), ?_⟩
    simp only [enumerators, List.flatMap_append, List.flatMap_cons, List.flatMap_nil,
      List.append_nil, ← List.append_assoc]
    rw [Dict.ofList, List.foldl_append, setAll, hdict]
    rfl

theorem mem_enums {libs : List (Name × Config)} {files : List GeneratedFile}
    (h : List.Forall₂ (fun lib file => InRange lib.2 file) libs files) {item : Name × Nat}
    (hm : item ∈ files.flatMap GeneratedFile.enum) :
    ∃ lib ∈ libs, lib.2.rangeStart ≤ item.2 ∧ item.2 < lib.2.rangeStop := by
  obtain ⟨file, hfile, hitem⟩ := List.mem_flatMap.mp hm
  obtain ⟨i, hi, rfl⟩ := List.getElem_of_mem hfile
  have hlength := h.length_eq
  have hrange := List.Forall₂.get h (show i < libs.length by omega) hi
  exact ⟨_, List.getElem_mem (show i < libs.length by omega), hrange.inside item hitem⟩

theorem nodup_enums {libs : List (Name × Config)} {files : List GeneratedFile}
    (h : List.Forall₂ (fun lib file => InRange lib.2 file) libs files)
    (hranges : libs.Pairwise fun one other =>
      one.2.rangeStop ≤ other.2.rangeStart ∨ other.2.rangeStop ≤ one.2.rangeStart) :
    ((files.flatMap GeneratedFile.enum).map Prod.snd).Nodup := by
  induction h with
  | nil => exact List.nodup_nil
  | @cons lib file libs files hrange hrest ih =>
      obtain ⟨hapart, hranges⟩ := List.pairwise_cons.mp hranges
      rw [List.flatMap_cons, List.map_append, List.nodup_append]
      refine ⟨hrange.nodup, ih hranges, fun code hcode other hother he => ?_⟩
      obtain ⟨item, hitem, rfl⟩ := List.mem_map.mp hcode
      obtain ⟨next, hnext, rfl⟩ := List.mem_map.mp hother
      obtain ⟨second, hsecond, hlow, hhigh⟩ := mem_enums hrest hnext
      have hinside := hrange.inside item hitem
      have := hapart second hsecond
      omega

theorem codes_nodup_of_apart (ha : RangesApart description)
    (h : generateApi parse description = .ok api) :
    ((enumerators description api).map Prod.snd).Nodup := by
  have hfiles := (generateApi_spec h).1
  rw [enumerators, List.map_append, List.nodup_append]
  refine ⟨ha.fixed, nodup_enums hfiles ha.ranges, fun code hcode other hother he => ?_⟩
  obtain ⟨item, hitem, rfl⟩ := List.mem_map.mp hcode
  obtain ⟨next, hnext, rfl⟩ := List.mem_map.mp hother
  obtain ⟨lib, hlib, hlow, hhigh⟩ := mem_enums hfiles hnext
  have := ha.outside item hitem lib hlib
  omega

-- With distinct names the dictionary says what the headers say.
theorem get?_generatedSymbols (h : generateApi parse description = .ok api)
    (hnames : ((enumerators description api).map Prod.fst).Nodup) {name : Name} {code : Nat} :
    api.generatedSymbols.get? name = some code ↔ (name, code) ∈ enumerators description api := by
  rw [(generateApi_spec h).2, Dict.get?_eq_some_iff]
  constructor
  · exact Dict.mem_of_mem_ofList
  · intro hm
    obtain ⟨value, hvalue⟩ := Dict.exists_mem_ofList hm
    have hlisted := Dict.mem_of_mem_ofList hvalue
    have hsame : (name, value) = (name, code) :=
      List.inj_on_of_nodup_map hnames hlisted hm rfl
    rw [← hsame]
    exact hvalue

end Codes

section Macros

variable {parse : Name → Option (List Cursor)}

-- Each code of a header has a name of its own, with an entry in the macro that the table
-- of addresses is made from.
structure Provides (file : GeneratedFile) : Prop where
  distinct : (file.enum.map Prod.fst).Nodup
  entries : ∀ item ∈ file.enum, item.1 ∈ file.entries

-- The includes are found, and only the last one declares names: none twice, and no more
-- than fit.
def Complete (parse : Name → Option (List Cursor)) (config : Config) : Prop :=
  ∃ headers last, config.includes.map parse = (headers ++ [last]).map some ∧
    (declared last = [] ∨ config.rangeStart + (declared last).length < config.rangeStop) ∧
    (declared last).Nodup ∧ ∀ header ∈ headers, declared header = []

theorem flatMap_declared_of_nil {headers : List (List Cursor)} {last : List Cursor}
    (h : ∀ header ∈ headers, declared header = []) :
    (headers ++ [last]).flatMap declared = declared last := by
  rw [List.flatMap_append, List.flatMap_eq_nil_iff.mpr h, List.nil_append, List.flatMap_singleton]

-- A name of an earlier include has no entry, or the last include declares it again.
theorem provides_iff {headers : List (List Cursor)} {last : List Cursor} {start : Nat} :
    Provides ⟨((headers ++ [last]).flatMap declared).zipIdx start, declared last⟩ ↔
      (declared last).Nodup ∧ ∀ header ∈ headers, declared header = [] := by
  have hnames : (((headers ++ [last]).flatMap declared).zipIdx start).map Prod.fst =
      (headers ++ [last]).flatMap declared := List.zipIdx_map_fst _ _
  constructor
  · rintro ⟨hdistinct, hentries⟩
    have hall : ∀ name ∈ (headers ++ [last]).flatMap declared, name ∈ declared last := by
      intro name hname
      rw [← hnames] at hname
      obtain ⟨item, hitem, rfl⟩ := List.mem_map.mp hname
      exact hentries item hitem
    have hdistinct : ((headers ++ [last]).flatMap declared).Nodup := hnames ▸ hdistinct
    rw [List.flatMap_append, List.flatMap_singleton] at hdistinct hall
    obtain ⟨-, hlast, hapart⟩ := List.nodup_append.mp hdistinct
    refine ⟨hlast, fun header hheader => List.eq_nil_iff_forall_not_mem.mpr fun name hname => ?_⟩
    have hearlier : name ∈ headers.flatMap declared := List.mem_flatMap.mpr ⟨header, hheader, hname⟩
    exact hapart name hearlier name (hall name (List.mem_append_left _ hearlier)) rfl
  · rintro ⟨hlast, hnone⟩
    rw [flatMap_declared_of_nil hnone] at hnames ⊢
    refine ⟨hnames.symm ▸ hlast, fun item hitem => ?_⟩
    have hmem := List.mem_map_of_mem (f := Prod.fst) hitem
    rwa [hnames] at hmem

-- Whether a library is generated, and what its header provides, does not depend on the
-- names before it.
theorem generateFile_provides_iff (config : Config) (generatedSymbols : Dict Name Nat) :
    (∃ file after, generateFile parse config generatedSymbols = .ok (file, after) ∧ Provides file) ↔
      Complete parse config := by
  constructor
  · rintro ⟨file, after, hfile, hprovides⟩
    obtain ⟨headers, last, hmap, hfits, rfl, -⟩ := (generateFile_eq_ok_iff _ _ _).mp hfile
    obtain ⟨hlast, hnone⟩ := provides_iff.mp hprovides
    rw [flatMap_declared_of_nil hnone] at hfits
    exact ⟨headers, last, hmap, hfits, hlast, hnone⟩
  · rintro ⟨headers, last, hmap, hfits, hlast, hnone⟩
    rw [← flatMap_declared_of_nil hnone] at hfits
    exact ⟨_, _, (generateFile_eq_ok_iff _ _ _).mpr ⟨headers, last, hmap, hfits, rfl, rfl⟩,
      provides_iff.mpr ⟨hlast, hnone⟩⟩

theorem foldlM_generateLib (libs : List (Name × Config)) (state : Api) :
    (∃ api, libs.foldlM (generateLib parse) state = .ok api ∧ ∀ file ∈ api.files, Provides file) ↔
      (∀ file ∈ state.files, Provides file) ∧ ∀ lib ∈ libs, Complete parse lib.2 := by
  induction libs generalizing state with
  | nil =>
      constructor
      · rintro ⟨api, hrun, hall⟩
        obtain rfl := Except.ok.inj hrun
        exact ⟨hall, fun lib hlib => absurd hlib List.not_mem_nil⟩
      · exact fun h => ⟨state, rfl, h.1⟩
  | cons lib libs ih =>
      have hfile := @generateFile_provides_iff parse lib.2 state.generatedSymbols
      rw [List.forall_mem_cons, ← hfile]
      constructor
      · rintro ⟨api, hrun, hall⟩
        obtain ⟨next, hnext, hrest⟩ := bind_eq_ok.mp hrun
        obtain ⟨⟨file, after⟩, hmade, rfl⟩ := map_eq_ok.mp hnext
        obtain ⟨hfiles, hlibs⟩ := (ih _).mp ⟨api, hrest, hall⟩
        refine ⟨fun other ho => hfiles other (List.mem_append_left _ ho), ⟨file, after, hmade, ?_⟩,
          hlibs⟩
        exact hfiles file (List.mem_append_right _ (List.mem_singleton_self file))
      · rintro ⟨hstate, ⟨file, after, hmade, hprovides⟩, hlibs⟩
        obtain ⟨api, hrest, hall⟩ := (ih ⟨state.files ++ [file], after⟩).mpr ⟨fun other ho => by
          rcases List.mem_append.mp ho with ho | ho
          · exact hstate other ho
          · rw [List.mem_singleton.mp ho]
            exact hprovides, hlibs⟩
        exact ⟨api, bind_eq_ok.mpr ⟨_, map_eq_ok.mpr ⟨_, hmade, rfl⟩, hrest⟩, hall⟩

-- An API is generated whose every numbered name has an address, exactly when each library
-- has includes that are found, the last of which alone declares names, distinct ones that
-- fit: the macro is made of the last one only. The fixed codes have no entries.
theorem generateApi_provides_iff (description : Description) :
    (∃ api, generateApi parse description = .ok api ∧ ∀ file ∈ api.files, Provides file) ↔
      ∀ lib ∈ description.generate, Complete parse lib.2 := by
  rw [generateApi, foldlM_generateLib]
  exact and_iff_right fun file hfile => absurd hfile List.not_mem_nil

-- Two includes declare the same name: it is numbered twice, and has one entry.
example :
    let parse := fun _ => some [Cursor.mk .functionDecl "f".toList true]
    (generateFile parse ⟨["a.h".toList, "b.h".toList], 100, 200⟩ .empty).map Prod.fst =
      .ok ⟨[("f".toList, 100), ("f".toList, 101)], ["f".toList]⟩ := rfl

end Macros

end Msos.Scripts.GenerateApi
