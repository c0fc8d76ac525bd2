import Mathlib.Data.Char
import Mathlib.Data.List.Lex
import Msos.Fs.FileSystems
import Msos.Fs.RamFs.Theorems
import Msos.Library.Insertion

namespace Msos.Fs.RamFs

open Msos.Library Msos.Library.Search Msos.Library.Machine

section Definitions

def IsRoot (path : Path) : Prop := path = [] ∨ path = "/".toList

instance (path : Path) : Decidable (IsRoot path) := inferInstanceAs (Decidable (_ ∨ _))

-- An entry with this path is the one of this name in the directory.
def InDirectory (directory filename name : Path) : Prop :=
  '/' ∉ name ∧ if IsRoot directory then filename = name else filename = directory ++ '/' :: name

-- The files are the entries of the directory, each of them once, by their
-- names; equal names stand in the order of the entries.
structure Lists (fs : RamFs) (directory : Path) (files : List RamfsFile) : Prop where
  mem_iff : ∀ file, file ∈ files ↔ file.position = 0 ∧ ∃ filename,
    fs.filenames[file.data]? = some filename ∧ InDirectory directory filename file.name
  once : (files.map RamfsFile.data).Nodup
  sorted : files.Pairwise fun first second =>
    first.name < second.name ∨ first.name = second.name ∧ first.data < second.data

-- The root is one directory with two paths.
def asDirectory (path : Path) : Path := if path = "/".toList then [] else path

-- No slash at either end, and no two in a row.
structure Relative (path : Path) : Prop where
  head : path.head? ≠ some '/'
  last : path.getLast? ≠ some '/'
  single : ¬['/', '/'] <:+: path

-- The calls that make entries make them at relative paths.
def Call.Relative : Call → Prop
  | .mkdir path _ | .create path _ => RamFs.Relative path
  | .get _ _ | .read _ _ | .write _ _ => True

end Definitions

section Paths

variable {path : Path}

theorem getParentPath_of_notMem (h : '/' ∉ path) : getParentPath path = [] := by
  rw [getParentPath, findLastOf_of_notMem h]

theorem getParentPath_append {name : Path} (parent : Path) (h : '/' ∉ name) :
    getParentPath (parent ++ '/' :: name) = parent := by
  rw [getParentPath, findLastOf_append parent h]
  exact List.take_left

-- A path is in the directory of its parent, and in no other one.
theorem inDirectory_iff {directory filename name : Path} (hd : ¬IsRoot directory) :
    InDirectory directory filename name ↔
      getParentPath filename = directory ∧ name = filename.drop (directory.length + 1) := by
  have hne : directory ≠ [] := fun h => hd (Or.inl h)
  rw [InDirectory, if_neg hd]
  constructor
  · rintro ⟨hname, rfl⟩
    refine ⟨getParentPath_append directory hname, ?_⟩
    rw [← List.drop_drop, List.drop_left]
    rfl
  · rintro ⟨hparent, rfl⟩
    by_cases hslash : '/' ∈ filename
    · obtain ⟨before, after, rfl, hafter⟩ := exists_last hslash
      rw [getParentPath_append before hafter] at hparent
      subst hparent
      have hdrop : (before ++ '/' :: after).drop (before.length + 1) = after := by
        rw [← List.drop_drop, List.drop_left]
        rfl
      rw [hdrop]
      exact ⟨hafter, rfl⟩
    · rw [getParentPath_of_notMem hslash] at hparent
      exact absurd hparent.symm hne

end Paths

section Listing

variable (fs : RamFs) (directory : Path)

-- The file of an entry that is in the directory.
def candidate (entry : RamFsData × Nat) : Option RamfsFile :=
  if IsRoot directory then
    if '/' ∈ entry.1.filename then none else some ⟨entry.2, 0, entry.1.filename⟩
  else if getParentPath entry.1.filename = directory then
    some ⟨entry.2, 0, entry.1.filename.drop (directory.length + 1)⟩
  else none

def candidates : List RamfsFile := fs.files.zipIdx.filterMap (candidate directory)

theorem insertWithOrder_eq (file : RamfsFile) (files : List RamfsFile) :
    insertWithOrder file files = Insertion.insert (· < ·) RamfsFile.name file files := by
  induction files with
  | nil => rfl
  | cons head rest ih =>
      rw [insertWithOrder, ih]
      rfl

theorem list_eq : fs.list directory =
    Insertion.insertAll (· < ·) RamfsFile.name (fs.candidates directory) := by
  rw [Insertion.insertAll, candidates, List.foldl_filterMap, list]
  by_cases hd : IsRoot directory
  · have hroot : directory = [] ∨ directory = "/".toList := hd
    rw [if_pos hroot]
    congr 1
    funext files entry
    simp only [candidate, if_pos hd, insertWithOrder_eq]
    split <;> rfl
  · have hroot : ¬(directory = [] ∨ directory = "/".toList) := hd
    rw [if_neg hroot]
    congr 1
    funext files entry
    simp only [candidate, if_neg hd, insertWithOrder_eq]
    by_cases hparent : getParentPath entry.1.filename = directory
    · simp only [hparent, if_true]
    · simp only [hparent, if_false]

variable {fs} {directory}

theorem candidate_eq_some_iff {entry : RamFsData × Nat} {file : RamfsFile} :
    candidate directory entry = some file ↔ file.data = entry.2 ∧ file.position = 0 ∧
      InDirectory directory entry.1.filename file.name := by
  obtain ⟨data, position, name⟩ := file
  by_cases hd : IsRoot directory
  · simp only [candidate, InDirectory, if_pos hd]
    split
    · rename_i hslash
      simp only [reduceCtorEq, false_iff]
      rintro ⟨-, -, hname, rfl⟩
      exact hname hslash
    · rename_i hslash
      simp only [Option.some.injEq, RamfsFile.mk.injEq]
      constructor
      · rintro ⟨rfl, rfl, rfl⟩
        exact ⟨rfl, rfl, hslash, rfl⟩
      · rintro ⟨rfl, rfl, -, rfl⟩
        exact ⟨rfl, rfl, rfl⟩
  · rw [inDirectory_iff hd, candidate, if_neg hd]
    split
    · rename_i hparent
      simp only [Option.some.injEq, RamfsFile.mk.injEq]
      constructor
      · rintro ⟨rfl, rfl, rfl⟩
        exact ⟨rfl, rfl, hparent, rfl⟩
      · rintro ⟨rfl, rfl, -, rfl⟩
        exact ⟨rfl, rfl, rfl⟩
    · rename_i hparent
      simp [hparent]

theorem pairwise_candidates : (fs.candidates directory).Pairwise fun first second =>
    first.data < second.data := by
  have hids : (fs.files.zipIdx.map Prod.snd).Pairwise (· < ·) := by
    rw [List.zipIdx_map_snd]
    exact List.pairwise_lt_range'
  rw [candidates, List.pairwise_filterMap]
  refine (List.pairwise_map.mp hids).imp fun hlt first hf second hs => ?_
  rw [(candidate_eq_some_iff.mp hf).1, (candidate_eq_some_iff.mp hs).1]
  exact hlt

theorem list_lists : Lists fs directory (fs.list directory) := by
  obtain ⟨hperm, hsorted⟩ := @Insertion.insertAll_spec _ _ (· < ·) RamfsFile.name RamfsFile.data
    _ _ _ _ (@pairwise_candidates fs directory)
  rw [← list_eq] at hperm hsorted
  refine ⟨fun file => ?_, ?_, hsorted⟩
  · rw [hperm.mem_iff, candidates, List.mem_filterMap]
    constructor
    · rintro ⟨entry, hentry, hc⟩
      obtain ⟨hdata, hposition, hin⟩ := candidate_eq_some_iff.mp hc
      refine ⟨hposition, entry.1.filename, ?_, hin⟩
      rw [hdata, filenames, List.getElem?_map, List.mem_zipIdx_iff_getElem?.mp hentry]
      rfl
    · rintro ⟨hposition, filename, hf, hin⟩
      rw [filenames, List.getElem?_map, Option.map_eq_some_iff] at hf
      obtain ⟨entry, hentry, rfl⟩ := hf
      exact ⟨(entry, file.data), List.mem_zipIdx_iff_getElem?.mpr hentry,
        candidate_eq_some_iff.mpr ⟨rfl, hposition, hin⟩⟩
  · rw [(hperm.map _).nodup_iff, List.nodup_iff_pairwise_ne, List.pairwise_map]
    exact pairwise_candidates.imp fun h => h.ne

end Listing

section Directories

-- The names after a call are the old ones and relative ones.
theorem addedNames_relative {session : Session} {call : Call} (hc : call.Relative) :
    ∀ filename ∈ session.addedNames call, Relative filename := by
  intro filename hf
  cases call with
  | mkdir path mode =>
      simp only [Session.addedNames] at hf
      split at hf
      · cases hf
      · obtain rfl := List.mem_singleton.mp hf
        exact hc
  | create path flags =>
      obtain rfl := List.mem_singleton.mp hf
      exact hc
  | get _ _ | read _ _ | write _ _ => cases hf

-- All entries but the first one have relative paths.
theorem filenames_of_run {calls : List Call} {session : Session}
    (hr : run Session.step Session.new calls = some session)
    (hc : ∀ call ∈ calls, call.Relative) :
    ∃ rest, session.fs.filenames = "/".toList :: rest ∧ ∀ filename ∈ rest, Relative filename := by
  induction calls using List.reverseRecOn generalizing session with
  | nil =>
      obtain rfl : Session.new = session := by simpa using hr
      exact ⟨[], rfl, by simp⟩
  | append_singleton calls call ih =>
      rw [run_concat, Option.bind_eq_some_iff] at hr
      obtain ⟨before, hb, hs⟩ := hr
      obtain ⟨rest, hnames, hrest⟩ := ih hb fun other ho => hc other (List.mem_append_left _ ho)
      refine ⟨rest ++ before.addedNames call, ?_, fun filename hf => ?_⟩
      · rw [Session.step_filenames hs, hnames]
        rfl
      · rcases List.mem_append.mp hf with hf | hf
        · exact hrest filename hf
        · exact addedNames_relative (hc call (by simp)) filename hf

-- What does not start with a slash is in the directory of its parent only.
theorem listed_iff {fs : RamFs} {entry : Nat} {filename : Path}
    (hf : fs.filenames[entry]? = some filename) (hhead : filename.head? ≠ some '/')
    (directory : Path) :
    (∃ file ∈ fs.list directory, file.data = entry) ↔
      asDirectory directory = getParentPath filename := by
  have hlisted : (∃ file ∈ fs.list directory, file.data = entry) ↔
      ∃ name, InDirectory directory filename name := by
    constructor
    · rintro ⟨file, hm, rfl⟩
      obtain ⟨-, other, ho, hin⟩ := (list_lists.mem_iff file).mp hm
      obtain rfl := Option.some.inj (ho.symm.trans hf)
      exact ⟨_, hin⟩
    · rintro ⟨name, hin⟩
      exact ⟨⟨entry, 0, name⟩, (list_lists.mem_iff _).mpr ⟨rfl, filename, hf, hin⟩, rfl⟩
  rw [hlisted]
  by_cases hd : IsRoot directory
  · have hroot : asDirectory directory = [] := by
      rcases hd with rfl | rfl <;> rfl
    simp only [InDirectory, if_pos hd, hroot]
    constructor
    · rintro ⟨name, hslash, rfl⟩
      exact (getParentPath_of_notMem hslash).symm
    · intro hparent
      refine ⟨filename, fun hslash => ?_, rfl⟩
      obtain ⟨before, after, rfl, hafter⟩ := exists_last hslash
      rw [getParentPath_append before hafter] at hparent
      subst hparent
      exact hhead rfl
  · have hsame : asDirectory directory = directory := if_neg fun h => hd (Or.inr h)
    simp only [inDirectory_iff hd, hsame]
    exact ⟨fun ⟨_, hparent, _⟩ => hparent.symm, fun hparent => ⟨_, hparent.symm, rfl⟩⟩

theorem asDirectory_getParentPath {filename : Path} (hhead : filename.head? ≠ some '/') :
    asDirectory (getParentPath filename) = getParentPath filename := by
  refine if_neg fun hparent => ?_
  by_cases hslash : '/' ∈ filename
  · obtain ⟨before, after, rfl, hafter⟩ := exists_last hslash
    rw [getParentPath_append before hafter] at hparent
    subst hparent
    exact hhead rfl
  · rw [getParentPath_of_notMem hslash] at hparent
    cases hparent

theorem list_complete {calls : List Call} {session : Session}
    (hr : run Session.step Session.new calls = some session)
    (hc : ∀ call ∈ calls, call.Relative) :
    (∀ directory, Lists session.fs directory (session.fs.list directory)) ∧
      ∀ entry, 0 < entry → entry < session.fs.files.length → ∃ parent, ∀ directory,
        (∃ file ∈ session.fs.list directory, file.data = entry) ↔
          asDirectory directory = asDirectory parent := by
  refine ⟨fun _ => list_lists, fun entry hpos hlt => ?_⟩
  obtain ⟨rest, hnames, hrest⟩ := filenames_of_run hr hc
  have hentry : entry < session.fs.filenames.length := by simpa [filenames] using hlt
  have hf := List.getElem?_eq_getElem hentry
  have hrelative : Relative session.fs.filenames[entry] := by
    apply hrest
    obtain ⟨i, rfl⟩ := Nat.exists_eq_add_of_lt hpos
    simp only [hnames, Nat.zero_add, List.getElem_cons_succ]
    exact List.getElem_mem _
  refine ⟨getParentPath session.fs.filenames[entry], fun directory => ?_⟩
  rw [listed_iff hf hrelative.head, asDirectory_getParentPath hrelative.head]

def configSession : Session where
  fs := ⟨[RamFsData.createDirectory "/".toList, RamFsData.createDirectory "config".toList,
    RamFsData.createFile "config/shell.cfg".toList [], RamFsData.createFile "config/log".toList [1]]⟩
  handles := [⟨2, 0, "/shell.cfg".toList⟩, ⟨3, 0, "/log".toList⟩]

theorem list_complete_config :
    (∀ directory, Lists configSession.fs directory (configSession.fs.list directory)) ∧
      ∀ entry, 0 < entry → entry < configSession.fs.files.length → ∃ parent, ∀ directory,
        (∃ file ∈ configSession.fs.list directory, file.data = entry) ↔
          asDirectory directory = asDirectory parent := by
  refine @list_complete [.mkdir "config".toList 1, .create "config/shell.cfg".toList 0,
    .create "config/log".toList 0, .write 1 [1]] configSession rfl fun call hm => ?_
  simp only [List.mem_cons, List.not_mem_nil, or_false] at hm
  rcases hm with rfl | rfl | rfl | rfl
  · exact ⟨by decide, by decide, by decide⟩
  · exact ⟨by decide, by decide, by decide⟩
  · exact ⟨by decide, by decide, by decide⟩
  · trivial

end Directories

end Msos.Fs.RamFs
