import Msos.Fs.Listing

namespace Msos.Fs.RamFs

open Msos.Library.Machine Msos.Library.Search

section Names

-- A path that leads to an entry of this name in some directory, or in the root.
def Names (filename name : Path) : Prop :=
  '/' ∉ name ∧ (filename = name ∨ ∃ parent, filename = parent ++ '/' :: name)

-- Every way to a file of an entry gives it the same name.
structure OneName (fs : RamFs) (entry : Nat) (filename name : Path) : Prop where
  get : ∀ flags file, fs.get filename flags = some file → file.name = name
  create : ∀ flags, (fs.create filename flags).2.name = name
  list : ∀ directory, ∀ file ∈ fs.list directory, file.data = entry → file.name = name

variable {filename name : Path}

theorem shortName_of_notMem (h : '/' ∉ filename) : shortName filename = filename := by
  rw [shortName, findLastOf_of_notMem h]

-- The slash in front of the name stays.
theorem shortName_append (parent : Path) (h : '/' ∉ name) :
    shortName (parent ++ '/' :: name) = '/' :: name := by
  rw [shortName, findLastOf_append parent h]
  exact List.drop_left

theorem Names.inDirectory {directory other : Path} (h : Names filename name)
    (hd : InDirectory directory filename other) : other = name := by
  obtain ⟨hname, hpath⟩ := h
  obtain ⟨hother, hin⟩ := hd
  split at hin
  · subst hin
    rcases hpath with rfl | ⟨parent, rfl⟩
    · rfl
    · exact absurd (List.mem_append_right _ List.mem_cons_self) hother
  · subst hin
    rcases hpath with rfl | ⟨parent, hparent⟩
    · exact absurd (List.mem_append_right _ List.mem_cons_self) hname
    · -- the last slash is in the same place
      have hlength : directory.length = parent.length := by
        have hlast := findLastOf_append directory hother
        rw [hparent, findLastOf_append parent hname] at hlast
        exact (Option.some.inj hlast).symm
      exact (List.cons.inj (List.append_inj hparent hlength).2).2

theorem get_name {fs : RamFs} {flags : Int} {file : RamfsFile} (hne : filename ≠ [])
    (h : fs.get filename flags = some file) : file.name = shortName filename := by
  rw [get, if_neg hne] at h
  obtain ⟨entry, -, rfl⟩ := Option.map_eq_some_iff.mp h
  rfl

-- The root stays the first entry of every run.
theorem root_of_run {calls : List Call} {session : Session}
    (hr : run Session.step Session.new calls = some session) :
    ∃ rest, session.fs.filenames = "/".toList :: rest := by
  induction calls using List.reverseRecOn generalizing session with
  | nil =>
      obtain rfl : Session.new = session := by simpa using hr
      exact ⟨[], rfl⟩
  | append_singleton calls call ih =>
      rw [run_concat, Option.bind_eq_some_iff] at hr
      obtain ⟨before, hb, hs⟩ := hr
      obtain ⟨rest, hnames⟩ := ih hb
      exact ⟨rest ++ before.addedNames call, by rw [Session.step_filenames hs, hnames]; rfl⟩

-- The empty path is the one of the root.
theorem get_nil_of_run {calls : List Call} {session : Session}
    (hr : run Session.step Session.new calls = some session) (flags : Int) :
    ∃ file, session.fs.get [] flags = some file ∧ file.name = "/".toList := by
  obtain ⟨rest, hnames⟩ := root_of_run hr
  obtain ⟨root, hroot, hname⟩ : ∃ root, session.fs.files.head? = some root ∧
      root.filename = "/".toList := by
    have hhead := congrArg List.head? hnames
    rwa [filenames, List.head?_map, List.head?_cons, Option.map_eq_some_iff] at hhead
  exact ⟨⟨0, 0, root.filename⟩, by rw [get, if_pos rfl, hroot]; rfl, hname⟩

theorem oneName_iff {calls : List Call} {session : Session}
    (hr : run Session.step Session.new calls = some session) {entry : Nat}
    (hf : session.fs.filenames[entry]? = some filename) (hn : Names filename name) :
    OneName session.fs entry filename name ↔ '/' ∉ filename ∧ filename ≠ [] := by
  constructor
  · intro h
    constructor
    · intro hslash
      have hcreate := h.create 0
      rcases hn.2 with rfl | ⟨parent, rfl⟩
      · exact hn.1 hslash
      · rw [create, shortName_append parent hn.1] at hcreate
        exact absurd (congrArg List.length hcreate) (by simp)
    · rintro rfl
      obtain ⟨file, hget, hroot⟩ := get_nil_of_run hr 0
      have hname := h.get 0 file hget
      rw [hroot] at hname
      rcases hn.2 with rfl | ⟨parent, hparent⟩
      · cases hname
      · simp at hparent
  · rintro ⟨hslash, hne⟩
    obtain rfl : filename = name := by
      rcases hn.2 with rfl | ⟨parent, rfl⟩
      · rfl
      · exact absurd (List.mem_append_right _ List.mem_cons_self) hslash
    refine ⟨fun flags file hget => ?_, fun flags => shortName_of_notMem hslash,
      fun directory file hm hentry => ?_⟩
    · rw [get_name hne hget, shortName_of_notMem hslash]
    · obtain ⟨-, other, ho, hin⟩ := (list_lists.mem_iff file).mp hm
      rw [hentry, hf] at ho
      obtain rfl := Option.some.inj ho
      exact hn.inDirectory hin

def configCalls : List Call :=
  [.mkdir "config".toList 1, .create "config/shell.cfg".toList 0, .create "config/log".toList 0,
    .write 1 [1]]

theorem oneName_iff_config :
    OneName configSession.fs 1 "config".toList "config".toList ↔
      '/' ∉ "config".toList ∧ "config".toList ≠ [] :=
  @oneName_iff _ _ configCalls configSession rfl 1 rfl ⟨by decide, Or.inl rfl⟩

-- get and create give the file the name /shell.cfg, its directory lists shell.cfg.
theorem get_name_keeps_slash :
    run Session.step Session.new configCalls = some configSession ∧
      (configSession.fs.get "config/shell.cfg".toList 0).map RamfsFile.name =
          some "/shell.cfg".toList ∧
        ⟨2, 0, "shell.cfg".toList⟩ ∈ configSession.fs.list "config".toList ∧
          ¬OneName configSession.fs 2 "config/shell.cfg".toList "shell.cfg".toList := by
  refine ⟨rfl, by decide, by decide, fun h => ?_⟩
  exact absurd (h.create 0) (by decide)

end Names

end Msos.Fs.RamFs
