import Msos.Fs.Listing
import Msos.Posix.Directories.Theorems

namespace Msos.Posix

open Msos.Fs Msos.Fs.MountPoints Msos.Library.Search

-- name() of the classes of files
def fileName : File → Path
  | .ramfsFile file => file.name
  | .deviceFsRootFile => []
  | .usartFile _ path => path
  | .appFile entry => entry.name

-- A copy over the end of d_name.
inductive NameFault
  | overflow
deriving DecidableEq, Repr

def sizeofName : Nat := 128

-- An open DIR with the text in d_name; names come from C strings.
structure Stream where
  dir : Dir
  name : Path
deriving DecidableEq, Repr

namespace Stream

-- Copy a name with its end into d_name.
def put (stream : Stream) (name : Path) : Except NameFault (Option Path × Stream) :=
  if name.length < sizeofName then .ok (some name, ⟨{ stream.dir with namlen := name.length }, name⟩)
  else .error .overflow

-- The loop of readdir: the file behind the first one of a name.
def following (previous : Path) (foundPrevious : Bool) : List File → Option File
  | [] => none
  | file :: rest =>
      if foundPrevious then some file else following previous (fileName file = previous) rest

-- The d_name of the entry that is returned, if one is, and the stream after it.
def readdir (stream : Stream) : Except NameFault (Option Path × Stream) :=
  match stream.dir.files with
  | [] => .ok (none, stream)
  | front :: _ =>
      if stream.dir.namlen = 0 then
        if fileName front = [] then
          .ok (some "/".toList, ⟨{ stream.dir with namlen := 1 }, "/".toList⟩)
        else stream.put (fileName front)
      else
        let previous := if stream.name = "/".toList then [] else stream.name
        match following previous false stream.dir.files with
        | some file => stream.put (fileName file)
        | none => .ok (none, stream)

-- What a number of calls return, one after the other.
def readdirs (stream : Stream) : Nat → Except NameFault (List (Option Path) × Stream)
  | 0 => .ok ([], stream)
  | count + 1 => do
      let (replies, stream) ← stream.readdirs count
      let (reply, stream) ← stream.readdir
      return (replies ++ [reply], stream)

-- The name as it is returned: a slash stands for the empty one.
def entryName (name : Path) : Path := if name = [] then "/".toList else name

-- The calls return the names of the listing in its order, and then nothing.
def YieldsEachOnce (stream : Stream) : Prop :=
  ∀ count, ∃ after, stream.readdirs count =
    .ok ((List.range count).map fun i => (stream.dir.files.map fileName)[i]?.map entryName, after)

section Position

variable {files : List File} {stream : Stream} {i : Nat}

-- The stream has returned the entry at a position.
structure At (files : List File) (stream : Stream) (i : Nat) : Prop where
  files_eq : stream.dir.files = files
  name : ∃ file, files[i]? = some file ∧ stream.name = entryName (fileName file)
  namlen : stream.dir.namlen ≠ 0

-- The search goes on behind the first file of the name.
theorem following_eq (previous : Path) (files : List File) :
    following previous false files = files[(files.map fileName).idxOf previous + 1]? := by
  induction files with
  | nil => rfl
  | cons file rest ih =>
      by_cases hfound : fileName file = previous
      · rw [List.map_cons, List.idxOf_cons_eq _ hfound]
        cases rest with
        | nil => simp [following]
        | cons next rest => simp [following, hfound]
      · rw [List.map_cons, List.idxOf_cons_ne _ hfound]
        simpa [following, hfound] using ih

-- No name of a listing is a slash, so the empty name is told apart.
theorem previous_entryName {name : Path} (h : '/' ∉ name) :
    (if entryName name = "/".toList then [] else entryName name) = name := by
  unfold entryName
  by_cases hempty : name = []
  · simp [hempty]
  · have hne : name ≠ "/".toList := by
      rintro rfl
      exact h (by simp)
    simp only [hempty, hne, if_false]

theorem readdir_at (hat : At files stream i) (hslash : ∀ file ∈ files, '/' ∉ fileName file)
    {file : File} (hf : files[i]? = some file) :
    stream.readdir = match files[(files.map fileName).idxOf (fileName file) + 1]? with
      | some next => stream.put (fileName next)
      | none => .ok (none, stream) := by
  obtain ⟨other, ho, hname⟩ := hat.name
  obtain rfl := Option.some.inj (hf.symm.trans ho)
  have hprevious := previous_entryName (hslash file (List.mem_of_getElem? hf))
  rw [← following_eq, readdir, hat.files_eq]
  cases files with
  | nil => cases hf
  | cons front rest => simp only [hat.namlen, if_false, hname, hprevious]

theorem put_of_short {name : Path} (h : name.length < sizeofName) :
    stream.put name = .ok (some name, ⟨{ stream.dir with namlen := name.length }, name⟩) :=
  if_pos h

theorem at_put {file : File} (hfiles : stream.dir.files = files) (hf : files[i]? = some file)
    (hne : fileName file ≠ []) :
    At files ⟨{ stream.dir with namlen := (fileName file).length }, fileName file⟩ i :=
  ⟨hfiles, ⟨file, hf, (if_neg hne).symm⟩, by simpa using hne⟩

-- The first call returns the first entry.
theorem readdir_first {front : File} {rest : List File} (hnew : stream.dir.namlen = 0)
    (hfiles : stream.dir.files = front :: rest) (hshort : (fileName front).length < sizeofName) :
    ∃ after, stream.readdir = .ok (some (entryName (fileName front)), after) ∧
      At (front :: rest) after 0 := by
  rw [readdir, hfiles]
  simp only [hnew, if_true]
  by_cases hempty : fileName front = []
  · rw [if_pos hempty]
    refine ⟨_, by rw [entryName, if_pos hempty], ?_⟩
    exact ⟨hfiles, ⟨front, rfl, by rw [entryName, if_pos hempty]⟩, Nat.one_ne_zero⟩
  · rw [if_neg hempty, put_of_short hshort]
    refine ⟨_, by rw [entryName, if_neg hempty], ?_⟩
    exact at_put hfiles rfl hempty

end Position

section Distinct

variable {files : List File} {stream : Stream}

-- Different names, and only the first one may be empty.
structure Distinct (files : List File) : Prop where
  nodup : (files.map fileName).Nodup
  nonempty : ∀ i file, files[i + 1]? = some file → fileName file ≠ []

def replies (files : List File) (count : Nat) : List (Option Path) :=
  (List.range count).map fun i => (files.map fileName)[i]?.map entryName

theorem replies_succ (files : List File) (count : Nat) :
    replies files (count + 1) =
      replies files count ++ [files[count]?.map fun file => entryName (fileName file)] := by
  rw [replies, List.range_succ, List.map_append, List.map_singleton, List.getElem?_map,
    Option.map_map]
  rfl

theorem readdirs_succ {count : Nat} {found : List (Option Path)} {reply : Option Path}
    {before after : Stream} (hcount : stream.readdirs count = .ok (found, before))
    (hnext : before.readdir = .ok (reply, after)) :
    stream.readdirs (count + 1) = .ok (found ++ [reply], after) := by
  rw [readdirs, hcount]
  simp only [bind, Except.bind, hnext]
  rfl

-- Between distinct names every search finds the entry that came last.
theorem readdir_distinct (hd : Distinct files) (hshort : ∀ file ∈ files,
    (fileName file).length < sizeofName) (hslash : ∀ file ∈ files, '/' ∉ fileName file)
    {i : Nat} (hat : At files stream i) :
    ∃ after, stream.readdir =
        .ok (files[i + 1]?.map fun file => entryName (fileName file), after) ∧
      At files after (min (i + 1) (files.length - 1)) := by
  obtain ⟨file, hf, -⟩ := hat.name
  obtain ⟨hi, hget⟩ := List.getElem?_eq_some_iff.mp hf
  have hindex : (files.map fileName).idxOf (fileName file) = i := by
    have hlt : i < (files.map fileName).length := by simpa using hi
    have hname : (files.map fileName)[i] = fileName file := by simp [hget]
    rw [← hname]
    exact hd.nodup.idxOf_getElem i hlt
  rw [readdir_at hat hslash hf, hindex]
  cases hnext : files[i + 1]? with
  | none =>
      have hlast : min (i + 1) (files.length - 1) = i := by
        have := List.getElem?_eq_none_iff.mp hnext
        omega
      rw [hlast]
      exact ⟨stream, rfl, hat⟩
  | some next =>
      have hne := hd.nonempty i next hnext
      have hlast : min (i + 1) (files.length - 1) = i + 1 := by
        have := (List.getElem?_eq_some_iff.mp hnext).1
        omega
      rw [hlast]
      refine ⟨_, ?_, at_put hat.files_eq hnext hne⟩
      rw [Option.map_some, entryName, if_neg hne]
      exact put_of_short (hshort next (List.mem_of_getElem? hnext))

theorem readdirs_distinct (hnew : stream.dir.namlen = 0) (hfiles : stream.dir.files = files)
    (hd : Distinct files) (hshort : ∀ file ∈ files, (fileName file).length < sizeofName)
    (hslash : ∀ file ∈ files, '/' ∉ fileName file) (count : Nat) :
    ∃ after, stream.readdirs count = .ok (replies files count, after) ∧
      (count = 0 ∨ files = [] → after = stream) ∧
        (0 < count → files ≠ [] → At files after (min (count - 1) (files.length - 1))) := by
  induction count with
  | zero => exact ⟨stream, rfl, fun _ => rfl, by simp⟩
  | succ count ih =>
      obtain ⟨before, hreplies, hsame, hbefore⟩ := ih
      rw [replies_succ]
      cases files with
      | nil =>
          obtain rfl := hsame (Or.inr rfl)
          have hnone : before.readdir = .ok (none, before) := by rw [readdir, hfiles]
          exact ⟨before, readdirs_succ hreplies hnone, fun _ => rfl, fun _ h => absurd rfl h⟩
      | cons front rest =>
          rcases Nat.eq_zero_or_pos count with rfl | hpos
          · obtain rfl := hsame (Or.inl rfl)
            obtain ⟨after, hfirst, hat⟩ := readdir_first hnew hfiles (hshort front (by simp))
            refine ⟨after, readdirs_succ hreplies hfirst, by simp, fun _ _ => ?_⟩
            simpa using hat
          · have hat := hbefore hpos (by simp)
            obtain ⟨after, hnext, hafter⟩ := readdir_distinct hd hshort hslash hat
            have hreply : (front :: rest)[min (count - 1) ((front :: rest).length - 1) + 1]? =
                (front :: rest)[count]? := by
              by_cases hlt : count < (front :: rest).length
              · congr 1
                omega
              · rw [List.getElem?_eq_none (by omega), List.getElem?_eq_none (by omega)]
            rw [hreply] at hnext
            refine ⟨after, readdirs_succ hreplies hnext, by simp, fun _ _ => ?_⟩
            have hposition : min (count + 1 - 1) ((front :: rest).length - 1) =
                min (min (count - 1) ((front :: rest).length - 1) + 1)
                  ((front :: rest).length - 1) := by omega
            rw [hposition]
            exact hafter

-- Each reply of such a stream is the next name.
theorem readdir_of_yields (hy : stream.YieldsEachOnce) {count : Nat} {found : List (Option Path)}
    {before : Stream} (hcount : stream.readdirs count = .ok (found, before)) :
    ∃ after, before.readdir =
        .ok (stream.dir.files[count]?.map fun file => entryName (fileName file), after) ∧
      stream.readdirs (count + 1) = .ok (replies stream.dir.files (count + 1), after) := by
  obtain ⟨after, hafter⟩ := hy (count + 1)
  obtain ⟨middle, hmiddle⟩ := hy count
  obtain ⟨rfl, rfl⟩ := Prod.mk.inj (Except.ok.inj (hcount.symm.trans hmiddle))
  have hstep := hafter
  rw [readdirs, hcount] at hstep
  simp only [bind, Except.bind] at hstep
  cases hnext : before.readdir with
  | error fault => simp [hnext] at hstep
  | ok outcome =>
      obtain ⟨reply, next⟩ := outcome
      simp only [hnext, pure, Except.pure, Except.ok.injEq, Prod.mk.injEq] at hstep
      obtain ⟨hreplies, rfl⟩ := hstep
      have hexpected := replies_succ stream.dir.files count
      have hlast := List.append_inj_right' (hreplies.trans hexpected) rfl
      rw [List.singleton_inj.mp hlast]
      exact ⟨next, rfl, hafter⟩

-- After an entry the next one has been returned: it is found by the name.
theorem next_of_yields (hfiles : stream.dir.files = files)
    (hshort : ∀ file ∈ files, (fileName file).length < sizeofName)
    (hslash : ∀ file ∈ files, '/' ∉ fileName file) (hy : stream.YieldsEachOnce) {i : Nat}
    {file : File} (hf : files[i]? = some file) {before : Stream} (hat : At files before i)
    (hbefore : stream.readdirs (i + 1) = .ok (replies files (i + 1), before)) :
    files[(files.map fileName).idxOf (fileName file) + 1]?.map fileName =
        files[i + 1]?.map fileName ∧
      ∀ next, files[i + 1]? = some next → fileName next ≠ [] ∧ ∃ after,
        stream.readdirs (i + 2) = .ok (replies files (i + 2), after) ∧ At files after (i + 1) := by
  subst hfiles
  obtain ⟨after, hnext, hreplies⟩ := readdir_of_yields hy hbefore
  rw [readdir_at hat hslash hf] at hnext
  cases hfound : stream.dir.files[(stream.dir.files.map fileName).idxOf (fileName file) + 1]? with
  | none =>
      rw [hfound] at hnext
      have hnone := (Prod.mk.inj (Except.ok.inj hnext)).1
      cases hmine : stream.dir.files[i + 1]? with
      | none => exact ⟨rfl, fun next h => nomatch h⟩
      | some next => simp [hmine] at hnone
  | some other =>
      have hother := List.mem_of_getElem? hfound
      simp only [hfound, put_of_short (hshort other hother), Except.ok.injEq, Prod.mk.injEq] at hnext
      obtain ⟨hname, rfl⟩ := hnext
      cases hmine : stream.dir.files[i + 1]? with
      | none => simp [hmine] at hname
      | some next =>
          rw [hmine, Option.map_some, Option.some.injEq] at hname
          -- no name is the slash that stands for the empty one
          have hne : fileName next ≠ [] := by
            intro hempty
            rw [entryName, if_pos hempty] at hname
            exact hslash other hother (by simp [hname])
          have hsame : fileName other = fileName next := by rwa [entryName, if_neg hne] at hname
          refine ⟨congrArg some hsame, fun again hagain => ?_⟩
          obtain rfl := Option.some.inj hagain
          refine ⟨hne, _, hreplies, hat.files_eq, ⟨next, hmine, hname⟩, ?_⟩
          simpa [hsame] using hne

theorem at_of_yields (hnew : stream.dir.namlen = 0) (hfiles : stream.dir.files = files)
    (hshort : ∀ file ∈ files, (fileName file).length < sizeofName)
    (hslash : ∀ file ∈ files, '/' ∉ fileName file) (hy : stream.YieldsEachOnce) {i : Nat}
    (hi : i < files.length) :
    ∃ before, stream.readdirs (i + 1) = .ok (replies files (i + 1), before) ∧
      At files before i := by
  induction i with
  | zero =>
      obtain ⟨after, hnext, hreplies⟩ := readdir_of_yields hy (show stream.readdirs 0 = _ from rfl)
      cases files with
      | nil => simp at hi
      | cons front rest =>
          obtain ⟨first, hfirst, hat⟩ := readdir_first hnew hfiles (hshort front (by simp))
          obtain ⟨-, rfl⟩ := Prod.mk.inj (Except.ok.inj (hfirst.symm.trans hnext))
          exact ⟨first, hfiles ▸ hreplies, hat⟩
  | succ i ih =>
      obtain ⟨before, hbefore, hat⟩ := ih (by omega)
      obtain ⟨file, hf, -⟩ := hat.name
      obtain ⟨-, hnext⟩ := next_of_yields hfiles hshort hslash hy hf hat hbefore
      exact (hnext _ (List.getElem?_eq_getElem hi)).2

theorem idxOf_fileName_le {i : Nat} {file : File} (hf : files[i]? = some file) :
    (files.map fileName).idxOf (fileName file) ≤ i := by
  apply idxOf_le_of_getElem?
  rw [List.getElem?_map, hf]
  rfl

-- The search for the last name finds the last entry; one that stopped short of
-- an entry would stop short of the next one as well.
theorem idxOf_of_yields (hnew : stream.dir.namlen = 0) (hfiles : stream.dir.files = files)
    (hshort : ∀ file ∈ files, (fileName file).length < sizeofName)
    (hslash : ∀ file ∈ files, '/' ∉ fileName file) (hy : stream.YieldsEachOnce) {left i : Nat}
    (hi : i + left + 1 = files.length) {file : File} (hf : files[i]? = some file) :
    (files.map fileName).idxOf (fileName file) = i := by
  induction left generalizing i file with
  | zero =>
      have hle := idxOf_fileName_le hf
      obtain ⟨before, hbefore, hat⟩ := at_of_yields hnew hfiles hshort hslash hy
        (show i < files.length by omega)
      obtain ⟨hname, -⟩ := next_of_yields hfiles hshort hslash hy hf hat hbefore
      rw [List.getElem?_eq_none (show files.length ≤ i + 1 by omega), Option.map_none,
        Option.map_eq_none_iff, List.getElem?_eq_none_iff] at hname
      omega
  | succ left ih =>
      have hle := idxOf_fileName_le hf
      have hnext := List.getElem?_eq_getElem (show i + 1 < files.length by omega)
      obtain ⟨before, hbefore, hat⟩ := at_of_yields hnew hfiles hshort hslash hy
        (show i < files.length by omega)
      obtain ⟨hname, -⟩ := next_of_yields hfiles hshort hslash hy hf hat hbefore
      rw [hnext, ← List.getElem?_map] at hname
      have hbehind := idxOf_le_of_getElem? hname
      rw [ih (by omega) hnext] at hbehind
      omega

theorem distinct_of_yields (hnew : stream.dir.namlen = 0) (hfiles : stream.dir.files = files)
    (hshort : ∀ file ∈ files, (fileName file).length < sizeofName)
    (hslash : ∀ file ∈ files, '/' ∉ fileName file) (hy : stream.YieldsEachOnce) :
    Distinct files := by
  have hindex : ∀ (i : Nat) file, files[i]? = some file →
      (files.map fileName).idxOf (fileName file) = i := by
    intro i file hf
    have hlt := (List.getElem?_eq_some_iff.mp hf).1
    exact idxOf_of_yields hnew hfiles hshort hslash hy
      (show i + (files.length - i - 1) + 1 = files.length by omega) hf
  constructor
  · rw [List.nodup_iff_getElem?_ne_getElem?]
    intro i j hij hj hsame
    rw [List.length_map] at hj
    have hsecond := List.getElem?_eq_getElem hj
    have hfirst := List.getElem?_eq_getElem (show i < files.length by omega)
    rw [List.getElem?_map, List.getElem?_map, hfirst, hsecond, Option.map_some, Option.map_some,
      Option.some.injEq] at hsame
    have hi := hindex i _ hfirst
    rw [hsame, hindex j _ hsecond] at hi
    omega
  · intro i file hf
    have hlt := (List.getElem?_eq_some_iff.mp hf).1
    obtain ⟨before, hbefore, hat⟩ := at_of_yields hnew hfiles hshort hslash hy
      (show i < files.length by omega)
    obtain ⟨-, hnext⟩ := next_of_yields hfiles hshort hslash hy
      (List.getElem?_eq_getElem (show i < files.length by omega)) hat hbefore
    exact (hnext file hf).1

theorem yieldsEachOnce_iff (hnew : stream.dir.namlen = 0)
    (hshort : ∀ file ∈ stream.dir.files, (fileName file).length < sizeofName)
    (hslash : ∀ file ∈ stream.dir.files, '/' ∉ fileName file) :
    stream.YieldsEachOnce ↔ Distinct stream.dir.files := by
  constructor
  · exact fun hy => distinct_of_yields hnew rfl hshort hslash hy
  · intro hd count
    obtain ⟨after, hreplies, -⟩ := readdirs_distinct hnew rfl hd hshort hslash count
    exact ⟨after, hreplies⟩

end Distinct

end Stream

section Opendir

variable {library : PathLibrary} {mounts : List (MountPoint Mounted)} {systems : FileSystems}
  {dirname : Path} {dir : Dir} {mp : MountPoint Mounted}

-- What a reader of a directory gets: its names in the order of the listing,
-- each of them once, and then the end, so that the loop over readdir stops.
structure YieldsListing (listing : List File) (stream : Stream) : Prop where
  files_eq : stream.dir.files = listing
  eachOnce : stream.YieldsEachOnce
  stops : ∃ count replies before after, stream.readdirs count = .ok (replies, before) ∧
    none ∉ replies ∧ before.readdir = .ok (none, after)

-- The stream of a reader that gets the names of the listing gets to its end.
theorem stops_of_yields {stream : Stream} (hy : stream.YieldsEachOnce) :
    ∃ count replies before after, stream.readdirs count = .ok (replies, before) ∧
      none ∉ replies ∧ before.readdir = .ok (none, after) := by
  obtain ⟨before, hbefore⟩ := hy stream.dir.files.length
  obtain ⟨after, hnext, -⟩ := Stream.readdir_of_yields hy hbefore
  rw [List.getElem?_eq_none (Nat.le_refl _)] at hnext
  refine ⟨_, _, before, after, hbefore, fun hmem => ?_, hnext⟩
  obtain ⟨i, hi, hnone⟩ := List.mem_map.mp hmem
  rw [Option.map_eq_none_iff, List.getElem?_eq_none_iff, List.length_map] at hnone
  have := List.mem_range.mp hi
  omega

theorem list_ramfs (hbest : getBestMountPoint mounts (library.lexicallyNormal dirname) = some mp)
    (hramfs : mp.filesystem = .ramfs)
    (hopen : (opendir library mounts dirname systems).1 = some dir) :
    dir = ⟨(systems.ramfs.list (library.lexicallyRelative (library.lexicallyNormal dirname)
      mp.point)).map .ramfsFile, 0⟩ := by
  have hfound : (opendir library mounts dirname systems).1.isSome := by rw [hopen]; rfl
  obtain ⟨file, hfile⟩ := isSome_opendir.mp hfound
  simp only [opendir, bind_apply, get_eq, hfile, Vfs.list, Vfs.forward,
    getBestMountPoint_fileSystems, hbest, Option.map_some, Mounted.fileSystem, hramfs,
    pure_apply, Option.some.injEq] at hopen
  exact hopen.symm

end Opendir

section Names

open RamFs

variable {fs : RamFs} {directory : Path}

-- No two entries of the directory have the same path.
def SinglePaths (fs : RamFs) (directory : Path) : Prop :=
  ∀ (first second : Nat) (filename name : Path), InDirectory directory filename name →
    fs.filenames[first]? = some filename → fs.filenames[second]? = some filename → first = second

-- A name of the directory belongs to one path.
theorem inDirectory_inj {first second name : Path} (hf : InDirectory directory first name)
    (hs : InDirectory directory second name) : first = second := by
  obtain ⟨-, hf⟩ := hf
  obtain ⟨-, hs⟩ := hs
  split at hf
  · rename_i hroot
    rw [if_pos hroot] at hs
    exact hf.trans hs.symm
  · rename_i hroot
    rw [if_neg hroot] at hs
    exact hf.trans hs.symm

theorem nodup_iff_singlePaths :
    ((fs.list directory).map RamfsFile.name).Nodup ↔ SinglePaths fs directory := by
  have hl := @list_lists fs directory
  constructor
  · intro hnodup first second filename name hin hf hs
    have hfirst : ⟨first, 0, name⟩ ∈ fs.list directory :=
      (hl.mem_iff _).mpr ⟨rfl, filename, hf, hin⟩
    have hsecond : ⟨second, 0, name⟩ ∈ fs.list directory :=
      (hl.mem_iff _).mpr ⟨rfl, filename, hs, hin⟩
    have hsame := List.inj_on_of_nodup_map hnodup hfirst hsecond rfl
    exact congrArg RamfsFile.data hsame
  · intro hsingle
    refine List.Nodup.map_on (fun first hfirst second hsecond hname => ?_) hl.once.of_map
    obtain ⟨hpf, filename, hf, hinf⟩ := (hl.mem_iff first).mp hfirst
    obtain ⟨hps, other, hs, hins⟩ := (hl.mem_iff second).mp hsecond
    obtain rfl := inDirectory_inj hinf (hname ▸ hins)
    have hdata := hsingle _ _ _ _ hinf hf hs
    cases first
    cases second
    simp_all

-- The empty name sorts before all others.
theorem distinct_iff_singlePaths :
    Stream.Distinct ((fs.list directory).map .ramfsFile) ↔ SinglePaths fs directory := by
  have hl := @list_lists fs directory
  have hnames : ((fs.list directory).map File.ramfsFile).map fileName =
      (fs.list directory).map RamfsFile.name := by
    rw [List.map_map]
    rfl
  rw [← nodup_iff_singlePaths]
  constructor
  · intro hd
    exact hnames ▸ hd.nodup
  · intro hnodup
    refine ⟨hnames ▸ hnodup, fun i file hf hempty => ?_⟩
    rw [List.getElem?_map, Option.map_eq_some_iff] at hf
    obtain ⟨last, hlast, rfl⟩ := hf
    have hi := (List.getElem?_eq_some_iff.mp hlast).1
    have hfirst := List.getElem?_eq_getElem (show i < (fs.list directory).length by omega)
    have hsorted := hl.sorted
    rw [List.pairwise_iff_getElem] at hsorted
    have horder := hsorted i (i + 1) (by omega) hi (by omega)
    rw [(List.getElem?_eq_some_iff.mp hlast).2] at horder
    have hname : last.name = [] := hempty
    rw [hname] at horder
    rcases horder with hlt | ⟨hsame, -⟩
    · exact absurd hlt (List.not_lt_nil _)
    · have hne := (List.nodup_iff_getElem?_ne_getElem?.mp hnodup) i (i + 1) (by omega)
        (by simpa using hi)
      rw [List.getElem?_map, List.getElem?_map, hfirst, hlast, Option.map_some, Option.map_some,
        hsame, hname] at hne
      exact hne rfl

theorem notMem_of_list {file : RamfsFile} (h : file ∈ fs.list directory) : '/' ∉ file.name := by
  obtain ⟨_, filename, _, hin⟩ := (list_lists.mem_iff file).mp h
  exact hin.1

end Names

section Streams

open RamFs

variable {library : PathLibrary} {mounts : List (MountPoint Mounted)} {systems : FileSystems}
  {dirname : Path} {dir : Dir} {mp : MountPoint Mounted}

-- A stream of a directory yields its listing exactly when no path is there
-- twice; what d_name holds at the start does not matter.
theorem yieldsListing_iff
    (hbest : getBestMountPoint mounts (library.lexicallyNormal dirname) = some mp)
    (hramfs : mp.filesystem = .ramfs)
    (hopen : (opendir library mounts dirname systems).1 = some dir)
    (hshort : ∀ file ∈ systems.ramfs.list
      (library.lexicallyRelative (library.lexicallyNormal dirname) mp.point),
        file.name.length < sizeofName) (name : Path) :
    YieldsListing ((systems.ramfs.list
        (library.lexicallyRelative (library.lexicallyNormal dirname) mp.point)).map .ramfsFile)
        ⟨dir, name⟩ ↔
      SinglePaths systems.ramfs
        (library.lexicallyRelative (library.lexicallyNormal dirname) mp.point) := by
  have hdir := list_ramfs hbest hramfs hopen
  subst hdir
  have hyields := @Stream.yieldsEachOnce_iff ⟨⟨(systems.ramfs.list (library.lexicallyRelative
    (library.lexicallyNormal dirname) mp.point)).map .ramfsFile, 0⟩, name⟩ rfl
    (by simpa [fileName] using hshort)
    (by simpa [fileName] using fun file hfile => notMem_of_list hfile)
  rw [← distinct_iff_singlePaths, ← hyields]
  exact ⟨fun h => h.eachOnce, fun h => ⟨rfl, h, stops_of_yields h⟩⟩

-- A log beside the configuration of the shell
def oneLog : FileSystems := (kernelSystems.create "config/log".toList 0x201).1

theorem yieldsListing_iff_log :
    YieldsListing ((oneLog.ramfs.list "config".toList).map .ramfsFile)
        ⟨⟨[.ramfsFile ⟨3, 0, "log".toList⟩, .ramfsFile ⟨2, 0, "shell.cfg".toList⟩], 0⟩, "x".toList⟩ ↔
      SinglePaths oneLog.ramfs "config".toList :=
  @yieldsListing_iff plainPaths kernelMounts oneLog "/config".toList _
    ⟨"/".toList, .ramfs⟩ (by rfl) rfl (by rfl) (by decide) "x".toList

-- Two opens with O_CREAT have made the log.
def twoLogs : FileSystems := (oneLog.create "config/log".toList 0x201).1

def logsDir (namlen : Nat) : Dir :=
  ⟨[.ramfsFile ⟨3, 0, "log".toList⟩, .ramfsFile ⟨4, 0, "log".toList⟩,
    .ramfsFile ⟨2, 0, "shell.cfg".toList⟩], namlen⟩

-- The first log is found every time, so that readdir stays at the second one.
theorem readdirs_logs (count : Nat) : ∃ after,
    Stream.readdirs ⟨logsDir 0, []⟩ count =
      .ok (List.replicate count (some "log".toList), after) ∧
    (after = ⟨logsDir 0, []⟩ ∨ after = ⟨logsDir 3, "log".toList⟩) := by
  induction count with
  | zero => exact ⟨_, rfl, Or.inl rfl⟩
  | succ count ih =>
      obtain ⟨before, hbefore, hstream⟩ := ih
      have hnext : before.readdir = .ok (some "log".toList, ⟨logsDir 3, "log".toList⟩) := by
        rcases hstream with rfl | rfl <;> rfl
      rw [List.replicate_succ']
      exact ⟨_, Stream.readdirs_succ hbefore hnext, Or.inr rfl⟩

theorem readdir_repeats_log :
    (opendir plainPaths kernelMounts "/config".toList twoLogs).1 = some (logsDir 0) ∧
      (∀ count, ∃ after, Stream.readdirs ⟨logsDir 0, []⟩ count =
        .ok (List.replicate count (some "log".toList), after)) ∧
      ¬YieldsListing ((twoLogs.ramfs.list "config".toList).map .ramfsFile) ⟨logsDir 0, []⟩ := by
  refine ⟨by rfl, fun count => ?_, fun h => ?_⟩
  · obtain ⟨after, hafter, -⟩ := readdirs_logs count
    exact ⟨after, hafter⟩
  · obtain ⟨count, replies, before, after, hcount, hreplies, hnext⟩ := h.stops
    obtain ⟨same, hsame, -⟩ := readdirs_logs (count + 1)
    have hend := Stream.readdirs_succ hcount hnext
    rw [hsame, List.replicate_succ'] at hend
    have hlast := List.append_inj_right' (Prod.mk.inj (Except.ok.inj hend)).1 rfl
    simp at hlast

end Streams

end Msos.Posix
