import Msos.Library.CString
import Msos.Posix.Directories.Theorems

namespace Msos.Posix.WorkingDirectory

open Msos.Fs Msos.Library CString

def nul : Char := Char.ofNat 0

section Definitions

-- memcpy to the front of a piece of memory
def memcpy (memory text : List Char) : List Char := text ++ memory.drop text.length

-- Process::set_cwd; the memory is cwd_, of PATH_MAX characters, and what is behind it.
def setCwd (memory : List Char) (path : Path) : List Char × Bool :=
  if pathMax < path.length then (memory, false)
  else ((memcpy memory path).set path.length nul, true)

-- Process::get_cwd
def getCwd (memory : List Char) : List Char := string nul memory

-- The memory from buf on after the call
def getcwd (memory buf : List Char) (size : BitVec 32) : List Char :=
  let cwd := getCwd memory
  let sizeToCopy := if cwd.length < (size - 1).toNat then cwd.length else (size - 1).toNat
  (memcpy buf (cwd.take sizeToCopy)).set sizeToCopy nul

def chdir (library : PathLibrary) (mounts : List (MountPoint Mounted)) (memory : List Char)
    (path : Path) : Operation (List Char × Int) := do
  let path := library.lexicallyNormal path
  match ← Vfs.get library.lexicallyRelative (fileSystems library mounts) path 0 with
  | none => return (memory, -1)
  | some file =>
      let systems ← get
      if systems.stat file &&& sIfdir ≠ 0 then
        let (memory, isSet) := setCwd memory path
        return (memory, if isSet then 0 else -1)
      else
        return (memory, -1)

-- There is memory behind the array, and the buffer has the given size.
structure Pieces (memory buf : List Char) (size : BitVec 32) : Prop where
  behind : pathMax < memory.length
  room : pathMax < buf.length
  sized : size.toNat ≤ buf.length

-- The path is stored inside the array, and comes back cut to the size.
structure RoundTrips (path : Path) (size : BitVec 32) : Prop where
  inside : ∀ memory, pathMax < memory.length →
    (setCwd memory path).1.drop pathMax = memory.drop pathMax
  read : ∀ memory buf, Pieces memory buf size → (setCwd memory path).2 = true → size ≠ 0 →
    let length := min (size.toNat - 1) path.length
    getcwd (setCwd memory path).1 buf size = path.take length ++ nul :: buf.drop (length + 1)
  nothing : ∀ memory buf, Pieces memory buf size → size = 0 →
    getcwd (setCwd memory path).1 buf size = buf
  rejected : ∀ memory, (setCwd memory path).2 = false → (setCwd memory path).1 = memory
  chdir : ∀ library mounts systems memory name, library.lexicallyNormal name = path →
    ((chdir library mounts memory name systems).1.2 = 0 ↔
      IsDirectory library mounts systems name ∧ (setCwd memory path).2 = true)

end Definitions

section Storing

variable {memory buf : List Char} {path : Path} {size : BitVec 32}

theorem setCwd_rejected (h : pathMax < path.length) : setCwd memory path = (memory, false) :=
  if_pos h

theorem accepted_iff : (setCwd memory path).2 = true ↔ path.length ≤ pathMax := by
  unfold setCwd
  split <;> simp <;> omega

-- A text and its end at the front of a piece of memory
theorem memcpy_set {text : List Char} (h : text.length < memory.length) :
    (memcpy memory text).set text.length nul = text ++ nul :: memory.drop (text.length + 1) := by
  rw [memcpy, List.set_append_right _ _ (le_refl _), Nat.sub_self, ← List.drop_drop]
  cases hdrop : memory.drop text.length with
  | nil => exact absurd (List.drop_eq_nil_iff.mp hdrop) (by omega)
  | cons head rest => rfl

theorem setCwd_accepted (h : path.length ≤ pathMax) (hm : pathMax < memory.length) :
    setCwd memory path = (path ++ nul :: memory.drop (path.length + 1), true) := by
  rw [setCwd, if_neg (by omega), memcpy_set (by omega)]

theorem getCwd_setCwd (h : path.length ≤ pathMax) (hm : pathMax < memory.length) :
    getCwd (setCwd memory path).1 = string nul path := by
  rw [setCwd_accepted h hm]
  exact string_end _ _

-- The array holds what the directory calls keep of the working directory.
theorem getCwd_setCwd_eq (h : path.length ≤ pathMax) (hnul : nul ∉ path)
    (hm : pathMax < memory.length) (cwd : Path) :
    getCwd (setCwd memory path).1 = (Posix.setCwd cwd path).1 := by
  rw [getCwd_setCwd h hm, string_of_notMem hnul, Posix.setCwd, if_neg (by omega)]

-- One less than the size is copied at most, and a size of zero wraps round.
theorem getcwd_eq (hcwd : (getCwd memory).length ≤ pathMax) (hroom : pathMax < buf.length)
    (hsized : size.toNat ≤ buf.length) :
    getcwd memory buf size =
      let length := if size = 0 then (getCwd memory).length
        else min (size.toNat - 1) (getCwd memory).length
      (getCwd memory).take length ++ nul :: buf.drop (length + 1) := by
  simp only [pathMax] at hcwd hroom
  have hlength : (if (getCwd memory).length < (size - 1).toNat then (getCwd memory).length
      else (size - 1).toNat) = if size = 0 then (getCwd memory).length
        else min (size.toNat - 1) (getCwd memory).length := by
    by_cases hzero : size = 0
    · subst hzero
      have hwrapped : ((0 : BitVec 32) - 1).toNat = 2 ^ 32 - 1 := rfl
      rw [if_pos rfl, hwrapped, if_pos (by omega)]
    · have hone : (size - 1).toNat = size.toNat - 1 := by
        have hne : size.toNat ≠ 0 := fun h => hzero (BitVec.eq_of_toNat_eq h)
        have hlt := size.isLt
        have hunit : (1 : BitVec 32).toNat = 1 := rfl
        rw [BitVec.toNat_sub, hunit]
        omega
      rw [if_neg hzero, hone]
      split <;> omega
  have hle : (if size = 0 then (getCwd memory).length
      else min (size.toNat - 1) (getCwd memory).length) ≤ (getCwd memory).length := by
    split
    · exact le_refl _
    · exact Nat.min_le_right _ _
  have htake : ((getCwd memory).take (if size = 0 then (getCwd memory).length
      else min (size.toNat - 1) (getCwd memory).length)).length =
        if size = 0 then (getCwd memory).length
          else min (size.toNat - 1) (getCwd memory).length := by
    rw [List.length_take, Nat.min_eq_left hle]
  have hset := @memcpy_set buf _ (htake.trans_lt (by omega))
  rw [htake] at hset
  simp only [getcwd, hlength, hset]

end Storing

section RoundTrip

variable {memory buf : List Char} {path : Path} {size : BitVec 32}

theorem chdir_eq_zero_iff (library : PathLibrary) (mounts : List (MountPoint Mounted))
    (systems : FileSystems) (memory : List Char) (name : Path) :
    (chdir library mounts memory name systems).1.2 = 0 ↔
      IsDirectory library mounts systems name ∧
        (setCwd memory (library.lexicallyNormal name)).2 = true := by
  simp only [chdir, bind_apply, get_eq, IsDirectory]
  cases lookup library mounts systems (library.lexicallyNormal name) 0 with
  | none => simp [pure_apply]
  | some file =>
      by_cases hd : systems.stat file &&& sIfdir = 0#16
      · simp [bind_apply, get_apply, pure_apply, hd]
      · simp [bind_apply, get_apply, pure_apply, hd]

-- Every stored working directory is short enough for the buffer.
theorem length_getCwd (hm : memory = List.replicate (pathMax + 1) nul) :
    (getCwd (setCwd memory path).1).length ≤ pathMax := by
  subst hm
  by_cases h : path.length ≤ pathMax
  · rw [getCwd_setCwd h (by rw [List.length_replicate]; exact Nat.lt_succ_self _)]
    exact (length_string_le _).trans h
  · rw [setCwd_rejected (by omega)]
    exact Nat.zero_le _

theorem getcwd_zero (h : ∀ memory buf, Pieces memory buf 0 →
    getcwd (setCwd memory path).1 buf 0 = buf) : False := by
  have hpieces : Pieces (List.replicate (pathMax + 1) nul) (List.replicate (pathMax + 1) 'x') 0 :=
    ⟨by rw [List.length_replicate]; exact Nat.lt_succ_self _,
      by rw [List.length_replicate]; exact Nat.lt_succ_self _, Nat.zero_le _⟩
  have hwritten := h _ _ hpieces
  rw [getcwd_eq (length_getCwd rfl) hpieces.room hpieces.sized] at hwritten
  have hmem : nul ∈ List.replicate (pathMax + 1) 'x' := by
    rw [← hwritten]
    exact List.mem_append_right _ List.mem_cons_self
  exact absurd (List.eq_of_mem_replicate hmem) (by decide)

-- A path of the length of the array has its end behind it.
theorem not_inside (hlength : path.length = pathMax) : ¬∀ memory, pathMax < memory.length →
    (setCwd memory path).1.drop pathMax = memory.drop pathMax := by
  intro h
  have hm : pathMax < (List.replicate (pathMax + 1) 'x').length := by
    rw [List.length_replicate]
    exact Nat.lt_succ_self _
  have hinside := h _ hm
  rw [setCwd_accepted hlength.le hm, ← hlength, List.drop_left] at hinside
  simp only [List.drop_replicate] at hinside
  have hmem := List.eq_of_mem_replicate (hinside ▸ List.mem_cons_self)
  exact absurd hmem (by decide)

theorem getcwd_setCwd (h : path.length ≤ pathMax) (hpieces : Pieces memory buf size)
    (hsize : size ≠ 0) :
    getcwd (setCwd memory path).1 buf size =
      let cwd := string nul path
      let length := min (size.toNat - 1) cwd.length
      cwd.take length ++ nul :: buf.drop (length + 1) := by
  have hcwd := getCwd_setCwd h hpieces.behind
  have hle : (string nul path).length ≤ pathMax :=
    (length_string_le _).trans h
  rw [getcwd_eq (hcwd ▸ hle) hpieces.room hpieces.sized, hcwd, if_neg hsize]

-- What is copied of a path with a null character has one end less than expected.
theorem not_read (h : path.length ≤ pathMax) (hsize : size ≠ 0)
    (hnul : nul ∈ path.take (size.toNat - 1)) : ¬∀ memory buf, Pieces memory buf size →
      let length := min (size.toNat - 1) path.length
      getcwd (setCwd memory path).1 buf size = path.take length ++ nul :: buf.drop (length + 1) := by
  intro hread
  have hpieces : Pieces (List.replicate (pathMax + 1) 'x')
      (List.replicate (pathMax + 1 + size.toNat) 'x') size :=
    ⟨by rw [List.length_replicate]; omega, by rw [List.length_replicate]; omega,
      by rw [List.length_replicate]; omega⟩
  have hsame := hread _ _ hpieces
  have hone : ((string nul path).take (min (size.toNat - 1)
      (string nul path).length)).count nul = 0 := by
    refine List.count_eq_zero.mpr fun hm => ?_
    exact notMem_string _ (List.mem_of_mem_take hm)
  have htwo : 0 < (path.take (min (size.toNat - 1) path.length)).count nul := by
    rw [List.count_pos_iff, ← List.take_eq_take_min]
    exact hnul
  have hx : ('x' == nul) = false := by decide
  have hcount := congrArg (List.count nul) hsame
  rw [getcwd_setCwd h hpieces hsize] at hcount
  simp only [List.count_append, List.count_cons_self, List.drop_replicate, List.count_replicate,
    hx, Bool.false_eq_true, if_false, hone] at hcount
  omega

-- Without one up to the size it is what comes back, cut to the size.
theorem take_string {count : Nat} (h : nul ∉ path.take count) :
    min count (string nul path).length = min count path.length ∧
      (string nul path).take (min count path.length) = path.take (min count path.length) := by
  have hcwd : string nul path =
      path.take count ++ string nul (path.drop count) := by
    conv_lhs => rw [← List.take_append_drop count path]
    exact string_append h _
  have hlength := congrArg List.length hcwd
  have hle := @length_string_le _ _ nul path
  rw [List.length_append, List.length_take] at hlength
  refine ⟨by omega, ?_⟩
  rw [hcwd, ← List.length_take, List.take_left, List.length_take, ← List.take_eq_take_min]

theorem roundTrips_iff (path : Path) (size : BitVec 32) :
    RoundTrips path size ↔ size ≠ 0 ∧ (pathMax < path.length ∨
      path.length < pathMax ∧ nul ∉ path.take (size.toNat - 1)) := by
  constructor
  · intro h
    have hsize : size ≠ 0 := by
      rintro rfl
      exact getcwd_zero fun memory buf hpieces => h.nothing memory buf hpieces rfl
    refine ⟨hsize, ?_⟩
    rcases Nat.lt_trichotomy path.length pathMax with hlt | heq | hgt
    · refine Or.inr ⟨hlt, fun hnul => not_read hlt.le hsize hnul fun memory buf hpieces => ?_⟩
      exact h.read memory buf hpieces (accepted_iff.mpr hlt.le) hsize
    · exact absurd h.inside (not_inside heq)
    · exact Or.inl hgt
  · rintro ⟨hsize, hpath⟩
    have hne : path.length ≠ pathMax := by omega
    refine ⟨fun memory hm => ?_, fun memory buf hpieces haccepted _ => ?_,
      fun memory buf _ hzero => absurd hzero hsize, fun memory hrejected => ?_, ?_⟩
    · by_cases hle : path.length ≤ pathMax
      · have hdrop : (path ++ nul :: memory.drop (path.length + 1)).drop pathMax =
            memory.drop pathMax := by
          obtain ⟨behind, hbehind⟩ : ∃ behind, pathMax = path.length + (behind + 1) :=
            ⟨pathMax - path.length - 1, by omega⟩
          rw [hbehind, ← List.drop_drop, List.drop_left, List.drop_succ_cons, List.drop_drop]
          congr 1
          omega
        rw [setCwd_accepted hle hm, hdrop]
      · rw [setCwd_rejected (by omega)]
    · have hle := accepted_iff.mp haccepted
      have hnul := (hpath.resolve_left (by omega)).2
      obtain ⟨hmin, htake⟩ := take_string hnul
      rw [getcwd_setCwd hle hpieces hsize]
      simp only [hmin, htake]
    · by_cases hle : path.length ≤ pathMax
      · rw [accepted_iff.mpr hle] at hrejected
        cases hrejected
      · rw [setCwd_rejected (by omega)]
    · rintro library mounts systems memory name rfl
      exact chdir_eq_zero_iff library mounts systems memory name

-- A path of 255 characters ends behind cwd_, and a size of zero does not stop the copy.
theorem longest_not_roundTrips :
    (setCwd (List.replicate 256 'x') (List.replicate 255 'a')).1 =
        List.replicate 255 'a' ++ [nul] ∧
      ¬RoundTrips (List.replicate 255 'a') 1 ∧ ¬RoundTrips "/".toList 0 := by
  refine ⟨?_, fun h => not_inside List.length_replicate h.inside, fun h => ?_⟩
  · have hpath : (List.replicate 255 'a').length = 255 := List.length_replicate
    rw [setCwd_accepted hpath.le (by rw [List.length_replicate]; exact Nat.lt_succ_self _), hpath,
      List.drop_replicate]
    rfl
  · exact getcwd_zero fun memory buf hpieces => h.nothing memory buf hpieces rfl

end RoundTrip

end Msos.Posix.WorkingDirectory
