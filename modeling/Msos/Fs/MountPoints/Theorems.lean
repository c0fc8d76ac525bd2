import Mathlib.Data.List.Nodup
import Mathlib.Data.List.Perm.Basic
import Msos.Fs.MountPoints

namespace Msos.Fs

open Msos.Library.Search

-- A mount point contains a path when it is a prefix of it that ends at a
-- component boundary.
def Contains (point path : Path) : Prop :=
  point <+: path ∧ (point = "/".toList ∨ point = path ∨ path[point.length]? = some '/')

instance (point path : Path) : Decidable (Contains point path) :=
  inferInstanceAs (Decidable (_ ∧ _))

def Absolute (path : Path) : Prop := path.head? = some '/'

instance (path : Path) : Decidable (Absolute path) :=
  inferInstanceAs (Decidable (_ = _))

theorem Absolute.ne_nil {path : Path} (h : Absolute path) : path ≠ [] := by
  rintro rfl
  simp [Absolute] at h

theorem Contains.isInfix {point path : Path} (h : Contains point path) : point <:+: path :=
  h.1.isInfix

theorem Contains.eq_of_length {first second path : Path} (h : Contains first path)
    (h' : Contains second path) (hl : first.length = second.length) : first = second :=
  List.IsPrefix.eq_of_length (List.prefix_of_prefix_length_le h.1 h'.1 hl.le) hl

namespace MountPoints

variable {FileSystem : Type*}

-- The search looks at the points only.
theorem getBestMountPoint_map {Other : Type*} (f : FileSystem → Other)
    (points : List (MountPoint FileSystem)) (path : Path) :
    getBestMountPoint (points.map fun mp => ⟨mp.point, f mp.filesystem⟩) path =
      (getBestMountPoint points path).map fun mp => ⟨mp.point, f mp.filesystem⟩ := by
  have hbest : bestMountPoint (points.map fun mp => ⟨mp.point, f mp.filesystem⟩) path =
      bestMountPoint points path := by
    simp only [bestMountPoint, List.foldl_map]
    rfl
  rw [getBestMountPoint, hbest, List.find?_map]
  rfl

-- The purpose of the mount table: the longest point that contains the path,
-- or nothing when no point does.
def Resolves (points : List (MountPoint FileSystem)) (path : Path) :
    Option (MountPoint FileSystem) → Prop
  | none => ∀ mp ∈ points, ¬Contains mp.point path
  | some mp => mp ∈ points ∧ Contains mp.point path ∧
      ∀ other ∈ points, Contains other.point path → other.point.length ≤ mp.point.length

-- Every point that merely occurs in the path is shorter than a point that
-- contains it.
def Shadowed (points : List (MountPoint FileSystem)) (path : Path) : Prop :=
  ∀ mp ∈ points, mp.point <:+: path → ¬Contains mp.point path →
    ∃ other ∈ points, Contains other.point path ∧ mp.point.length < other.point.length

instance (points : List (MountPoint FileSystem)) (path : Path) :
    Decidable (Shadowed points path) :=
  inferInstanceAs (Decidable (∀ mp ∈ points, _))

theorem better_eq (path best : Path) (point : MountPoint FileSystem) :
    better path best point =
      if point.point <:+: path ∧ best.length < point.point.length then point.point else best := by
  have hf := find_isSome_iff point.point path
  unfold better
  cases h : find point.point path with
  | none => simp [h] at hf; simp [hf]
  | some index => simp [h] at hf; simp [hf]

theorem bestMountPoint_eq (points : List (MountPoint FileSystem)) (path : Path) :
    bestMountPoint points path =
      pickLongest List.length [] ((points.map MountPoint.point).filter (· <:+: path)) := by
  have hfold : ∀ best, points.foldl (better path) best =
      pickLongest List.length best ((points.map MountPoint.point).filter (· <:+: path)) := by
    induction points with
    | nil => intro best; rfl
    | cons point rest ih =>
        intro best
        rw [List.foldl_cons, ih, better_eq, List.map_cons, List.filter_cons]
        by_cases hi : point.point <:+: path
        · simp [hi, pickLongest]
        · simp [hi]
  exact hfold []

theorem bestMountPoint_nil_or_mem (points : List (MountPoint FileSystem)) (path : Path) :
    bestMountPoint points path = [] ∨
      ∃ mp ∈ points, mp.point <:+: path ∧ bestMountPoint points path = mp.point := by
  rw [bestMountPoint_eq]
  rcases pickLongest_eq_or_mem List.length [] _ with he | ⟨hm, _⟩
  · exact Or.inl he
  · obtain ⟨hm, hi⟩ := List.mem_filter.mp hm
    obtain ⟨mp, hmp, he⟩ := List.mem_map.mp hm
    exact Or.inr ⟨mp, hmp, he ▸ of_decide_eq_true hi, he.symm⟩

theorem length_le_bestMountPoint (points : List (MountPoint FileSystem)) (path : Path)
    (mp : MountPoint FileSystem) (hm : mp ∈ points) (hi : mp.point <:+: path) :
    mp.point.length ≤ (bestMountPoint points path).length := by
  rw [bestMountPoint_eq]
  apply (measure_le_pickLongest List.length [] _).2
  exact List.mem_filter.mpr ⟨List.mem_map_of_mem hm, decide_eq_true hi⟩

theorem bestMountPoint_cons (mp : MountPoint FileSystem) (rest : List (MountPoint FileSystem))
    (path : Path) (hi : mp.point <:+: path) (hne : mp.point ≠ []) :
    bestMountPoint (mp :: rest) path = mp.point ∨
      mp.point.length < (bestMountPoint (mp :: rest) path).length := by
  have hpos := List.length_pos_iff.mpr hne
  simp only [bestMountPoint_eq, List.map_cons, List.filter_cons, hi, decide_true, ite_true,
    pickLongest, List.foldl_cons, List.length_nil, hpos]
  rcases pickLongest_eq_or_mem List.length mp.point
    ((rest.map MountPoint.point).filter (· <:+: path)) with he | ⟨_, hl⟩
  · exact Or.inl he
  · exact Or.inr hl

section Resolution

variable {points : List (MountPoint FileSystem)} {path : Path}

theorem getBestMountPoint_some {mp : MountPoint FileSystem}
    (h : getBestMountPoint points path = some mp) :
    mp ∈ points ∧ mp.point = bestMountPoint points path :=
  ⟨List.mem_of_find?_eq_some h, by simpa using List.find?_some h⟩

theorem getBestMountPoint_none (h : getBestMountPoint points path = none)
    (mp : MountPoint FileSystem) (hm : mp ∈ points) (habs : Absolute mp.point) :
    ¬mp.point <:+: path := by
  intro hi
  have hl := length_le_bestMountPoint points path mp hm hi
  have hpos := List.length_pos_iff.mpr habs.ne_nil
  rcases bestMountPoint_nil_or_mem points path with he | ⟨best, hb, _, he⟩
  · rw [he] at hl
    simp only [List.length_nil] at hl
    omega
  · have hnone := List.find?_eq_none.mp h best hb
    simp [he] at hnone

theorem getBestMountPoint_resolves (habs : ∀ mp ∈ points, Absolute mp.point)
    (hs : Shadowed points path) : Resolves points path (getBestMountPoint points path) := by
  cases h : getBestMountPoint points path with
  | none =>
      intro mp hm hc
      exact getBestMountPoint_none h mp hm (habs mp hm) hc.isInfix
  | some mp =>
      obtain ⟨hm, he⟩ := getBestMountPoint_some h
      have hi : mp.point <:+: path := by
        rcases bestMountPoint_nil_or_mem points path with hn | ⟨best, _, hi, hb⟩
        · exact absurd (he.trans hn) (habs mp hm).ne_nil
        · rwa [he, hb]
      have hmax : ∀ other ∈ points, other.point <:+: path → other.point.length ≤ mp.point.length :=
        fun other ho hoi => he ▸ length_le_bestMountPoint points path other ho hoi
      refine ⟨hm, ?_, fun other ho hc => hmax other ho hc.isInfix⟩
      by_contra hc
      obtain ⟨other, ho, hoc, hlt⟩ := hs mp hm hi hc
      have := hmax other ho hoc.isInfix
      omega

theorem Resolves.unique (hnodup : (points.map MountPoint.point).Nodup)
    {first second : Option (MountPoint FileSystem)} (h : Resolves points path first)
    (h' : Resolves points path second) : first = second := by
  cases first with
  | none =>
      cases second with
      | none => rfl
      | some mp => exact absurd h'.2.1 (h mp h'.1)
  | some mp =>
      cases second with
      | none => exact absurd h.2.1 (h' mp h.1)
      | some other =>
          have hl := le_antisymm (h'.2.2 mp h.1 h.2.1) (h.2.2 other h'.1 h'.2.1)
          rw [List.inj_on_of_nodup_map hnodup h.1 h'.1 (h.2.1.eq_of_length h'.2.1 hl)]

theorem Resolves.perm {points' : List (MountPoint FileSystem)} (hp : points'.Perm points)
    {answer : Option (MountPoint FileSystem)} (h : Resolves points' path answer) :
    Resolves points path answer := by
  cases answer with
  | none => exact fun mp hm => h mp (hp.mem_iff.mpr hm)
  | some mp =>
      exact ⟨hp.mem_iff.mp h.1, h.2.1, fun other ho => h.2.2 other (hp.mem_iff.mpr ho)⟩

theorem Shadowed.perm {points' : List (MountPoint FileSystem)} (hp : points'.Perm points)
    (hs : Shadowed points path) : Shadowed points' path := by
  intro mp hm hi hc
  obtain ⟨other, ho, h⟩ := hs mp (hp.mem_iff.mp hm) hi hc
  exact ⟨other, hp.mem_iff.mpr ho, h⟩

theorem resolves_iff (hnodup : (points.map MountPoint.point).Nodup)
    (habs : ∀ mp ∈ points, Absolute mp.point) :
    (∀ points', points'.Perm points →
      Resolves points path (getBestMountPoint points' path)) ↔ Shadowed points path := by
  constructor
  · intro h mp hm hi hc
    by_contra hn
    push Not at hn
    -- Mount the accidental point first: only a longer one could replace it.
    obtain ⟨before, after, rfl⟩ := List.append_of_mem hm
    have hp : (mp :: (before ++ after)).Perm (before ++ mp :: after) := List.perm_middle.symm
    have hr := h _ hp
    have hcons := bestMountPoint_cons mp (before ++ after) path hi (habs mp hm).ne_nil
    cases hg : getBestMountPoint (mp :: (before ++ after)) path with
    | none =>
        exact getBestMountPoint_none hg mp List.mem_cons_self (habs mp hm) hi
    | some found =>
        rw [hg] at hr
        obtain ⟨hf, he⟩ := getBestMountPoint_some hg
        rw [← he] at hcons
        rcases hcons with heq | hlt
        · exact hc (heq ▸ hr.2.1)
        · have := hn found hr.1 hr.2.1
          omega
  · intro hs points' hp
    have hr := getBestMountPoint_resolves (fun mp hm => habs mp (hp.mem_iff.mp hm)) (hs.perm hp)
    exact hr.perm hp

end Resolution

end MountPoints

namespace Vfs

open MountPoints

section Dispatch

variable {M : Type → Type} [Monad M] {File : Type} (relative : Path → Path → Path)
  (points : List (MountPoint (IFileSystem M File))) (path : Path)

-- Every operation of Vfs is a call on the file system of the given mount, with
-- the path relative to it, and fails without a mount.
structure DispatchedTo (target : Option (MountPoint (IFileSystem M File))) : Prop where
  mkdir_eq : ∀ mode, mkdir relative points path mode =
    target.elim (pure (-1)) fun mp => mp.filesystem.mkdir (relative path mp.point) mode
  remove_eq : remove relative points path =
    target.elim (pure (-1)) fun mp => mp.filesystem.remove (relative path mp.point)
  stat_eq : stat relative points path =
    target.elim (pure (-1)) fun mp => mp.filesystem.stat (relative path mp.point)
  get_eq : ∀ flags, get relative points path flags =
    target.elim (pure none) fun mp => mp.filesystem.get (relative path mp.point) flags
  create_eq : ∀ flags, create relative points path flags =
    target.elim (pure none) fun mp => mp.filesystem.create (relative path mp.point) flags
  list_eq : list relative points path =
    target.elim (pure []) fun mp => mp.filesystem.list (relative path mp.point)
  getChildFs_eq : getChildFs points path = target.map MountPoint.filesystem

theorem forward_eq {FileSystem Result : Type*} (points : List (MountPoint FileSystem))
    (failure : Result) (call : FileSystem → Path → Result) :
    forward relative points path failure call = (getBestMountPoint points path).elim failure
      fun mp => call mp.filesystem (relative path mp.point) := by
  unfold forward
  cases getBestMountPoint points path <;> rfl

theorem dispatchedTo_getBestMountPoint :
    DispatchedTo relative points path (getBestMountPoint points path) where
  mkdir_eq _ := forward_eq relative path points _ _
  remove_eq := forward_eq relative path points _ _
  stat_eq := forward_eq relative path points _ _
  get_eq _ := forward_eq relative path points _ _
  create_eq _ := forward_eq relative path points _ _
  list_eq := forward_eq relative path points _ _
  getChildFs_eq := rfl

-- Mount resolution is longest path prefix, whatever the mount order, and the
-- operations go to the file system that contains the path.
def LongestPrefix : Prop :=
  ∃ target, Resolves points path target ∧
    (∀ points', points'.Perm points → getBestMountPoint points' path = target) ∧
    DispatchedTo relative points path target

theorem longestPrefix_iff_shadowed (hnodup : (points.map MountPoint.point).Nodup)
    (habs : ∀ mp ∈ points, Absolute mp.point) :
    LongestPrefix relative points path ↔ Shadowed points path := by
  rw [← resolves_iff hnodup habs]
  constructor
  · rintro ⟨target, hr, ho, _⟩ points' hp
    rwa [ho points' hp]
  · intro h
    have hr := h points (List.Perm.refl points)
    exact ⟨_, hr, fun points' hp => (h points' hp).unique hnodup hr,
      dispatchedTo_getBestMountPoint relative points path⟩

end Dispatch

section KernelMounts

private def numbered (id : Nat) : IFileSystem Id Nat :=
  readOnlyFileSystem "RomFS".toList (fun _ => some id) (fun _ => [id])

private def kernelMounts : List (MountPoint (IFileSystem Id Nat)) :=
  kernelProcessMounts (numbered 0) (numbered 1) (numbered 2) (numbered 3)

private def below (path point : Path) : Path :=
  (path.drop point.length).dropWhile (· = '/')

theorem longestPrefix_iff_shadowed_shell_cfg :
    LongestPrefix below kernelMounts "/config/shell.cfg".toList :=
  (longestPrefix_iff_shadowed below kernelMounts "/config/shell.cfg".toList
    (by decide) (by decide)).mpr (by decide)

-- "/dev" occurs in the middle of a path of the root file system.
theorem longestPrefix_config_devices_false :
    (kernelMounts.map MountPoint.point).Nodup ∧ (∀ mp ∈ kernelMounts, Absolute mp.point) ∧
      Absolute "/config/devices".toList ∧
      ¬LongestPrefix below kernelMounts "/config/devices".toList := by
  refine ⟨by decide, by decide, by decide, ?_⟩
  rintro ⟨target, hr, ho, _⟩
  have hg : getBestMountPoint kernelMounts "/config/devices".toList =
      some ⟨"/dev".toList, numbered 2⟩ := rfl
  rw [← ho kernelMounts (List.Perm.refl _), hg] at hr
  have hc : ¬Contains "/dev".toList "/config/devices".toList := by decide
  exact hc hr.2.1

end KernelMounts

end Vfs

end Msos.Fs
