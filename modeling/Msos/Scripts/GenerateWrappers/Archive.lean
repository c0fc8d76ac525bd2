import Msos.Scripts.GenerateWrappers.Theorems

namespace Msos.Scripts.GenerateWrappers

open Msos.Library GenerateConfig

variable {objcopy : ObjectFile → Name → Name → ObjectFile}
  {ar : Archive → List ObjectFile → Archive} {output : Name → Bool} {events : List BuildEvent}

-- What is relied on of ar, too: every file of the command becomes a member, in the
-- place of a member of that name, and no other member leaves the archive.
def Replaces (ar : Archive → List ObjectFile → Archive) : Prop :=
  ∀ archive files, (∀ file ∈ files, Plain file.path) →
    (files.map fun file => memberName file.path).Nodup →
      ar archive files =
        (files.map member).foldl (fun archive item => archive.set item.1 item.2) archive

-- The compiler writes fresh files, and those of the output directory have member
-- names of their own.
structure Orderly (output : Name → Bool) (events : List BuildEvent) : Prop where
  fresh : ∀ file, .compile file ∈ events → Fresh file
  members : ∀ file other, .compile file ∈ events → .compile other ∈ events → output file.path →
    output other.path → memberName file.path = memberName other.path → file.path = other.path

def Below (output : Name → Bool) (files : List ObjectFile) (name : Name) : Prop :=
  ∃ file ∈ files, output file.path ∧ memberName file.path = name

-- An earlier run of the script found a file that becomes this member.
def Archived (objcopy : ObjectFile → Name → Name → ObjectFile) (output : Name → Bool)
    (events : List BuildEvent) (name : Name) : Prop :=
  ∃ front rest, events = front ++ .wrap :: rest ∧ Below output (sources objcopy front) name

-- What a run leaves that comes after all of this, and what one leaves in a new
-- directory, on the files as the compiler last wrote them.
def nextRun (objcopy : ObjectFile → Name → Name → ObjectFile)
    (ar : Archive → List ObjectFile → Archive) (output : Name → Bool) (events : List BuildEvent) :
    Dict Name Name × Workspace :=
  runMain objcopy ar output (workspaceOf objcopy ar output events)

def cleanRun (objcopy : ObjectFile → Name → Name → ObjectFile)
    (ar : Archive → List ObjectFile → Archive) (output : Name → Bool) (events : List BuildEvent) :
    Dict Name Name × Workspace :=
  runMain objcopy ar output ⟨sources objcopy events, Dict.empty⟩

structure LikeClean (next clean : Dict Name Name × Workspace) : Prop where
  wrappers : next.1 = clean.1
  files : next.2.files = clean.2.files
  members : ∀ name symbols, clean.2.archive.get? name = some symbols →
    next.2.archive.get? name = some symbols

theorem Orderly.front {front : List BuildEvent} {event : BuildEvent}
    (h : Orderly output (front ++ [event])) : Orderly output front where
  fresh file hfile := h.fresh file (List.mem_append_left _ hfile)
  members file other hfile hother :=
    h.members file other (List.mem_append_left _ hfile) (List.mem_append_left _ hother)

theorem Orderly.fresh_sources (h : Orderly output events) :
    ∀ file ∈ sources objcopy events, Fresh file :=
  fun file hfile => h.fresh file ((sources_compiled events).2 file hfile)

section Members

-- The members that a run of the script puts into the archive
def wrappedMembers (objcopy : ObjectFile → Name → Name → ObjectFile) (output : Name → Bool)
    (events : List BuildEvent) : List (Name × List Symbol) :=
  (toLib output (wrapFiles objcopy (sources objcopy events)).2).map member

variable (hobjcopy : Redefines objcopy)

include hobjcopy

theorem paths_wrapFiles {files : List ObjectFile} (h : ∀ file ∈ files, Fresh file) :
    (wrapFiles objcopy files).2.map ObjectFile.path = files.map ObjectFile.path := by
  rw [wrapFiles_eq, List.map_map]
  apply List.map_congr_left
  intro file hfile
  exact (h file hfile).path_wrapFile hobjcopy

theorem paths_toLib {files : List ObjectFile} (h : ∀ file ∈ files, Fresh file) :
    (toLib output (wrapFiles objcopy files).2).map ObjectFile.path =
      (files.map ObjectFile.path).filter output := by
  rw [← paths_wrapFiles hobjcopy h, List.filter_map]
  rfl

theorem memberNames_eq (h : Orderly output events) :
    (wrappedMembers objcopy output events).map Prod.fst =
      (((sources objcopy events).map ObjectFile.path).filter output).map memberName := by
  rw [← paths_toLib hobjcopy h.fresh_sources, wrappedMembers, List.map_map, List.map_map]
  rfl

theorem mem_memberNames_iff (h : Orderly output events) {name : Name} :
    name ∈ (wrappedMembers objcopy output events).map Prod.fst ↔
      Below output (sources objcopy events) name := by
  rw [memberNames_eq hobjcopy h, Below]
  simp only [List.mem_map, List.mem_filter]
  constructor
  · rintro ⟨_, ⟨⟨file, hfile, rfl⟩, houtput⟩, hname⟩
    exact ⟨file, hfile, houtput, hname⟩
  · rintro ⟨file, hfile, houtput, hname⟩
    exact ⟨file.path, ⟨⟨file, hfile, rfl⟩, houtput⟩, hname⟩

theorem nodup_memberNames (h : Orderly output events) :
    ((wrappedMembers objcopy output events).map Prod.fst).Nodup := by
  obtain ⟨hnodup, hcompiled⟩ := @sources_compiled objcopy events
  rw [memberNames_eq hobjcopy h]
  refine List.Nodup.map_on ?_ (hnodup.filter _)
  intro path hpath other hother he
  obtain ⟨hpath, houtput⟩ := List.mem_filter.mp hpath
  obtain ⟨hother, hotherOutput⟩ := List.mem_filter.mp hother
  obtain ⟨file, hfile, rfl⟩ := List.mem_map.mp hpath
  obtain ⟨found, hfound, rfl⟩ := List.mem_map.mp hother
  exact h.members file found (hcompiled file hfile) (hcompiled found hfound) houtput hotherOutput he

theorem plain_toLib (h : Orderly output events) :
    ∀ file ∈ toLib output (wrapFiles objcopy (sources objcopy events)).2, Plain file.path := by
  intro file hfile
  have hpath := List.mem_map_of_mem (f := ObjectFile.path) hfile
  rw [paths_toLib hobjcopy h.fresh_sources] at hpath
  obtain ⟨source, hsource, he⟩ := List.mem_map.mp (List.mem_filter.mp hpath).1
  exact he ▸ (h.fresh_sources source hsource).path

variable (har : Replaces ar)

include har

-- A run puts the members of its files into the archive, whatever it was.
theorem archive_runMain (h : Orderly output events) {workspace : Workspace}
    (hfiles : wrapFiles objcopy workspace.files = wrapFiles objcopy (sources objcopy events)) :
    (runMain objcopy ar output workspace).2.archive = (wrappedMembers objcopy output events).foldl
      (fun archive item => archive.set item.1 item.2) workspace.archive := by
  have hnodup := nodup_memberNames hobjcopy h
  rw [wrappedMembers, List.map_map] at hnodup
  have hset := har workspace.archive _ (plain_toLib hobjcopy h) hnodup
  rw [← hfiles] at hset
  rw [wrappedMembers, ← hfiles]
  exact hset

omit hobjcopy har in
theorem files_workspaceOf (events : List BuildEvent) :
    (workspaceOf objcopy ar output events).files = build objcopy events := by
  induction events using List.reverseRecOn with
  | nil => rfl
  | append_singleton front event ih =>
      rw [workspaceOf, build, List.foldl_concat, List.foldl_concat, ← workspaceOf, ← build, ← ih]
      cases event with
      | compile file => rfl
      | remove path => rfl
      | wrap => rfl

omit hobjcopy har in
theorem archived_concat_iff {front : List BuildEvent} {event : BuildEvent} {name : Name} :
    Archived objcopy output (front ++ [event]) name ↔
      event = .wrap ∧ Below output (sources objcopy front) name ∨
        Archived objcopy output front name := by
  constructor
  · rintro ⟨before, rest, he, hbelow⟩
    rcases List.eq_nil_or_concat' rest with rfl | ⟨rest, last, rfl⟩
    · obtain ⟨rfl, hlast⟩ := List.append_inj' he rfl
      exact Or.inl ⟨List.singleton_inj.mp hlast, hbelow⟩
    · rw [← List.cons_append, ← List.append_assoc] at he
      exact Or.inr ⟨before, rest, (List.append_inj' he rfl).1, hbelow⟩
  · rintro (⟨rfl, hbelow⟩ | ⟨before, rest, rfl, hbelow⟩)
    · exact ⟨front, [], rfl, hbelow⟩
    · exact ⟨before, rest ++ [event], by simp, hbelow⟩

-- ar -r takes nothing out: what was put in once stays.
theorem mem_archive_iff (h : Orderly output events) {name : Name} :
    name ∈ (workspaceOf objcopy ar output events).archive.items.map Prod.fst ↔
      Archived objcopy output events name := by
  induction events using List.reverseRecOn with
  | nil =>
      have hnot : ¬ Archived objcopy output [] name := by
        rintro ⟨before, rest, he, -⟩
        simp at he
      exact iff_of_false (fun hm => nomatch hm) hnot
  | append_singleton front event ih =>
      rw [archived_concat_iff, ← ih h.front, workspaceOf, List.foldl_concat, ← workspaceOf]
      by_cases he : event = .wrap
      · have hfiles : wrapFiles objcopy (workspaceOf objcopy ar output front).files =
            wrapFiles objcopy (sources objcopy front) := by
          rw [files_workspaceOf]
          exact wrapFiles_build hobjcopy h.front.fresh
        rw [workspaceStep, if_pos he, archive_runMain hobjcopy har h.front hfiles,
          Dict.mem_keys_foldl_set, mem_memberNames_iff hobjcopy h.front]
        simp [he]
      · rw [workspaceStep, if_neg he]
        simp [he]

-- Incremental runs are like clean ones, but the archive may hold more: it holds the
-- same just when every file that was ever put into it still has a file in its place.
theorem nextRun_likeClean (h : Orderly output events) :
    LikeClean (nextRun objcopy ar output events) (cleanRun objcopy ar output events) ∧
      ((∀ name, (nextRun objcopy ar output events).2.archive.get? name =
          (cleanRun objcopy ar output events).2.archive.get? name) ↔
        ∀ name, Archived objcopy output events name → Below output (sources objcopy events) name) := by
  have hfiles : wrapFiles objcopy (workspaceOf objcopy ar output events).files =
      wrapFiles objcopy (sources objcopy events) := by
    rw [files_workspaceOf]
    exact wrapFiles_build hobjcopy h.fresh
  have hnext := archive_runMain hobjcopy har h hfiles
  have hclean := @archive_runMain objcopy ar output events hobjcopy har h
    ⟨sources objcopy events, Dict.empty⟩ rfl
  have hput : ∀ name, Below output (sources objcopy events) name →
      (nextRun objcopy ar output events).2.archive.get? name =
        (cleanRun objcopy ar output events).2.archive.get? name := by
    intro name hbelow
    rw [nextRun, cleanRun, hnext, hclean]
    exact Dict.get?_foldl_set_of_mem ((mem_memberNames_iff hobjcopy h).mpr hbelow)
  have hold : ∀ name, ¬ Below output (sources objcopy events) name →
      ((nextRun objcopy ar output events).2.archive.get? name = none ↔
        ¬ Archived objcopy output events name) ∧
          (cleanRun objcopy ar output events).2.archive.get? name = none := by
    intro name hbelow
    have hnot := (mem_memberNames_iff hobjcopy h).not.mpr hbelow
    rw [nextRun, cleanRun, hnext, hclean, Dict.get?_foldl_set hnot, Dict.get?_foldl_set hnot,
      Dict.get?_eq_none_iff, mem_archive_iff hobjcopy har h]
    exact ⟨Iff.rfl, rfl⟩
  have hwrappers := congrArg Prod.fst hfiles
  have hleft := congrArg Prod.snd hfiles
  refine ⟨⟨hwrappers, hleft, fun name symbols hfound => ?_⟩, ?_⟩
  · by_cases hbelow : Below output (sources objcopy events) name
    · rw [hput name hbelow, hfound]
    · rw [(hold name hbelow).2] at hfound
      cases hfound
  · refine forall_congr' fun name => ?_
    by_cases hbelow : Below output (sources objcopy events) name
    · exact iff_of_true (hput name hbelow) fun _ => hbelow
    · obtain ⟨hnone, hempty⟩ := hold name hbelow
      rw [hempty, hnone]
      exact ⟨fun hnot harchived => absurd harchived hnot, fun hall harchived => hbelow (hall harchived)⟩

-- ar as its manual has it
def replaceMembers (archive : Archive) (files : List ObjectFile) : Archive :=
  (files.map member).foldl (fun archive item => archive.set item.1 item.2) archive

-- The callee is deleted after both were wrapped.
def deleted : List BuildEvent :=
  [.compile callee, .compile caller, .wrap, .remove callee.path, .compile caller]

omit hobjcopy har in
theorem deleted_orderly : Orderly (fun _ => true) deleted := by
  have hfiles : ∀ file, .compile file ∈ deleted → file = callee ∨ file = caller := by
    intro file hfile
    simp [deleted] at hfile
    tauto
  constructor
  · intro file hfile
    rcases hfiles file hfile with rfl | rfl
    · decide
    · decide
  · intro file other hfile hother _ _
    rcases hfiles file hfile with rfl | rfl <;> rcases hfiles other hother with rfl | rfl <;> decide

omit hobjcopy har in
theorem nextRun_likeClean_deleted :
    LikeClean (nextRun redefineSym replaceMembers (fun _ => true) deleted)
        (cleanRun redefineSym replaceMembers (fun _ => true) deleted) ∧
      ¬ ∀ name, (nextRun redefineSym replaceMembers (fun _ => true) deleted).2.archive.get? name =
        (cleanRun redefineSym replaceMembers (fun _ => true) deleted).2.archive.get? name := by
  obtain ⟨hlike, hsame⟩ := @nextRun_likeClean redefineSym replaceMembers _ deleted
    (fun _ _ _ _ _ _ => rfl) (fun _ _ _ _ => rfl) deleted_orderly
  refine ⟨hlike, hsame.not.mpr fun hall => ?_⟩
  have harchived : Archived redefineSym (fun _ => true) deleted callee.path :=
    ⟨[.compile callee, .compile caller], [.remove callee.path, .compile caller], rfl, callee,
      List.mem_cons_self, rfl, by decide⟩
  obtain ⟨file, hfile, -, hname⟩ := hall callee.path harchived
  have hcaller : file = caller := List.mem_singleton.mp hfile
  exact absurd hname (hcaller ▸ by decide)

end Members

end Msos.Scripts.GenerateWrappers
