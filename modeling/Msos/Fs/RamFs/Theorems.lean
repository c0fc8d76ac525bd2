import Mathlib.Algebra.BigOperators.Group.List.Basic
import Mathlib.Algebra.Ring.Nat
import Mathlib.Data.List.Nodup
import Msos.Fs.RamFs

namespace Msos.Fs.RamFs

open Msos.Library.Machine

def filenames (fs : RamFs) : List Path := fs.files.map RamFsData.filename

-- At most one entry for each path.
def Unique (fs : RamFs) : Prop := fs.filenames.Nodup

instance (fs : RamFs) : Decidable (Unique fs) := inferInstanceAs (Decidable (List.Nodup _))

namespace Session

-- The entries that the handles refer to.
def targets (session : Session) : List Nat := session.handles.map RamfsFile.data

theorem pathOf_eq (session : Session) (handle : Nat) :
    session.pathOf handle =
      session.targets[handle]?.bind fun entry => session.fs.filenames[entry]? := by
  simp only [pathOf, targets, filenames, List.getElem?_map]
  cases session.handles[handle]? with
  | none => rfl
  | some file =>
      rw [Option.map_some, Option.bind_some, Option.map_eq_bind]
      rfl

def addedNames (session : Session) : Call → List Path
  | .mkdir path _ => if path ∈ session.fs.filenames then [] else [path]
  | .create path _ => [path]
  | _ => []

theorem find?_filename (fs : RamFs) (path : Path) :
    (fs.files.find? fun file => file.filename = path).isSome ↔ path ∈ fs.filenames := by
  simp [filenames]

theorem step_filenames {session next : Session} {call : Call} (h : session.step call = some next) :
    next.fs.filenames = session.fs.filenames ++ session.addedNames call := by
  cases call with
  | mkdir path mode =>
      obtain rfl := Option.some.inj h
      have hf := find?_filename session.fs path
      simp only [RamFs.mkdir, addedNames]
      cases he : session.fs.files.find? fun file => file.filename = path with
      | some entry => simp [he] at hf; simp [hf]
      | none =>
          have hn : path ∉ session.fs.filenames := by
            intro hm
            simp [he] at hf
            exact hf hm
          rw [ite_cond_eq_false _ _ (eq_false hn)]
          simp [filenames, RamFsData.createDirectory]
  | create path flags =>
      obtain rfl := Option.some.inj h
      simp [filenames, addedNames, RamFsData.createFile]
  | get path flags =>
      obtain rfl := Option.some.inj h
      simp [addedNames]
  | read handle size =>
      obtain ⟨file, _, h⟩ := Option.bind_eq_some_iff.mp h
      obtain rfl := Option.some.inj h
      simp [addedNames]
  | write handle bytes =>
      obtain ⟨file, _, h⟩ := Option.bind_eq_some_iff.mp h
      obtain rfl := Option.some.inj h
      simp only [filenames, RamfsFile.write, addedNames, List.append_nil]
      apply List.ext_getElem?
      intro i
      simp only [List.getElem?_map, List.getElem?_modify]
      cases session.fs.files[i]? with
      | none => rfl
      | some entry => by_cases hi : file.data = i <;> simp [hi]

theorem step_targets {session next : Session} {call : Call} (h : session.step call = some next) :
    session.targets <+: next.targets := by
  cases call with
  | mkdir path mode =>
      obtain rfl := Option.some.inj h
      exact List.prefix_refl _
  | create path flags =>
      obtain rfl := Option.some.inj h
      simp [targets]
  | get path flags =>
      obtain rfl := Option.some.inj h
      simp [targets]
  | read handle size =>
      obtain ⟨file, hf, h⟩ := Option.bind_eq_some_iff.mp h
      obtain rfl := Option.some.inj h
      have hd : (file.read session.fs size).2.data = file.data := by
        simp only [RamfsFile.read]
        split <;> rfl
      have hset : (session.handles.set handle (file.read session.fs size).2).map RamfsFile.data =
          session.handles.map RamfsFile.data := by
        apply List.ext_getElem?
        intro i
        rw [List.map_set, hd, List.getElem?_set']
        by_cases hi : handle = i
        · subst hi
          simp [hf]
        · simp [hi]
      simp only [targets, hset]
      exact List.prefix_refl _
  | write handle bytes =>
      obtain ⟨file, _, h⟩ := Option.bind_eq_some_iff.mp h
      obtain rfl := Option.some.inj h
      exact List.prefix_refl _

-- What a call appends to an entry that exists before it.
def appended (session : Session) (entry : Nat) : Call → List UInt8
  | .write handle bytes => if session.targets[handle]? = some entry then bytes else []
  | _ => []

theorem step_contents {session next : Session} {call : Call} (h : session.step call = some next)
    {entry : Nat} (he : entry < session.fs.files.length) :
    next.fs.contents entry = session.fs.contents entry ++ session.appended entry call := by
  cases call with
  | mkdir path mode =>
      obtain rfl := Option.some.inj h
      simp only [RamFs.mkdir, appended, List.append_nil]
      split
      · rfl
      · simp [contents, List.getElem?_append_left he]
  | create path flags =>
      obtain rfl := Option.some.inj h
      simp [contents, appended, List.getElem?_append_left he]
  | get path flags =>
      obtain rfl := Option.some.inj h
      simp [appended]
  | read handle size =>
      obtain ⟨file, _, h⟩ := Option.bind_eq_some_iff.mp h
      obtain rfl := Option.some.inj h
      simp [appended]
  | write handle bytes =>
      obtain ⟨file, hf, h⟩ := Option.bind_eq_some_iff.mp h
      obtain rfl := Option.some.inj h
      simp only [contents, RamfsFile.write, appended, targets, List.getElem?_map, hf,
        List.getElem?_modify, List.getElem?_eq_getElem he]
      by_cases hd : file.data = entry <;> simp [hd]

theorem getElem?_of_initial {α : Type*} {first second : List α} (hp : first <+: second)
    {i : Nat} {a : α} (h : first[i]? = some a) : second[i]? = some a := by
  obtain ⟨rest, rfl⟩ := hp
  rw [List.getElem?_append_left (List.getElem?_eq_some_iff.mp h).1, h]

-- A handle keeps its entry and an entry keeps its path.
theorem step_pathOf {session next : Session} {call : Call} (h : session.step call = some next)
    {handle : Nat} {path : Path} (hp : session.pathOf handle = some path) :
    next.pathOf handle = some path := by
  rw [pathOf_eq, Option.bind_eq_some_iff] at hp ⊢
  obtain ⟨entry, ht, hn⟩ := hp
  refine ⟨entry, getElem?_of_initial (step_targets h) ht, getElem?_of_initial ?_ hn⟩
  rw [step_filenames h]
  exact List.prefix_append _ _

theorem run_filenames {session last : Session} {calls : List Call}
    (h : run step session calls = some last) : session.fs.filenames <+: last.fs.filenames := by
  induction calls generalizing session with
  | nil =>
      obtain rfl : session = last := by simpa using h
      exact List.prefix_refl _
  | cons call rest ih =>
      rw [run_cons, Option.bind_eq_some_iff] at h
      obtain ⟨next, hs, h⟩ := h
      exact ((step_filenames hs) ▸ List.prefix_append _ _).trans (ih h)

-- create returns a handle to a new empty entry.
theorem step_create {session next : Session} {path : Path} {flags : Int}
    (h : session.step (.create path flags) = some next) :
    next.targets[next.handles.length - 1]? = some session.fs.files.length ∧
      next.fs.filenames[session.fs.files.length]? = some path ∧
      next.fs.contents session.fs.files.length = [] := by
  obtain rfl := Option.some.inj h
  refine ⟨?_, ?_, ?_⟩
  · simp [targets]
  · simp [filenames, RamFsData.createFile]
  · simp [contents, RamFsData.createFile]

theorem run_pathOf {session last : Session} {calls : List Call}
    (h : run step session calls = some last) {handle : Nat} {path : Path}
    (hp : session.pathOf handle = some path) : last.pathOf handle = some path := by
  induction calls generalizing session with
  | nil =>
      obtain rfl : session = last := by simpa using h
      exact hp
  | cons call rest ih =>
      rw [run_cons, Option.bind_eq_some_iff] at h
      obtain ⟨next, hs, h⟩ := h
      exact ih h (step_pathOf hs hp)

-- While all writes to the path of an entry go through one handle, the entry
-- collects what is written through that handle.
theorem run_contents {session last : Session} {calls : List Call}
    (h : run step session calls = some last) {handle entry : Nat} {path : Path}
    (ht : session.targets[handle]? = some entry) (hn : session.fs.filenames[entry]? = some path)
    (honly : ∀ other bytes, .write other bytes ∈ calls → last.pathOf other = some path →
      other = handle) :
    last.fs.contents entry = session.fs.contents entry ++ writtenThrough handle calls := by
  induction calls generalizing session with
  | nil =>
      obtain rfl : session = last := by simpa using h
      simp [writtenThrough]
  | cons call rest ih =>
      rw [run_cons, Option.bind_eq_some_iff] at h
      obtain ⟨next, hs, h⟩ := h
      have he : entry < session.fs.files.length := by
        simpa [filenames] using (List.getElem?_eq_some_iff.mp hn).1
      have hn' : next.fs.filenames[entry]? = some path := by
        rw [step_filenames hs]
        exact getElem?_of_initial (List.prefix_append _ _) hn
      rw [ih h (getElem?_of_initial (step_targets hs) ht) hn'
        (fun other bytes hm => honly other bytes (List.mem_cons_of_mem _ hm)),
        step_contents hs he, List.append_assoc]
      congr 1
      cases call with
      | write other bytes =>
          simp only [appended, writtenThrough]
          by_cases ho : other = handle
          · simp [ho, ht]
          · have hne : session.targets[other]? ≠ some entry := by
              intro hte
              apply ho
              apply honly other bytes List.mem_cons_self
              apply run_pathOf h
              apply step_pathOf hs
              rw [pathOf_eq, hte]
              exact hn
            simp [ho, hne]
      | mkdir _ _ | create _ _ | get _ _ | read _ _ => simp [appended, writtenThrough]

end Session

theorem readAll_eq (fs : RamFs) (file : RamfsFile) (sizes : List Nat) :
    file.readAll fs sizes = ((fs.contents file.data).drop file.position).take sizes.sum := by
  induction sizes generalizing file with
  | nil => simp [RamfsFile.readAll]
  | cons size sizes ih =>
      simp only [RamfsFile.readAll, RamfsFile.read, List.sum_cons]
      by_cases hend : (fs.contents file.data).length ≤ file.position
      · simp [hend, ih, List.drop_eq_nil_of_le hend]
      · simp only [hend, ite_false, ih]
        by_cases hs : size < (fs.contents file.data).length - file.position
        · simp only [hs, ite_true, ← List.drop_drop, List.take_add]
        · have hall : ((fs.contents file.data).drop file.position).length ≤ size := by
            simp only [List.length_drop]
            omega
          have hend' : (fs.contents file.data).length ≤
              file.position + ((fs.contents file.data).length - file.position) := by omega
          simp only [hs, ite_false]
          rw [List.drop_eq_nil_of_le hend', List.take_nil, List.append_nil,
            List.take_of_length_le (by simp), List.take_of_length_le (by omega)]

-- With one entry for each path, get finds the entry that has the path.
theorem get_eq_of_unique {fs : RamFs} (hu : Unique fs) {entry : Nat} {path : Path} (flags : Int)
    (hne : path ≠ []) (hn : fs.filenames[entry]? = some path) :
    fs.get path flags = some ⟨entry, 0, shortName path⟩ := by
  obtain ⟨he, hname⟩ := List.getElem?_eq_some_iff.mp hn
  have hf : fs.files.findIdx? (fun file => decide (file.filename = path)) = some entry := by
    rw [List.findIdx?_eq_some_iff_getElem]
    refine ⟨by simpa [filenames] using he, by simpa [filenames] using hname, ?_⟩
    intro other hlt ho
    have hlt' : other < fs.filenames.length := hlt.trans he
    have hsame : fs.filenames[other] = fs.filenames[entry] := by
      rw [hname]
      simpa [filenames] using ho
    have := (List.Nodup.getElem_inj_iff hu).mp hsame
    omega
  simp [get, hne, hf]

section Map

open Session

-- A call that creates a file names a path that has no entry yet.
def NewPath (session : Session) : Call → Prop
  | .create path _ => path ∉ session.fs.filenames
  | _ => True

-- The same, and the path is not the empty one, which get answers with the root.
def Fresh (session : Session) : Call → Prop
  | .create path _ => path ≠ [] ∧ path ∉ session.fs.filenames
  | _ => True

instance (session : Session) (call : Call) : Decidable (NewPath session call) := by
  cases call <;> simp only [NewPath] <;> infer_instance

instance (session : Session) (call : Call) : Decidable (Fresh session call) := by
  cases call <;> simp only [Fresh] <;> infer_instance

-- After create, and while only the handle it returned writes to the path, a
-- file obtained by get reads back what was written through that handle.
def ReadsBack (start : Session) (calls : List Call) : Prop :=
  ∀ first path flags rest created last,
    first ++ .create path flags :: rest <+: calls →
    run step start (first ++ [.create path flags]) = some created →
    run step created rest = some last →
    (∀ flags', .create path flags' ∉ rest) →
    (∀ other bytes, .write other bytes ∈ rest → last.pathOf other = some path →
      other = created.handles.length - 1) →
    ∀ flags', ∃ file, last.fs.get path flags' = some file ∧
      ∀ sizes, file.readAll last.fs sizes =
        (writtenThrough (created.handles.length - 1) rest).take sizes.sum

theorem step_unique {session next : Session} {call : Call} (h : session.step call = some next)
    (hu : Unique session.fs) : Unique next.fs ↔ NewPath session call := by
  rw [Unique, step_filenames h]
  cases call with
  | mkdir path mode =>
      simp only [addedNames, NewPath, iff_true]
      split
      · simpa [Unique] using hu
      · rename_i hn
        simpa [List.nodup_append, Unique] using ⟨hu, fun name hm he => hn (he ▸ hm)⟩
  | create path flags =>
      simp only [addedNames, NewPath, List.nodup_append]
      constructor
      · exact fun hn hm => hn.2.2 path hm path (List.mem_singleton_self path) rfl
      · exact fun hn => ⟨hu, List.nodup_singleton path, by
          intro name hm other ho he
          rw [List.mem_singleton.mp ho] at he
          exact hn (he ▸ hm)⟩
  | get _ _ | read _ _ | write _ _ => simpa [addedNames, NewPath, Unique] using hu

theorem unique_new : Unique Session.new.fs := by decide

-- A path gets a second entry exactly by a create on a path that has one.
theorem throughout_unique_iff (calls : List Call) :
    Throughout step (fun session => Unique session.fs) Session.new calls ↔
      Respects step NewPath Session.new calls :=
  throughout_iff_respects (fun session => Unique session.fs) (fun _ h => h)
    (fun _ _ _ hu hg hs => (step_unique hs hu).mpr hg)
    (fun _ _ _ hu hg hs hn => hg ((step_unique hs hu).mp hn)) unique_new

theorem throughout_unique_of_fresh {calls : List Call}
    (hf : Respects step Fresh Session.new calls) :
    Throughout step (fun session => Unique session.fs) Session.new calls := by
  apply throughout_of_respects (fun session => Unique session.fs) (fun _ h => h) _
    unique_new hf
  intro session call next hu hg hs
  apply (step_unique hs hu).mpr
  cases call with
  | create path flags => exact hg.2
  | mkdir _ _ | get _ _ | read _ _ | write _ _ => trivial

theorem readsBack_of_fresh {calls : List Call} (hf : Respects step Fresh Session.new calls) :
    ReadsBack Session.new calls := by
  intro first path flags rest created last hp hc hl _ honly flags'
  have hsplit := hc
  rw [run_concat, Option.bind_eq_some_iff] at hsplit
  obtain ⟨before, hb, hs⟩ := hsplit
  obtain ⟨tail, rfl⟩ := hp
  rw [List.append_assoc, List.cons_append] at hf
  have hne : path ≠ [] := (hf.guard_of_run hb hs).1
  have hu : Unique last.fs := by
    have ht := throughout_unique_of_fresh hf
    rw [throughout_iff_prefixes] at ht
    apply ht (first ++ .create path flags :: rest)
    · exact ⟨tail, by simp⟩
    · have happend : first ++ Call.create path flags :: rest =
          (first ++ [.create path flags]) ++ rest := by simp
      rw [happend, run_append, hc, Option.bind_some, hl]
  obtain ⟨ht, hn, hempty⟩ := step_create hs
  have hcontents := run_contents hl ht hn honly
  refine ⟨_, get_eq_of_unique hu flags' hne (getElem?_of_initial (run_filenames hl) hn),
    fun sizes => ?_⟩
  rw [readAll_eq, List.drop_zero, hcontents, hempty, List.nil_append]

theorem isMap_of_fresh (calls : List Call) (hf : Respects step Fresh Session.new calls) :
    Throughout step (fun session => Unique session.fs) Session.new calls ∧
      ReadsBack Session.new calls :=
  ⟨throughout_unique_of_fresh hf, readsBack_of_fresh hf⟩

theorem isMap_of_fresh_log :
    let calls := [.mkdir "config".toList 1, .create "config/log".toList 0, .write 0 [1, 2],
      .create "log".toList 0, .write 1 [3], .get "config/log".toList 0, .read 2 5]
    Throughout step (fun session => Unique session.fs) Session.new calls ∧
      ReadsBack Session.new calls :=
  isMap_of_fresh _ (by decide)

-- Creating a file again leaves its first contents in front of the new entry.
theorem create_again_not_map :
    let calls := [.create "log".toList 0, .write 0 [1], .create "log".toList 0, .write 1 [2]]
    ¬Throughout step (fun session => Unique session.fs) Session.new calls ∧
      ¬ReadsBack Session.new calls := by
  refine ⟨by decide, fun h => ?_⟩
  obtain ⟨file, hg, hr⟩ := h [.create "log".toList 0, .write 0 [1]] "log".toList 0 [.write 1 [2]]
    _ _ (List.prefix_refl _) rfl rfl (by simp)
    (by
      intro other bytes hm _
      simp only [List.mem_singleton, Call.write.injEq] at hm
      exact hm.1) 0
  obtain rfl := Option.some.inj hg
  exact absurd (hr [1]) (by decide)

end Map

end Msos.Fs.RamFs
