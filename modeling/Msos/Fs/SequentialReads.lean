import Msos.Fs.RamFs.Theorems
import Msos.Fs.RomFsFile

namespace Msos.Fs

open Msos.Library Msos.Library.Machine Cursor

-- An open file and what it has delivered: a prefix of its content, which every
-- next read continues. The read fills the front of the buffer, keeps the rest,
-- and delivers nothing only for an empty buffer or at the end.
structure ReadsOn {File : Type} (content delivered : List UInt8) (position : Nat)
    (read : List UInt8 → ReadResult File) : Prop where
  isPrefix : delivered <+: content
  position_le : position ≤ content.length
  next : ∀ buffer, ∃ chunk after,
    read buffer = .ok (chunk ++ buffer.drop chunk.length, chunk.length, after) ∧
      chunk.length ≤ buffer.length ∧ delivered ++ chunk <+: content ∧
        (chunk.length = 0 → buffer = [] ∨ delivered = content)

section Reading

variable {File : Type} {content delivered : List UInt8} {position : Nat}

theorem readsOn_of_delivered (h : Delivered content position delivered) (file : Nat → File) :
    ReadsOn content delivered position fun buffer =>
      (readAt content.length content position buffer).map fun (buffer, len, position) =>
        (buffer, len, file position) where
  isPrefix := h.isPrefix
  position_le := h.position_le
  next := by
    intro buffer
    refine ⟨chunk content position buffer.length, file (position +
      (chunk content position buffer.length).length), ?_, ?_, (h.read buffer.length).isPrefix, ?_⟩
    · rw [readAt_eq]
      rfl
    · rw [length_chunk]
      exact Nat.min_le_left _ _
    · intro hzero
      exact (h.eq_of_chunk hzero).imp_left List.length_eq_zero_iff.mp

end Reading

namespace RamFs.Session

section Delivering

-- What a call delivers through a handle.
def deliveredBy (handle : Nat) (session : Session) : Call → List UInt8
  | .read other size =>
      if other = handle then
        (session.handles[handle]?.map fun file => (file.read session.fs size).1).getD []
      else []
  | _ => []

-- The bytes that have been read through a handle, in order.
def delivered (handle : Nat) : Session → List Call → List UInt8
  | _, [] => []
  | session, call :: rest =>
      match session.step call with
      | some next => session.deliveredBy handle call ++ delivered handle next rest
      | none => []

theorem delivered_concat {start session next : Session} {calls : List Call} {call : Call}
    (hr : run step start calls = some session) (hs : session.step call = some next)
    (handle : Nat) :
    delivered handle start (calls ++ [call]) =
      delivered handle start calls ++ session.deliveredBy handle call := by
  induction calls generalizing start with
  | nil =>
      obtain rfl : start = session := by simpa using hr
      simp [delivered, hs]
  | cons head rest ih =>
      rw [run_cons, Option.bind_eq_some_iff] at hr
      obtain ⟨middle, hm, hr⟩ := hr
      simp only [List.cons_append, delivered, hm, ih hr, List.append_assoc]

theorem read_eq (fs : RamFs) (file : RamfsFile) (size : Nat) :
    file.read fs size = (chunk (fs.contents file.data) file.position size,
      { file with position := file.position +
        (chunk (fs.contents file.data) file.position size).length }) := by
  simp only [RamfsFile.read]
  by_cases hend : (fs.contents file.data).length ≤ file.position
  · simp [hend, chunk_of_end hend]
  · simp only [hend, ite_false, clamp_eq, take_length_chunk]

-- The read of a call on the file system, and the one that fills a buffer.
theorem readInto_eq (fs : RamFs) (file : RamfsFile) (buffer : List UInt8) :
    file.readInto fs buffer =
      let (chunk, next) := file.read fs buffer.length
      .ok (chunk ++ buffer.drop chunk.length, chunk.length, next) := by
  rw [read_eq, RamfsFile.readInto, readAt_eq]
  rfl

-- Every handle refers to an entry, and has delivered it up to its position; a
-- handle that does not exist yet has delivered nothing.
structure Delivering (session : Session) (calls : List Call) : Prop where
  entry : ∀ handle file, session.handles[handle]? = some file →
    file.data < session.fs.files.length ∧
      Delivered (session.fs.contents file.data) file.position (delivered handle new calls)
  none : ∀ handle, session.handles.length ≤ handle → delivered handle new calls = []

theorem step_length {session next : Session} {call : Call} (h : session.step call = some next) :
    session.fs.files.length ≤ next.fs.files.length := by
  have hnames := congrArg List.length (step_filenames h)
  simp only [filenames, List.length_map, List.length_append] at hnames
  omega

-- get and create open a file at its start.
theorem get_fresh {fs : RamFs} {path : Path} {flags : Int} {file : RamfsFile}
    (h : fs.get path flags = some file) : file.position = 0 ∧ file.data < fs.files.length := by
  unfold get at h
  split at h
  · obtain ⟨front, hf, rfl⟩ := Option.map_eq_some_iff.mp h
    exact ⟨rfl, List.length_pos_of_mem (List.mem_of_head? hf)⟩
  · obtain ⟨entry, he, rfl⟩ := Option.map_eq_some_iff.mp h
    exact ⟨rfl, (List.findIdx?_eq_some_iff_getElem.mp he).1⟩

-- A call that is no read keeps the handles, and may add one at a start.
theorem step_handles {session next : Session} {call : Call} (h : session.step call = some next)
    (hread : ∀ handle size, call ≠ .read handle size) :
    ∃ fresh, next.handles = session.handles ++ fresh ∧
      ∀ file ∈ fresh, file.position = 0 ∧ file.data < next.fs.files.length := by
  cases call with
  | mkdir path mode =>
      obtain rfl := Option.some.inj h
      exact ⟨[], by simp⟩
  | create path flags =>
      obtain rfl := Option.some.inj h
      refine ⟨[(session.fs.create path flags).2], rfl, fun file hf => ?_⟩
      obtain rfl := List.mem_singleton.mp hf
      simp [create]
  | get path flags =>
      obtain rfl := Option.some.inj h
      refine ⟨(session.fs.get path flags).toList, rfl, fun file hf => ?_⟩
      exact get_fresh (Option.mem_toList.mp hf)
  | read handle size => exact absurd rfl (hread handle size)
  | write handle bytes =>
      obtain ⟨file, _, h⟩ := Option.bind_eq_some_iff.mp h
      obtain rfl := Option.some.inj h
      exact ⟨[], by simp⟩

theorem delivering_read {session next : Session} {calls : List Call} {other size : Nat}
    (hd : Delivering session calls) (hr : run step new calls = some session)
    (hs : session.step (.read other size) = some next) :
    Delivering next (calls ++ [.read other size]) := by
  have hconcat := delivered_concat hr hs
  obtain ⟨opened, ho, hs⟩ := Option.bind_eq_some_iff.mp hs
  obtain rfl := Option.some.inj hs
  have hlt : other < session.handles.length := (List.getElem?_eq_some_iff.mp ho).1
  refine ⟨fun handle file hf => ?_, fun handle hle => ?_⟩
  · rw [hconcat]
    by_cases heq : other = handle
    · subst heq
      simp only [List.getElem?_set_self hlt, Option.some.injEq, read_eq] at hf
      subst hf
      obtain ⟨hentry, hdel⟩ := hd.entry other opened ho
      refine ⟨hentry, ?_⟩
      simpa [deliveredBy, ho, read_eq] using hdel.read size
    · simp only [List.getElem?_set_ne heq] at hf
      simpa [deliveredBy, heq] using hd.entry handle file hf
  · simp only [List.length_set] at hle
    have heq : other ≠ handle := by omega
    rw [hconcat, hd.none handle hle]
    simp [deliveredBy, heq]

theorem delivering_other {session next : Session} {calls : List Call} {call : Call}
    (hd : Delivering session calls) (hr : run step new calls = some session)
    (hs : session.step call = some next) (hread : ∀ handle size, call ≠ .read handle size) :
    Delivering next (calls ++ [call]) := by
  obtain ⟨fresh, hhandles, hfresh⟩ := step_handles hs hread
  have hsame : ∀ handle, delivered handle new (calls ++ [call]) = delivered handle new calls := by
    intro handle
    rw [delivered_concat hr hs]
    cases call with
    | read other size => exact absurd rfl (hread other size)
    | mkdir _ _ | create _ _ | get _ _ | write _ _ => simp [deliveredBy]
  refine ⟨fun handle file hf => ?_, fun handle hle => ?_⟩
  · rw [hsame]
    by_cases hlt : handle < session.handles.length
    · rw [hhandles, List.getElem?_append_left hlt] at hf
      obtain ⟨hentry, hdel⟩ := hd.entry handle file hf
      refine ⟨hentry.trans_le (step_length hs), ?_⟩
      rw [step_contents hs hentry]
      exact hdel.append _
    · rw [hhandles, List.getElem?_append_right (by omega)] at hf
      obtain ⟨hzero, hentry⟩ := hfresh file (List.mem_of_getElem? hf)
      rw [hd.none handle (by omega), hzero]
      exact ⟨hentry, Delivered.start _⟩
  · rw [hsame]
    rw [hhandles, List.length_append] at hle
    exact hd.none handle (by omega)

theorem delivering_of_run {session : Session} {calls : List Call}
    (hr : run step new calls = some session) : Delivering session calls := by
  induction calls using List.reverseRecOn generalizing session with
  | nil =>
      obtain rfl : new = session := by simpa using hr
      exact ⟨fun handle file hf => by simp [new] at hf, fun handle _ => rfl⟩
  | append_singleton calls call ih =>
      rw [run_concat, Option.bind_eq_some_iff] at hr
      obtain ⟨before, hb, hs⟩ := hr
      cases call with
      | read other size => exact delivering_read (ih hb) hb hs
      | mkdir _ _ | create _ _ | get _ _ | write _ _ =>
          exact delivering_other (ih hb) hb hs (fun _ _ h => nomatch h)

end Delivering

end RamFs.Session

namespace RomFsFile

theorem read_eq (file : RomFsFile) (buffer : List UInt8) :
    file.read buffer = (readAt file.file.data.length file.file.data file.position buffer).map
      fun (buffer, len, position) => (buffer, len, { file with position := position }) := by
  rw [read, file.file.getSize_eq]

-- The content of a file in flash stays, and what is delivered grows with the
-- position.
theorem delivered_of_run {header : FileHeader} {calls : List Call}
    {file : RomFsFile} {delivered : List UInt8}
    (hr : run step (new header, []) calls = some (file, delivered)) :
    file.file = header ∧ Delivered header.data file.position delivered := by
  induction calls using List.reverseRecOn generalizing file delivered with
  | nil =>
      obtain ⟨rfl, rfl⟩ := Prod.mk.inj (Option.some.inj hr)
      exact ⟨rfl, Delivered.start _⟩
  | append_singleton calls call ih =>
      rw [run_concat, Option.bind_eq_some_iff] at hr
      obtain ⟨⟨before, bytes⟩, hb, hs⟩ := hr
      obtain ⟨rfl, hdel⟩ := ih hb
      cases call with
      | read buffer =>
          simp only [step, read_eq, readAt_eq, Except.map, Option.some.injEq, Prod.mk.injEq] at hs
          obtain ⟨rfl, rfl⟩ := hs
          refine ⟨rfl, ?_⟩
          simpa using hdel.read buffer.length
      | write bytes =>
          obtain ⟨rfl, rfl⟩ := Prod.mk.inj (Option.some.inj hs)
          exact ⟨rfl, hdel⟩

end RomFsFile

section Sequence

open RamFs

theorem readsOn_of_run :
    (∀ calls session, run Session.step Session.new calls = some session →
      ∀ (handle : Nat) file, session.handles[handle]? = some file →
        ReadsOn (session.fs.contents file.data) (Session.delivered handle Session.new calls)
          file.position (file.readInto session.fs)) ∧
    ∀ header calls file delivered,
      run RomFsFile.step (RomFsFile.new header, []) calls = some (file, delivered) →
        ReadsOn header.data delivered file.position file.read := by
  constructor
  · intro calls session hr handle file hf
    obtain ⟨-, hdel⟩ := (Session.delivering_of_run hr).entry handle file hf
    exact readsOn_of_delivered hdel fun position => { file with position := position }
  · intro header calls file delivered hr
    obtain ⟨rfl, hdel⟩ := RomFsFile.delivered_of_run hr
    have hread : file.read = fun buffer =>
        (readAt file.file.data.length file.file.data file.position buffer).map
          fun (buffer, len, position) => (buffer, len, { file with position := position }) :=
      funext fun buffer => RomFsFile.read_eq file buffer
    rw [hread]
    exact readsOn_of_delivered hdel fun position => { file with position := position }

theorem readsOn_log :
    ReadsOn [1, 2, 3] [1, 2] 2 (RamfsFile.readInto
      ⟨[RamFsData.createDirectory "/".toList, ⟨"log".toList, [1, 2, 3], false⟩]⟩
        ⟨1, 2, "log".toList⟩) ∧
      ReadsOn [7, 8] [7] 1 (RomFsFile.read ⟨⟨2, [7, 8], rfl⟩, 1⟩) :=
  ⟨readsOn_of_run.1 [.create "log".toList 0, .write 0 [1, 2], .read 0 2, .write 0 [3]] _ rfl 0 _ rfl,
    readsOn_of_run.2 ⟨2, [7, 8], rfl⟩ [.read [0]] _ _ rfl⟩

end Sequence

end Msos.Fs
