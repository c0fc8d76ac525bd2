import Msos.Fs.SequentialReads
import Msos.Syscalls.Steps

namespace Msos.Syscalls

open Msos.Fs Msos.Kernel Msos.Posix Msos.Library Msos.Library.Fallible Cursor

section Definitions

-- What a call appends to an entry of one of the RamFs
def appended (system : System) (id entry pid : Nat) : Call → List UInt8
  | .write fd bytes =>
      match named system pid fd with
      | some (.mounted other (.ramfsFile file)) =>
          if other = id ∧ file.data = entry then bytes else []
      | _ => []
  | _ => []

-- The same of a whole run: all descriptors of all processes count.
def writtenTo (platform : Platform) (id entry : Nat) :
    System → List (Nat × Call) → List UInt8 :=
  collected platform fun system pid call _ => appended system id entry pid call

def Reply.bytes : Reply → List UInt8
  | .data buffer length => buffer.take length.toNat
  | .code _ => []

def ReadsFrom (pid : Nat) (i : Fin 8) : Nat × Call → Prop
  | (other, .read fd _) => other = pid ∧ slot? fd = some i
  | _ => False

instance (pid : Nat) (i : Fin 8) : DecidablePred (ReadsFrom pid i)
  | (other, .read fd _) => inferInstanceAs (Decidable (other = pid ∧ slot? fd = some i))
  | (_, .open_ _ _) | (_, .write _ _) | (_, .close _) | (_, .ioctl _ _ _)
  | (_, .tcsetattr _ _ _) | (_, .exit) | (_, .createProcess) | (_, .receive _ _) => isFalse id

-- The bytes that the reads on one descriptor return, in order
def delivered (pid : Nat) (i : Fin 8) : List (Nat × Call) → List Reply → List UInt8
  | call :: calls, reply :: replies =>
      (if ReadsFrom pid i call then reply.bytes else []) ++ delivered pid i calls replies
  | _, _ => []

-- The descriptor is not given back.
def Keeps (pid : Nat) (i : Fin 8) : Nat × Call → Prop
  | (other, .close fd) => other = pid → slot? fd ≠ some i
  | (other, .exit) => other ≠ pid
  | _ => True

end Definitions

section Steps

variable {platform : Platform} {system next : System} {pid other : Nat} {call : Call} {reply : Reply}
  {i : Fin 8}

theorem contents_create {instances : Instances} {id entry : Nat} {name : Path} {flags : Int}
    (made : Nat) (h : entry < (instances id).ramfs.files.length) :
    ((Function.update instances made ((instances made).create name flags).1) id).ramfs.contents
        entry = (instances id).ramfs.contents entry ∧
      (instances id).ramfs.files.length ≤
        ((Function.update instances made ((instances made).create name flags).1) id).ramfs.files.length := by
  by_cases hid : id = made
  · subst hid
    rw [Function.update_self]
    simp [FileSystems.create, RamFs.create, RamFs.contents, List.getElem?_append_left h]
  · rw [Function.update_of_ne hid]
    exact ⟨rfl, Nat.le_refl _⟩

theorem contents_writeFile {file : OpenFile} {bytes : List UInt8} {id entry : Nat}
    (h : entry < entries system id) :
    contents (writeFile system bytes file).1 id entry = contents system id entry ++
        (match file with
        | .mounted other (.ramfsFile file) =>
            if other = id ∧ file.data = entry then bytes else []
        | _ => []) ∧
      entries (writeFile system bytes file).1 id = entries system id := by
  cases file with
  | romFsFile file => simp [writeFile]
  | mounted made file =>
      cases file with
      | ramfsFile file =>
          by_cases hid : made = id
          · subst hid
            have hget := List.getElem?_eq_getElem h
            by_cases hentry : file.data = entry
            · simp [writeFile, contents, entries, FileSystems.writeRamFs, RamfsFile.write, RamFs.contents,
                hentry, hget]
            · simp [writeFile, contents, entries, FileSystems.writeRamFs, RamfsFile.write, RamFs.contents,
                hentry]
          · have hne : id ≠ made := fun he => hid he.symm
            simp [writeFile, contents, entries, Function.update_of_ne hne, hid]
      | deviceFsRootFile => simp [writeFile]
      | usartFile usart path => simp [writeFile, contents, entries]
      | appFile entry => simp [writeFile]

-- A request to a file keeps everything but the usarts.
theorem ioctlFile_keeps (cmd lflag : BitVec 32) (file : OpenFile) :
    (ioctlFile system cmd lflag file).1.instances = system.instances ∧
      (ioctlFile system cmd lflag file).1.processes = system.processes ∧
      (ioctlFile system cmd lflag file).1.pidCounter = system.pidCounter := by
  unfold ioctlFile
  split
  · split
    · exact ⟨rfl, rfl, rfl⟩
    · exact ⟨rfl, rfl, rfl⟩
  · exact ⟨rfl, rfl, rfl⟩

-- An entry of a RamFs only grows, by what is written to it.
theorem step_contents
    (h : step platform system pid call = .ok (next, reply))
    {id entry : Nat} (hentry : entry < entries system id) :
    contents next id entry = contents system id entry ++ appended system id entry pid call ∧
      entries system id ≤ entries next id := by
  cases call with
  | open_ filename flags =>
      rcases step_open_cases h with
        ⟨-, rfl⟩ | ⟨_, _, _, made, -, rfl, -, -, -, rfl | ⟨created, name, rfl⟩⟩
      · simp [contents, entries, appended]
      · simp [contents, entries, appended]
      · have hcreate := @contents_create system.instances id entry name flags.toInt created hentry
        simpa [contents, entries, appended] using hcreate
  | read fd buffer =>
      rcases step_read_cases h with ⟨-, rfl, -⟩ | ⟨_, _, _, _, _, _, -, -, -, rfl, -⟩
      · simp [appended]
      · simp [contents, entries, appended]
  | write fd bytes =>
      rcases step_write_cases h with ⟨hnamed, rfl, -⟩ | ⟨file, hnamed, rfl, -⟩
      · simp [appended, hnamed]
      · obtain ⟨hcontents, hentries⟩ := @contents_writeFile system file bytes id entry hentry
        refine ⟨?_, hentries.ge⟩
        rw [hcontents, appended, hnamed]
        cases file with
        | romFsFile file => rfl
        | mounted made file => cases file <;> rfl
  | close fd =>
      rcases step_close_cases h with rfl | ⟨_, _, _, -, -, rfl⟩
      · simp [appended]
      · simp [contents, entries, appended]
  | ioctl fd cmd lflag =>
      rcases ioctl_cases h with ⟨-, rfl⟩ | ⟨file, -, rfl⟩
      · simp [appended]
      · simp [contents, entries, appended, (ioctlFile_keeps cmd lflag file).1]
  | tcsetattr fd optionalActions lflag =>
      rcases step_tcsetattr_cases h with ⟨-, rfl⟩ | ⟨-, file, -, rfl⟩
      · simp [appended]
      · simp [contents, entries, appended, (ioctlFile_keeps tiocseta lflag file).1]
  | exit =>
      obtain ⟨rfl, -⟩ := Prod.mk.inj (Except.ok.inj h)
      simp [contents, entries, appended]
  | createProcess =>
      obtain ⟨rfl, -⟩ := Prod.mk.inj (Except.ok.inj h)
      simp [contents, entries, appended]
  | receive usart byte =>
      obtain ⟨rfl, -⟩ := Prod.mk.inj (Except.ok.inj h)
      simp [contents, entries, appended, onReceived]

theorem processes_writeFile (file : OpenFile) (bytes : List UInt8) :
    (writeFile system bytes file).1.processes = system.processes ∧
      (writeFile system bytes file).1.pidCounter = system.pidCounter := by
  cases file with
  | romFsFile file => exact ⟨rfl, rfl⟩
  | mounted id file => cases file <;> exact ⟨rfl, rfl⟩

theorem numbered_setProcess (hn : Numbered system) {process : Process OpenFile}
    (hprocess : system.processes pid = some process) (after : Option (Process OpenFile)) :
    Numbered (setProcess system pid after) := by
  intro other hle
  have hne : other ≠ pid := by
    rintro rfl
    rw [hn other hle] at hprocess
    cases hprocess
  rw [processes_setProcess_of_ne hne]
  exact hn other hle

theorem numbered_setProcess_none (hn : Numbered system) (pid : Nat) :
    Numbered (setProcess system pid none) := by
  intro other hle
  by_cases he : other = pid
  · subst he
    exact processes_setProcess_self none
  · rw [processes_setProcess_of_ne he]
    exact hn other hle

theorem step_numbered (hn : Numbered system)
    (h : step platform system pid call = .ok (next, reply)) :
    Numbered next := by
  cases call with
  | open_ filename flags =>
      rcases step_open_cases h with ⟨-, rfl⟩ | ⟨_, _, _, made, hprocess, rfl, -⟩
      · exact numbered_setProcess_none hn pid
      · exact @numbered_setProcess { system with instances := made } pid hn _ hprocess _
  | read fd buffer =>
      rcases step_read_cases h with ⟨-, rfl, -⟩ | ⟨_, _, _, _, _, usarts, hprocess, -, -, rfl, -⟩
      · exact hn
      · exact @numbered_setProcess { system with usarts := usarts } pid hn _ hprocess _
  | write fd bytes =>
      rcases step_write_cases h with ⟨-, rfl, -⟩ | ⟨file, -, rfl, -⟩
      · exact hn
      · obtain ⟨hprocesses, hcounter⟩ := @processes_writeFile system file bytes
        rw [Numbered, hprocesses, hcounter]
        exact hn
  | close fd =>
      rcases step_close_cases h with rfl | ⟨_, _, _, hprocess, -, rfl⟩
      · exact hn
      · exact numbered_setProcess hn hprocess _
  | ioctl fd cmd lflag =>
      rcases ioctl_cases h with ⟨-, rfl⟩ | ⟨file, -, rfl⟩
      · exact hn
      · obtain ⟨-, hprocesses, hcounter⟩ := @ioctlFile_keeps system cmd lflag file
        rw [Numbered, hprocesses, hcounter]
        exact hn
  | tcsetattr fd optionalActions lflag =>
      rcases step_tcsetattr_cases h with ⟨-, rfl⟩ | ⟨-, file, -, rfl⟩
      · exact hn
      · obtain ⟨-, hprocesses, hcounter⟩ := @ioctlFile_keeps system tiocseta lflag file
        rw [Numbered, hprocesses, hcounter]
        exact hn
  | exit =>
      obtain ⟨rfl, -⟩ := Prod.mk.inj (Except.ok.inj h)
      exact numbered_setProcess_none hn pid
  | createProcess =>
      obtain ⟨rfl, -⟩ := Prod.mk.inj (Except.ok.inj h)
      intro other hle
      have hle' : system.pidCounter + 1 ≤ other := hle
      have hne : other ≠ system.pidCounter := by omega
      exact (processes_setProcess_of_ne hne _).trans (hn other (by omega))
  | receive usart byte =>
      obtain ⟨rfl, -⟩ := Prod.mk.inj (Except.ok.inj h)
      exact hn

-- A call that writes back a process that still holds the file
theorem fileAt_setProcess_of_held {file : OpenFile} (hat : fileAt system pid i = some file)
    {process after : Process OpenFile} (hprocess : system.processes other = some process)
    (hheld : pid = other → held process i = some file → held after i = some file) :
    fileAt (setProcess system other (some after)) pid i = some file := by
  by_cases he : pid = other
  · subst he
    rw [fileAt_of_process hprocess] at hat
    rw [fileAt_setProcess_self]
    exact hheld rfl hat
  · rw [fileAt_setProcess_of_ne he]
    exact hat

-- A read moves the file on that its own descriptor has, and no other one.
theorem step_read_fileAt {fd : Int} {buffer : List UInt8} {file : OpenFile}
    (hat : fileAt system pid i = some file)
    (h : step platform system other (.read fd buffer) = .ok (next, reply)) :
    ¬ReadsFrom pid i (other, .read fd buffer) ∧ fileAt next pid i = some file ∨
      ∃ after length moved usarts, ReadsFrom pid i (other, .read fd buffer) ∧
        readFile system buffer file = .ok (after, length, moved, usarts) ∧
        fileAt next pid i = some moved ∧ reply = .data after length := by
  obtain ⟨process, hprocess, hheld⟩ := Option.bind_eq_some_iff.mp hat
  rcases step_read_cases h with
    ⟨hnamed, rfl, rfl⟩ | ⟨process', found, after, length, moved, usarts, hprocess', hnamed,
      hread, rfl, rfl⟩
  · refine Or.inl ⟨?_, hat⟩
    rintro ⟨rfl, hs⟩
    rw [named, hs, Option.bind_some, hat] at hnamed
    cases hnamed
  · by_cases he : pid = other
    · subst he
      obtain rfl := Option.some.inj (hprocess.symm.trans hprocess')
      obtain ⟨j, hs, hj⟩ := slot_of_named hnamed
      rw [fileAt_of_process hprocess] at hj
      rw [fileAt_setProcess_self, held_setFile hs hj]
      by_cases hij : j = i
      · subst hij
        obtain rfl := Option.some.inj (hheld.symm.trans hj)
        exact Or.inr ⟨after, length, moved, usarts, ⟨rfl, hs⟩, hread, by rw [if_pos rfl], rfl⟩
      · refine Or.inl ⟨?_, by rwa [if_neg hij]⟩
        rintro ⟨-, hsi⟩
        exact hij (Option.some.inj (hs.symm.trans hsi))
    · refine Or.inl ⟨fun hr => he hr.1.symm, ?_⟩
      rw [fileAt_setProcess_of_ne he]
      exact hat

-- The file at a descriptor stays until it is read from or given back.
theorem step_fileAt (hn : Numbered system) {file : OpenFile}
    (hat : fileAt system pid i = some file)
    (hk : Keeps pid i (other, call))
    (h : step platform system other call = .ok (next, reply)) :
    ¬ReadsFrom pid i (other, call) ∧ fileAt next pid i = some file ∨
      ∃ fd buffer after length moved usarts, call = .read fd buffer ∧
        ReadsFrom pid i (other, call) ∧
        readFile system buffer file = .ok (after, length, moved, usarts) ∧
        fileAt next pid i = some moved ∧ reply = .data after length := by
  obtain ⟨process, hprocess, hheld⟩ := Option.bind_eq_some_iff.mp hat
  cases call with
  | open_ filename flags =>
      refine Or.inl ⟨id, ?_⟩
      rcases step_open_cases h with
        ⟨hnone, rfl⟩ | ⟨process', after, _, made, hprocess', rfl, -, -, hafter, -⟩
      · have hne : pid ≠ other := by
          rintro rfl
          rw [hnone] at hprocess
          cases hprocess
        rwa [fileAt_setProcess_of_ne hne]
      · apply fileAt_setProcess_of_held hat hprocess'
        intro _ hheld
        rcases hafter with ⟨rfl, -⟩ | ⟨added, rfl, -⟩
        · exact hheld
        · exact held_addFile (some added) hheld
  | read fd buffer =>
      rcases step_read_fileAt hat h with hother | ⟨after, length, moved, usarts, hread⟩
      · exact Or.inl hother
      · exact Or.inr ⟨fd, buffer, after, length, moved, usarts, rfl, hread⟩
  | write fd bytes =>
      refine Or.inl ⟨id, ?_⟩
      rcases step_write_cases h with ⟨-, rfl, -⟩ | ⟨written, -, rfl, -⟩
      · exact hat
      · rw [fileAt, (processes_writeFile written bytes).1]
        exact hat
  | close fd =>
      refine Or.inl ⟨id, ?_⟩
      rcases step_close_cases h with rfl | ⟨process', after, code, hprocess', hremove, rfl⟩
      · exact hat
      · apply fileAt_setProcess_of_held hat hprocess'
        intro he hheld
        rw [held_removeFile hremove (hk he.symm), hheld]
  | ioctl fd cmd lflag =>
      refine Or.inl ⟨id, ?_⟩
      rcases ioctl_cases h with ⟨-, rfl⟩ | ⟨named, -, rfl⟩
      · exact hat
      · rw [fileAt, (ioctlFile_keeps cmd lflag named).2.1]
        exact hat
  | tcsetattr fd optionalActions lflag =>
      refine Or.inl ⟨id, ?_⟩
      rcases step_tcsetattr_cases h with ⟨-, rfl⟩ | ⟨-, named, -, rfl⟩
      · exact hat
      · rw [fileAt, (ioctlFile_keeps tiocseta lflag named).2.1]
        exact hat
  | exit =>
      obtain ⟨rfl, -⟩ := Prod.mk.inj (Except.ok.inj h)
      refine Or.inl ⟨id, ?_⟩
      rw [fileAt_setProcess_of_ne (Ne.symm hk)]
      exact hat
  | createProcess =>
      obtain ⟨rfl, -⟩ := Prod.mk.inj (Except.ok.inj h)
      refine Or.inl ⟨id, ?_⟩
      have hne : pid ≠ system.pidCounter := by
        rintro rfl
        rw [hn _ (Nat.le_refl _)] at hprocess
        cases hprocess
      exact (fileAt_setProcess_of_ne hne _ i).trans hat
  | receive usart byte =>
      obtain ⟨rfl, -⟩ := Prod.mk.inj (Except.ok.inj h)
      exact Or.inl ⟨id, hat⟩

theorem readFile_ramfsFile (id : Nat) (file : RamfsFile) (buffer : List UInt8) :
    readFile system buffer (.mounted id (.ramfsFile file)) =
      .ok (chunk (contents system id file.data) file.position buffer.length ++
          buffer.drop (chunk (contents system id file.data) file.position buffer.length).length,
        (chunk (contents system id file.data) file.position buffer.length).length,
        .mounted id (.ramfsFile { file with position := file.position +
          (chunk (contents system id file.data) file.position buffer.length).length }),
        system.usarts) := by
  rw [readFile, RamFs.Session.readInto_eq, RamFs.Session.read_eq]
  rfl

-- A descriptor on an entry stays on it, and what has been delivered is still
-- the content up to its position.
theorem step_stream (hn : Numbered system) {id : Nat} {file : RamfsFile} {sofar : List UInt8}
    (hat : fileAt system pid i = some (.mounted id (.ramfsFile file)))
    (hentry : file.data < entries system id)
    (hd : Delivered (contents system id file.data) file.position sofar)
    (hk : Keeps pid i (other, call))
    (h : step platform system other call = .ok (next, reply)) :
    ∃ position,
      fileAt next pid i = some (.mounted id (.ramfsFile { file with position := position })) ∧
        Delivered (contents next id file.data) position
          (sofar ++ if ReadsFrom pid i (other, call) then reply.bytes else []) := by
  obtain ⟨hcontents, -⟩ := step_contents h hentry
  rcases step_fileAt hn hat hk h with
    ⟨hnot, hnext⟩ | ⟨fd, buffer, after, length, moved, usarts, rfl, hreads, hread, hnext, rfl⟩
  · refine ⟨file.position, hnext, ?_⟩
    rw [if_neg hnot, List.append_nil, hcontents]
    exact hd.append _
  · rw [readFile_ramfsFile] at hread
    simp only [Except.ok.injEq, Prod.mk.injEq] at hread
    obtain ⟨rfl, rfl, rfl, -⟩ := hread
    refine ⟨_, hnext, ?_⟩
    have hbytes : ∀ (piece buffer : List UInt8),
        Reply.bytes (.data (piece ++ buffer.drop piece.length) piece.length) = piece :=
      fun piece buffer => by simp [Reply.bytes]
    have hnone : appended system id file.data other (.read fd buffer) = [] := rfl
    rw [if_pos hreads, hbytes, hcontents, hnone, List.append_nil]
    exact hd.read buffer.length

end Steps

section Runs

variable {platform : Platform} {system last : System} {pid : Nat} {calls : List (Nat × Call)}
  {replies : List Reply}
  {i : Fin 8}

theorem run_numbered (hn : Numbered system)
    (h : run platform system calls = .ok (last, replies)) : Numbered last :=
  run_invariant (fun _ _ _ _ _ hn hs => step_numbered hn hs) hn h

theorem run_contents {id entry : Nat} (hentry : entry < entries system id)
    (h : run platform system calls = .ok (last, replies)) :
    contents last id entry = contents system id entry ++
      writtenTo platform id entry system calls := by
  induction calls generalizing system replies with
  | nil =>
      obtain ⟨rfl, -⟩ := Prod.mk.inj (Except.ok.inj h)
      rw [writtenTo, collected, List.append_nil]
  | cons head rest ih =>
      obtain ⟨next, reply, tail, hs, hr, rfl⟩ := run_cons_eq_ok h
      obtain ⟨hcontents, hle⟩ := step_contents hs hentry
      rw [ih (hentry.trans_le hle) hr, hcontents, List.append_assoc, writtenTo,
        collected_cons hs]

-- The position of a descriptor is the length of what it has delivered, along
-- any run that does not give it back.
theorem run_stream (hn : Numbered system) {id : Nat} {file : RamfsFile} {sofar : List UInt8}
    (hat : fileAt system pid i = some (.mounted id (.ramfsFile file)))
    (hentry : file.data < entries system id)
    (hd : Delivered (contents system id file.data) file.position sofar)
    (hk : ∀ call ∈ calls, Keeps pid i call)
    (h : run platform system calls = .ok (last, replies)) :
    ∃ position,
      fileAt last pid i = some (.mounted id (.ramfsFile { file with position := position })) ∧
        Delivered (contents last id file.data) position
          (sofar ++ delivered pid i calls replies) := by
  induction calls generalizing system file sofar replies with
  | nil =>
      obtain ⟨rfl, rfl⟩ := Prod.mk.inj (Except.ok.inj h)
      have hnone : delivered pid i [] [] = [] := rfl
      exact ⟨file.position, hat, by rwa [hnone, List.append_nil]⟩
  | cons head rest ih =>
      obtain ⟨next, reply, tail, hs, hr, rfl⟩ := run_cons_eq_ok h
      obtain ⟨position, hnext, hdnext⟩ :=
        step_stream hn hat hentry hd (hk head List.mem_cons_self) hs
      have hle := hentry.trans_le (step_contents hs hentry).2
      obtain ⟨final, hlast, hdlast⟩ := ih (step_numbered hn hs) hnext hle hdnext
        (fun call hm => hk call (List.mem_cons_of_mem _ hm)) hr
      refine ⟨final, hlast, ?_⟩
      rwa [delivered, ← List.append_assoc]

end Runs

section Opening

variable {platform : Platform} {system opened last : System} {pid id : Nat} {filename name : Path}
  {flags : BitVec 32}
  {i : Fin 8}

theorem get_inRamFs (hin : InRamFs platform.library platform.volumes filename id name)
    (current : Option (Process OpenFile)) (instances : Instances) (code : Int) :
    Vfs.get platform.library.lexicallyRelative
        (volumePoints platform.library (print .quiet current) platform.volumes)
        (platform.library.lexicallyNormal filename) code instances =
      (((instances id).ramfs.get name code).map fun file => .mounted id (.ramfsFile file),
        instances) := by
  obtain ⟨mp, hbest, hvolume, rfl⟩ := hin.best
  simp only [Vfs.get, Vfs.forward, getBestMountPoint_volumePoints, hbest, Option.map_some, hvolume]
  have hsame : Function.update instances id (instances id) = instances :=
    Function.update_eq_self id instances
  refine Prod.ext ?_ hsame
  exact Option.map_map ..

theorem create_inRamFs (hin : InRamFs platform.library platform.volumes filename id name)
    (output : List (List Char) → StateM Instances Unit) (instances : Instances) (code : Int) :
    Vfs.create platform.library.lexicallyRelative
        (volumePoints platform.library output platform.volumes)
        (platform.library.lexicallyNormal filename) code instances =
      (some (.mounted id (.ramfsFile ((instances id).ramfs.create name code).2)),
        Function.update instances id ((instances id).create name code).1) := by
  obtain ⟨mp, hbest, hvolume, rfl⟩ := hin.best
  simp only [Vfs.create, Vfs.forward, getBestMountPoint_volumePoints, hbest, Option.map_some,
    hvolume]
  rfl

instance (flags : BitVec 32) : Decidable (Creates flags) :=
  inferInstanceAs (Decidable (flags &&& oAccmode ≠ oRdonly ∧ flags &&& oCreat = oCreat))

-- The entry that an open of a name in a RamFs is for
def Opens (system : System) (id : Nat) (name : Path) (flags : BitVec 32) (entry : Nat) : Prop :=
  if Creates flags then entry = entries system id
  else ((system.instances id).ramfs.get name flags.toInt).map RamfsFile.data = some entry

-- An open that returns a descriptor has found its file.
theorem openFile_found {State OpenedFile : Type} {normal : Path → Path}
    {relative : Path → Path → Path}
    {points : List (MountPoint (IFileSystem (StateM State) OpenedFile))}
    {stat : State → OpenedFile → BitVec 16} {process : Process OpenedFile} {state after : State}
    {found : Option OpenedFile} (hc : ¬Creates flags)
    (hget : Vfs.get relative points (normal filename) flags.toInt state = (found, after))
    (hcode : 0 ≤ (openFile normal relative points stat (some process) filename flags state).1.2) :
    ∃ file, found = some file ∧
      openFile normal relative points stat (some process) filename flags state =
        ((some (process.addFile (some file)).1, (process.addFile (some file)).2), after) := by
  by_cases hread : flags &&& oAccmode = oRdonly
  · simp only [openFile, if_pos hread, bind, StateT.bind, hget] at hcode ⊢
    cases found with
    | none => exact absurd hcode (Int.not_le.mpr (Int.negSucc_lt_zero 0))
    | some file =>
        simp only [get_bind] at hcode ⊢
        by_cases hdir : stat after file &&& sIfdir = 0
        · simp only [hdir, ne_eq, not_true_eq_false, if_false]
          exact ⟨file, rfl, rfl⟩
        · simp only [hdir, ne_eq, not_false_eq_true, if_true] at hcode
          exact absurd hcode (Int.not_le.mpr (Int.negSucc_lt_zero 1))
  · have hnocreat : ¬flags &&& oCreat = oCreat := fun h => hc ⟨hread, h⟩
    simp only [openFile, if_neg hread, if_neg hnocreat, bind, StateT.bind, hget] at hcode ⊢
    cases found with
    | none => exact absurd hcode (Int.not_le.mpr (Int.negSucc_lt_zero 0))
    | some file => exact ⟨file, rfl, rfl⟩

-- A descriptor that open returns is at the start of its entry, which is empty
-- if it is new.
theorem step_open (hin : InRamFs platform.library platform.volumes filename id name)
    (h : step platform system pid (.open_ filename flags) =
      .ok (opened, .code i.val)) :
    ∃ file : RamfsFile, fileAt opened pid i = some (.mounted id (.ramfsFile file)) ∧
      file.position = 0 ∧ Opens system id name flags file.data ∧
      file.data < entries opened id ∧
      contents opened id file.data = contents system id file.data := by
  cases hprocess : system.processes pid with
  | none =>
      rw [step, hprocess] at h
      have hcode := Reply.code.inj (Prod.mk.inj (Except.ok.inj h)).2
      have := i.isLt
      change (-1 : Int) = i.val at hcode
      omega
  | some process =>
      by_cases hc : Creates flags
      · have houtcome := @openFile_creates _ _ platform.library.lexicallyNormal _ _
          (volumeStat platform.romStat) process filename flags _ _ _ hc
          (create_inRamFs hin (print .quiet (some process)) system.instances flags.toInt)
        rw [step, hprocess, openVolumes, houtcome] at h
        obtain ⟨rfl, hreply⟩ := Prod.mk.inj (Except.ok.inj h)
        have hcode := Reply.code.inj hreply
        refine ⟨((system.instances id).ramfs.create name flags.toInt).2, ?_, rfl, ?_, ?_, ?_⟩
        · rw [fileAt_setProcess_self]
          exact held_of_addFile hcode
        · rw [Opens, if_pos hc]
          rfl
        · simp [entries, FileSystems.create, RamFs.create]
        · simp [contents, FileSystems.create, RamFs.create, RamFs.contents, RamFsData.createFile]
      · have hget := get_inRamFs hin (some process) system.instances flags.toInt
        have hcode : (openVolumes platform.library platform.volumes platform.romStat .quiet (some process)
            filename flags system.instances).1.2 = i.val := by
          rw [step, hprocess] at h
          exact Reply.code.inj (Prod.mk.inj (Except.ok.inj h)).2
        obtain ⟨file, hfound, houtcome⟩ := @openFile_found filename flags _ _ _ _ _
          (volumeStat platform.romStat) process _ _ _ hc hget (by rw [openVolumes] at hcode; omega)
        obtain ⟨ramfsFile, hramfs, rfl⟩ := Option.map_eq_some_iff.mp hfound
        rw [step, hprocess, openVolumes, houtcome] at h
        obtain ⟨rfl, hreply⟩ := Prod.mk.inj (Except.ok.inj h)
        obtain ⟨hposition, hentry⟩ := RamFs.Session.get_fresh hramfs
        refine ⟨ramfsFile, ?_, hposition, ?_, hentry, rfl⟩
        · rw [fileAt_setProcess_self]
          exact held_of_addFile (Reply.code.inj hreply)
        · rw [Opens, if_neg hc, hramfs, Option.map_some]

-- From an open of a name in a RamFs on, whatever all processes call: the
-- descriptor stays on its entry, the entry holds what it held and what has been
-- written to it, and the reads have returned its front up to the position, from
-- where the next read goes on.
theorem run_readsOn {instances : Instances} {usarts : Nat → Usart} {before rest : List (Nat × Call)}
    {sofar replies : List Reply}
    (hb : run platform (booted instances usarts) before =
      .ok (system, sofar))
    (hin : InRamFs platform.library platform.volumes filename id name)
    (ho : step platform system pid (.open_ filename flags) =
      .ok (opened, .code i.val))
    (hr : run platform opened rest = .ok (last, replies))
    (hk : ∀ call ∈ rest, Keeps pid i call) :
    ∃ file : RamfsFile, fileAt last pid i = some (.mounted id (.ramfsFile file)) ∧
      Opens system id name flags file.data ∧
      contents last id file.data = contents system id file.data ++
        writtenTo platform id file.data opened rest ∧
      delivered pid i rest replies = (contents last id file.data).take file.position ∧
      ReadsOn (contents last id file.data) (delivered pid i rest replies) file.position
        (file.readInto (last.instances id).ramfs) := by
  have hn := run_numbered (numbered_booted instances usarts) hb
  obtain ⟨file, hat, hposition, hopens, hentry, hcontents⟩ := step_open hin ho
  have hd : Delivered (contents opened id file.data) file.position [] := by
    rw [hposition]
    exact Delivered.start _
  obtain ⟨position, hlast, hdlast⟩ := run_stream (step_numbered hn ho) hat hentry hd hk hr
  refine ⟨{ file with position := position }, hlast, hopens, ?_, hdlast.eq_take, ?_⟩
  · rw [run_contents hentry hr, hcontents]
  · exact readsOn_of_delivered hdlast fun position => { file with position := position }

-- Two processes write to one log, and the first one reads it.
def logVolume : List (MountPoint (Volume RomFsFile)) := [⟨"/".toList, .mounted 0 .ramfs⟩]

def logPlatform : Platform where
  library := plainPaths
  volumes := logVolume
  romStat := fun _ => 0
  tty := none
  shifter := .arm
  push := fun queue byte => queue ++ [byte]

def logStart : System := booted (fun _ => kernelSystems) fun _ => ⟨.new, []⟩

def logCalls : List (Nat × Call) :=
  [(1, .write 3 [1, 2]), (2, .open_ "/log".toList 1), (1, .read 3 [9, 9]), (2, .write 3 [3]),
    (2, .exit)]

theorem readsOn_shared_log : ∃ (last : System) (file : RamfsFile),
    (run logPlatform logStart ((0, .createProcess) ::
        (0, .createProcess) :: (1, .open_ "/log".toList 0x201) :: logCalls)).map Prod.fst = .ok last ∧
      contents last 0 file.data = [1, 2, 3] ∧
      [1, 2] = (contents last 0 file.data).take file.position ∧
      ReadsOn (contents last 0 file.data) [1, 2] file.position
        (file.readInto (last.instances 0).ramfs) := by
  have hin : InRamFs plainPaths logVolume "/log".toList 0 "log".toList :=
    ⟨⟨"/".toList, .mounted 0 .ramfs⟩, rfl, rfl, by decide⟩
  obtain ⟨file, -, hopens, hcontents, hdelivered, hreads⟩ := @run_readsOn logPlatform _ _ _ 1 0
    "/log".toList "log".toList 0x201 3 _ _ [(0, .createProcess), (0, .createProcess)] logCalls _ _
    (rfl : run logPlatform logStart _ = _) hin rfl rfl (by simp [logCalls, Keeps])
  have hdata : file.data = 3 := hopens
  refine ⟨_, file, ?_, ?_, hdelivered, hreads⟩
  · rfl
  · rw [hcontents, hdata]
    rfl

end Opening

end Msos.Syscalls
