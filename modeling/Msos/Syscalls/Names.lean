import Msos.Syscalls.Streams

namespace Msos.Fs.RamFs

variable {fs next : RamFs} {path : Path} {flags : Int} {entry : Nat}

theorem get_eq_none (h : fs.get path flags = none) (hroot : fs.files ≠ []) :
    path ≠ [] ∧ fs.filenames.findIdx? (fun filename => filename = path) = none := by
  by_cases hpath : path = []
  · rw [get, if_pos hpath, Option.map_eq_none_iff, List.head?_eq_none_iff] at h
    exact absurd h hroot
  · rw [get, if_neg hpath, Option.map_eq_none_iff] at h
    refine ⟨hpath, ?_⟩
    rw [filenames, List.findIdx?_map]
    exact h

-- A name leads to the first entry that has it, so entries that are added behind
-- the others do not change where it leads.
theorem get_of_prefix (h : (fs.get path flags).map RamfsFile.data = some entry)
    (hp : fs.filenames <+: next.filenames) (other : Int) :
    (next.get path other).map RamfsFile.data = some entry := by
  obtain ⟨added, hadded⟩ := hp
  by_cases hpath : path = []
  · rw [get, if_pos hpath, Option.map_map] at h ⊢
    obtain ⟨front, hfront, rfl⟩ := Option.map_eq_some_iff.mp h
    have hne : next.filenames ≠ [] := by
      rw [← hadded, filenames]
      intro hnil
      rw [List.append_eq_nil_iff, List.map_eq_nil_iff] at hnil
      rw [hnil.1] at hfront
      cases hfront
    have hfiles : next.files ≠ [] := fun hnil => hne (by rw [filenames, hnil, List.map_nil])
    rw [List.head?_eq_some_head hfiles]
    rfl
  · have hfind (fs : RamFs) (flags : Int) : (fs.get path flags).map RamfsFile.data =
        fs.filenames.findIdx? fun filename => filename = path := by
      rw [get, if_neg hpath, Option.map_map, filenames, List.findIdx?_map]
      exact Option.map_id' ..
    rw [hfind] at h ⊢
    rw [← hadded, List.findIdx?_append, h, Option.some_or]

-- A name that leads nowhere leads to the entry that is created for it.
theorem get_create (h : fs.get path flags = none) (hroot : fs.files ≠ []) (other : Int) :
    ((fs.create path flags).1.get path other).map RamfsFile.data = some fs.files.length := by
  obtain ⟨hpath, hfind⟩ := get_eq_none h hroot
  rw [filenames, List.findIdx?_map] at hfind
  have hfound : (fs.create path flags).1.files.findIdx? (fun file => file.filename = path) =
      some fs.files.length := by
    rw [create, List.findIdx?_append]
    have hnone : fs.files.findIdx? (fun file => decide (file.filename = path)) = none := hfind
    rw [hnone]
    simp [RamFsData.createFile]
  rw [get, if_neg hpath, hfound]
  rfl

end Msos.Fs.RamFs

namespace Msos.Syscalls

open Msos.Fs Msos.Posix Msos.Library.Cursor

section Steps

variable {platform : Platform} {system next last : System} {pid id : Nat} {call : Call}
  {reply : Reply}

def filenames (system : System) (id : Nat) : List Path := (system.instances id).ramfs.filenames

theorem filenames_create (instances : Instances) (made : Nat) (name : Path) (flags : Int) :
    (instances id).ramfs.filenames <+:
      ((Function.update instances made ((instances made).create name flags).1) id).ramfs.filenames := by
  by_cases hid : id = made
  · subst hid
    rw [Function.update_self]
    refine ⟨[name], ?_⟩
    simp [FileSystems.create, RamFs.create, RamFs.filenames, RamFsData.createFile]
  · rw [Function.update_of_ne hid]

theorem filenames_writeFile (file : OpenFile) (bytes : List UInt8) :
    filenames (writeFile system bytes file).1 id = filenames system id := by
  cases file with
  | romFsFile file => rfl
  | mounted made file =>
      cases file with
      | ramfsFile file =>
          by_cases hid : id = made
          · subst hid
            simp only [writeFile, filenames, Function.update_self, FileSystems.writeRamFs, RamfsFile.write,
              RamFs.filenames]
            apply List.ext_getElem
            · simp
            · intro i _ _
              simp [List.getElem_modify, apply_ite]
          · simp [writeFile, filenames, Function.update_of_ne hid]
      | deviceFsRootFile => rfl
      | usartFile usart path => rfl
      | appFile entry => rfl

-- Names are only added, behind the others.
theorem step_filenames (h : step platform system pid call = .ok (next, reply)) :
    filenames system id <+: filenames next id := by
  cases call with
  | open_ filename flags =>
      rcases step_open_cases h with
        ⟨-, rfl⟩ | ⟨_, _, _, made, -, rfl, -, -, -, rfl | ⟨created, name, rfl⟩⟩
      · exact List.prefix_rfl
      · exact List.prefix_rfl
      · exact filenames_create system.instances created name flags.toInt
  | read fd buffer =>
      rcases step_read_cases h with ⟨-, rfl, -⟩ | ⟨_, _, _, _, _, _, -, -, -, rfl, -⟩
      · exact List.prefix_rfl
      · exact List.prefix_rfl
  | write fd bytes =>
      rcases step_write_cases h with ⟨-, rfl, -⟩ | ⟨file, -, rfl, -⟩
      · exact List.prefix_rfl
      · rw [filenames_writeFile]
  | close fd =>
      rcases step_close_cases h with rfl | ⟨_, _, _, -, -, rfl⟩
      · exact List.prefix_rfl
      · exact List.prefix_rfl
  | ioctl fd cmd lflag =>
      rcases ioctl_cases h with ⟨-, rfl⟩ | ⟨file, -, rfl⟩
      · exact List.prefix_rfl
      · rw [filenames, filenames, (ioctlFile_keeps cmd lflag file).1]
  | tcsetattr fd optionalActions lflag =>
      rcases step_tcsetattr_cases h with ⟨-, rfl⟩ | ⟨-, file, -, rfl⟩
      · exact List.prefix_rfl
      · rw [filenames, filenames, (ioctlFile_keeps tiocseta lflag file).1]
  | exit =>
      obtain ⟨rfl, -⟩ := Prod.mk.inj (Except.ok.inj h)
      exact List.prefix_rfl
  | createProcess =>
      obtain ⟨rfl, -⟩ := Prod.mk.inj (Except.ok.inj h)
      exact List.prefix_rfl
  | receive usart byte =>
      obtain ⟨rfl, -⟩ := Prod.mk.inj (Except.ok.inj h)
      exact List.prefix_rfl

theorem run_filenames {calls : List (Nat × Call)} {replies : List Reply}
    (h : run platform system calls = .ok (last, replies)) :
    filenames system id <+: filenames last id :=
  @run_invariant _ _ _ _ _ (fun system' => filenames system id <+: filenames system' id)
    (fun _ _ _ _ _ hinv hs => hinv.trans (step_filenames hs)) List.prefix_rfl h

end Steps

section Sharing

variable {platform : Platform} {system created shared opened last : System} {id : Nat}
  {writer reader : Nat} {name filename other : Path} {create flags : BitVec 32} {i j : Fin 8}
  {instances : Instances} {usarts : Nat → Usart} {before middle rest : List (Nat × Call)}
  {sofar answers replies : List Reply}

-- An open that creates an entry for a name that has none gives the name to it.
theorem get_of_open (hin : InRamFs platform.library platform.volumes filename id name)
    (hnew : (system.instances id).ramfs.get name create.toInt = none) (hc : Creates create)
    (h : step platform system writer (.open_ filename create) = .ok (created, .code i.val))
    (code : Int) :
    ((created.instances id).ramfs.get name code).map RamfsFile.data = some (entries system id) := by
  obtain ⟨root, files, hfiles, -⟩ := (system.instances id).ramfs_root
  have hroot : (system.instances id).ramfs.files ≠ [] := by
    rw [hfiles]
    exact List.cons_ne_nil _ _
  cases hprocess : system.processes writer with
  | none =>
      rw [step, hprocess] at h
      have hcode := Reply.code.inj (Prod.mk.inj (Except.ok.inj h)).2
      have := i.isLt
      change (-1 : Int) = i.val at hcode
      omega
  | some process =>
      have houtcome := @openFile_creates _ _ platform.library.lexicallyNormal _ _
        (volumeStat platform.romStat) process filename create _ _ _ hc
        (create_inRamFs hin (print .quiet (some process)) system.instances create.toInt)
      rw [step, hprocess, openVolumes, houtcome] at h
      obtain ⟨rfl, -⟩ := Prod.mk.inj (Except.ok.inj h)
      have hget := RamFs.get_create hnew hroot code
      simpa [FileSystems.create, entries] using hget

-- What has been written to a file under its name, through any descriptor of any
-- process and at any time, is what another process reads that opens it by this name.
theorem run_sharesByName
    (hb : run platform (booted instances usarts) before = .ok (system, sofar))
    (hin : InRamFs platform.library platform.volumes filename id name)
    (hnew : (system.instances id).ramfs.get name create.toInt = none) (hc : Creates create)
    (hw : step platform system writer (.open_ filename create) = .ok (created, .code i.val))
    (hm : run platform created middle = .ok (shared, answers))
    (hother : InRamFs platform.library platform.volumes other id name) (hf : ¬Creates flags)
    (hr : step platform shared reader (.open_ other flags) = .ok (opened, .code j.val))
    (hl : run platform opened rest = .ok (last, replies)) :
    ∃ written file : RamfsFile, fileAt created writer i = some (.mounted id (.ramfsFile written)) ∧
      fileAt opened reader j = some (.mounted id (.ramfsFile file)) ∧
      written.data = entries system id ∧ file.data = entries system id ∧
      contents last id (entries system id) =
        writtenTo platform id (entries system id) created middle ++
          writtenTo platform id (entries system id) opened rest ∧
      ((∀ call ∈ rest, Keeps reader j call) → ∃ after : RamfsFile,
        fileAt last reader j = some (.mounted id (.ramfsFile after)) ∧
        after.data = entries system id ∧
        delivered reader j rest replies =
          (contents last id (entries system id)).take after.position ∧
        ReadsOn (contents last id (entries system id)) (delivered reader j rest replies)
          after.position (after.readInto (last.instances id).ramfs)) := by
  have hn := step_numbered (run_numbered (numbered_booted instances usarts) hb) hw
  obtain ⟨written, hwritten, -, hopens, hentry, hempty⟩ := step_open hin hw
  rw [Opens, if_pos hc] at hopens
  obtain ⟨file, hat, hposition, hfound, hopened, hcontents⟩ := step_open hother hr
  -- the reader's open finds the first entry of the name, which is the created one
  rw [Opens, if_neg hf] at hfound
  have hlater := RamFs.get_of_prefix (get_of_open hin hnew hc hw flags.toInt)
    (run_filenames hm) flags.toInt
  have hfile : file.data = entries system id := Option.some.inj (hfound.symm.trans hlater)
  have hd : Delivered (contents opened id file.data) file.position [] := by
    rw [hposition]
    exact Delivered.start _
  have hnone : contents system id (entries system id) = [] := by
    rw [contents, RamFs.contents, entries, List.getElem?_length]
    rfl
  have hfirst := run_contents hentry hm
  have hrest := run_contents hopened hl
  rw [hopens] at hfirst hempty
  have hnumbered := step_numbered (run_numbered hn hm) hr
  refine ⟨written, file, hwritten, hat, hopens, hfile, ?_, fun hk => ?_⟩
  · rw [hfile] at hrest hcontents
    rw [hrest, hcontents, hfirst, hempty, hnone, List.nil_append]
  · obtain ⟨position, hlast, hdlast⟩ := run_stream hnumbered hat hopened hd hk hl
    have hreads := readsOn_of_delivered hdlast fun position => { file with position := position }
    rw [List.nil_append] at hdlast hreads
    rw [← hfile]
    exact ⟨{ file with position := position }, hlast, rfl, hdlast.eq_take, hreads⟩

def sharedCalls : List (Nat × Call) :=
  [(1, .write 3 [1, 2]), (2, .open_ "/log".toList 0x201), (2, .write 3 [7])]

theorem sharesByName_log : ∃ (last : System) (file : RamfsFile),
    (run logPlatform logStart ([(0, .createProcess), (0, .createProcess),
        (1, .open_ "/log".toList 0x201)] ++ sharedCalls ++ [(2, .open_ "/log".toList 0),
        (1, .write 3 [3]), (2, .read 4 [9, 9])])).map Prod.fst = .ok last ∧
      contents last 0 3 = [1, 2, 3] ∧
      [1, 2] = (contents last 0 3).take file.position ∧
      ReadsOn (contents last 0 3) [1, 2] file.position
        (file.readInto (last.instances 0).ramfs) := by
  have hin : InRamFs plainPaths logVolume "/log".toList 0 "log".toList :=
    ⟨⟨"/".toList, .mounted 0 .ramfs⟩, rfl, rfl, by decide⟩
  obtain ⟨_, _, -, -, -, -, hcontents, hreading⟩ := @run_sharesByName logPlatform _ _ _ _ _ 0 1 2
    "log".toList "/log".toList "/log".toList 0x201 0 3 4 _ _
    [(0, .createProcess), (0, .createProcess)] sharedCalls [(1, .write 3 [3]), (2, .read 4 [9, 9])]
    _ _ _ (rfl : run logPlatform logStart _ = _) hin rfl (by decide) rfl rfl hin (by decide) rfl
    rfl
  obtain ⟨file, -, -, hdelivered, hreads⟩ := hreading (by simp [Keeps])
  exact ⟨_, file, rfl, hcontents, hdelivered, hreads⟩

end Sharing

end Msos.Syscalls
