import Msos.Kernel.FileDescriptors.Theorems
import Msos.Library.Fallible
import Msos.Syscalls

namespace Msos.Syscalls

open Msos.Fs Msos.Kernel Msos.Posix Msos.Library Msos.Library.Fallible

section Held

variable {shifter : Shifter} {process next : Process OpenFile} {fd code : Int} {i : Fin 8}
  {file : OpenFile}

-- The file at a descriptor that is in use
def held (process : Process OpenFile) (i : Fin 8) : Option OpenFile :=
  if process.fdMap.getLsbD i.val then process.fd i else none

theorem inUse_iff (hs : slot? fd = some i) :
    process.fdMap &&& shifter.one fd ≠ 0 ↔ process.fdMap.getLsbD i.val = true := by
  rw [Ne, Process.and_one_eq_zero_iff, Process.count_of_slot hs, Bool.not_eq_false]

theorem getFile_of_slot (hs : slot? fd = some i) :
    process.getFile shifter fd = .ok (held process i) := by
  simp only [Process.getFile, held, inUse_iff hs, hs]
  by_cases hbit : process.fdMap.getLsbD i.val = true
  · simp [hbit]
  · simp [hbit]

-- A descriptor in use stays as it is when another one is taken.
theorem held_addFile (added : Option OpenFile) (h : held process i = some file) :
    held (process.addFile added).1 i = some file := by
  unfold Process.addFile
  split
  · rename_i j hfind
    have hfree := List.find?_some hfind
    rw [decide_eq_true_iff, BitMap.and_bit_eq_zero_iff] at hfree
    have hij : i ≠ j := by
      rintro rfl
      rw [held, hfree] at h
      cases h
    have hval : i.val ≠ j.val := fun he => hij (Fin.ext he)
    simpa [held, BitMap.getLsbD_or_bit process.fdMap (show j.val < 32 by omega), hij, hval] using h
  · exact h

theorem held_of_addFile {added : Option OpenFile}
    (h : (process.addFile added).2 = i.val) : held (process.addFile added).1 i = added := by
  revert h
  unfold Process.addFile
  split
  · rename_i j hfind
    intro h
    obtain rfl : j = i := Fin.ext (Int.ofNat.inj h)
    simp [held, BitMap.getLsbD_or_bit process.fdMap (show j.val < 32 by omega)]
  · intro h
    have := i.isLt
    simp only at h
    omega

-- The descriptors but the one that is given back keep their files.
theorem held_removeFile (h : process.removeFile shifter fd = .ok (next, code))
    (hne : slot? fd ≠ some i) : held next i = held process i := by
  unfold Process.removeFile at h
  split at h
  · cases hs : slot? fd with
    | none => simp [hs] at h
    | some j =>
        have hone : shifter.one fd = BitMap.bit 32 j.val := by
          rw [Shifter.one, Process.count_of_slot hs]
        have hij : i ≠ j := by
          rintro rfl
          exact hne hs
        have hval : i.val ≠ j.val := fun he => hij (Fin.ext he)
        simp only [hs, hone, Except.ok.injEq, Prod.mk.injEq] at h
        obtain ⟨rfl, -⟩ := h
        simp only [held, BitMap.getLsbD_and_not_bit, hij, hval, ne_eq, not_false_eq_true,
          decide_true, Bool.and_true, if_false]
  · obtain ⟨rfl, -⟩ := Prod.mk.inj (Except.ok.inj h)
    rfl

theorem held_setFile (hs : slot? fd = some i) (h : held process i = some file)
    (moved : OpenFile) (j : Fin 8) :
    held (setFile process fd moved) j = if i = j then some moved else held process j := by
  simp only [held, setFile, hs, Option.some.injEq]
  by_cases hij : i = j
  · subst hij
    have hbit : process.fdMap.getLsbD i.val = true := by
      by_contra hclear
      simp [held, hclear] at h
    simp [hbit]
  · simp [hij]

end Held

section System

variable (system : System)

def fileAt (pid : Nat) (i : Fin 8) : Option OpenFile :=
  (system.processes pid).bind fun process => held process i

-- The file that a descriptor of a call names
def named (pid : Nat) (fd : Int) : Option OpenFile :=
  (slot? fd).bind (fileAt system pid)

def contents (id entry : Nat) : List UInt8 := (system.instances id).ramfs.contents entry

def entries (id : Nat) : Nat := (system.instances id).ramfs.files.length

-- The pids are given out in order.
def Numbered : Prop := ∀ pid, system.pidCounter ≤ pid → system.processes pid = none

-- Nothing has been started yet.
def booted (instances : Instances) (usarts : Nat → Usart) : System where
  processes := fun _ => none
  instances := instances
  usarts := usarts
  pidCounter := 1

theorem numbered_booted (instances : Instances) (usarts : Nat → Usart) :
    Numbered (booted instances usarts) := fun _ _ => rfl

end System

section Processes

variable {system : System} {pid other : Nat} {process : Process OpenFile}

@[simp] theorem processes_setProcess_self (process : Option (Process OpenFile)) :
    (setProcess system pid process).processes pid = process := Function.update_self ..

theorem processes_setProcess_of_ne (h : other ≠ pid) (process : Option (Process OpenFile)) :
    (setProcess system pid process).processes other = system.processes other :=
  Function.update_of_ne h ..

@[simp] theorem instances_setProcess (process : Option (Process OpenFile)) :
    (setProcess system pid process).instances = system.instances := rfl

@[simp] theorem instances_setUsart (usart : Nat) (state : Usart) :
    (setUsart system usart state).instances = system.instances := rfl

theorem fileAt_of_process (h : system.processes pid = some process) (i : Fin 8) :
    fileAt system pid i = held process i := by
  rw [fileAt, h, Option.bind_some]

-- Only a descriptor of the array has a file.
theorem named_of_getFile {shifter : Shifter} {fd : Int} {found : Option OpenFile}
    (h : system.processes pid = some process) (hget : process.getFile shifter fd = .ok found) :
    named system pid fd = found := by
  cases hs : slot? fd with
  | some i =>
      rw [getFile_of_slot hs] at hget
      rw [named, hs, Option.bind_some, fileAt_of_process h]
      exact Except.ok.inj hget
  | none =>
      simp only [Process.getFile, hs] at hget
      split at hget
      · cases hget
      · rw [named, hs, Option.bind_none]
        exact Except.ok.inj hget

theorem named_of_none {fd : Int} (h : system.processes pid = none) :
    named system pid fd = none := by
  simp [named, fileAt, h]

theorem slot_of_named {fd : Int} {file : OpenFile} (h : named system pid fd = some file) :
    ∃ i, slot? fd = some i ∧ fileAt system pid i = some file := Option.bind_eq_some_iff.mp h

theorem fileAt_setProcess_self (i : Fin 8) :
    fileAt (setProcess system pid (some process)) pid i = held process i :=
  fileAt_of_process (processes_setProcess_self _) i

theorem fileAt_setProcess_of_ne (h : other ≠ pid) (process : Option (Process OpenFile))
    (i : Fin 8) : fileAt (setProcess system pid process) other i = fileAt system other i := by
  rw [fileAt, processes_setProcess_of_ne h, fileAt]

end Processes

section Inversion

variable {platform : Platform} {system next : System} {pid : Nat} {reply : Reply}

-- An open fails, or it takes a descriptor; it makes a file at most.
theorem openVolumes_cases (process : Process OpenFile) (filename : Path) (flags : BitVec 32)
    (instances : Instances) :
    ∃ after code made,
      openVolumes platform.library platform.volumes platform.romStat .quiet (some process) filename
          flags instances =
        ((some after, code), made) ∧
      (after = process ∧ code < 0 ∨
        ∃ file, after = (process.addFile (some file)).1 ∧ code = (process.addFile (some file)).2) ∧
      (made = instances ∨ ∃ id name,
        made = Function.update instances id ((instances id).create name flags.toInt).1) := by
  by_cases hc : Creates flags
  · rcases @openVolumes_creates _ platform.library platform.volumes platform.romStat .quiet filename
        flags instances process hc with
      ⟨id, name, file, -, houtcome⟩ | ⟨-, houtcome⟩
    · exact ⟨_, _, _, houtcome, Or.inr ⟨file, rfl, rfl⟩, Or.inr ⟨id, name, rfl⟩⟩
    · exact ⟨_, _, _, houtcome, Or.inl ⟨rfl, by omega⟩, Or.inl rfl⟩
  · obtain ⟨found, hget⟩ := @get_volumes _ platform.library platform.volumes .quiet instances
      (some process) (platform.library.lexicallyNormal filename) flags.toInt
    rcases @openFile_gets _ _ _ _ _ (volumeStat platform.romStat) process _ _ _ _ _ hc hget with
      ⟨code, hcode, houtcome⟩ | ⟨file, houtcome⟩
    · exact ⟨_, _, _, houtcome, Or.inl ⟨rfl, hcode⟩, Or.inl rfl⟩
    · exact ⟨_, _, _, houtcome, Or.inr ⟨file, rfl, rfl⟩, Or.inl rfl⟩

theorem step_open_cases {filename : Path} {flags : BitVec 32}
    (h : step platform system pid (.open_ filename flags) =
      .ok (next, reply)) :
    system.processes pid = none ∧ next = setProcess system pid none ∨
      ∃ process after code made, system.processes pid = some process ∧
        next = setProcess { system with instances := made } pid (some after) ∧
        reply = .code code ∧
        openVolumes platform.library platform.volumes platform.romStat .quiet (some process) filename
            flags system.instances =
          ((some after, code), made) ∧
        (after = process ∧ code < 0 ∨ ∃ file, after = (process.addFile (some file)).1 ∧
          code = (process.addFile (some file)).2) ∧
        (made = system.instances ∨ ∃ id name, made = Function.update system.instances id
          ((system.instances id).create name flags.toInt).1) := by
  cases hprocess : system.processes pid with
  | none =>
      rw [step, hprocess] at h
      obtain ⟨rfl, -⟩ := Prod.mk.inj (Except.ok.inj h)
      exact Or.inl ⟨rfl, rfl⟩
  | some process =>
      obtain ⟨after, code, made, houtcome, hafter, hmade⟩ :=
        @openVolumes_cases platform process filename flags system.instances
      rw [step, hprocess, houtcome] at h
      obtain ⟨rfl, rfl⟩ := Prod.mk.inj (Except.ok.inj h)
      exact Or.inr ⟨process, after, code, made, rfl, rfl, rfl, houtcome, hafter, hmade⟩

-- A read moves on the file that the descriptor names, and takes what it
-- delivers out of the receive buffers.
theorem step_read_cases {fd : Int} {buffer : List UInt8}
    (h : step platform system pid (.read fd buffer) =
      .ok (next, reply)) :
    named system pid fd = none ∧ next = system ∧ reply = .data buffer 0 ∨
      ∃ process file after length moved usarts, system.processes pid = some process ∧
        named system pid fd = some file ∧
        readFile system buffer file = .ok (after, length, moved, usarts) ∧
        next = setProcess { system with usarts := usarts } pid (some (setFile process fd moved)) ∧
        reply = .data after length := by
  cases hprocess : system.processes pid with
  | none =>
      simp only [step, hprocess, Except.ok.injEq, Prod.mk.injEq] at h
      exact Or.inl ⟨named_of_none hprocess, h.1.symm, h.2.symm⟩
  | some process =>
      simp only [step, hprocess] at h
      obtain ⟨found, hfound, h⟩ := bind_eq_ok.mp h
      have hnamed := named_of_getFile hprocess (mapError_eq_ok hfound)
      cases found with
      | none =>
          obtain ⟨rfl, rfl⟩ := Prod.mk.inj (Except.ok.inj h)
          exact Or.inl ⟨hnamed, rfl, rfl⟩
      | some file =>
          obtain ⟨⟨after, length, moved, usarts⟩, hread, h⟩ := bind_eq_ok.mp h
          obtain ⟨rfl, rfl⟩ := Prod.mk.inj (Except.ok.inj h)
          exact Or.inr ⟨process, file, after, length, moved, usarts, rfl, hnamed,
            mapError_eq_ok hread, rfl, rfl⟩

theorem step_write_cases {fd : Int} {bytes : List UInt8}
    (h : step platform system pid (.write fd bytes) =
      .ok (next, reply)) :
    named system pid fd = none ∧ next = system ∧ reply = .code 0 ∨
      ∃ file, named system pid fd = some file ∧ next = (writeFile system bytes file).1 ∧
        reply = .code (writeFile system bytes file).2 := by
  cases hprocess : system.processes pid with
  | none =>
      simp only [step, hprocess, Except.ok.injEq, Prod.mk.injEq] at h
      exact Or.inl ⟨named_of_none hprocess, h.1.symm, h.2.symm⟩
  | some process =>
      simp only [step, hprocess] at h
      obtain ⟨found, hfound, h⟩ := bind_eq_ok.mp h
      have hnamed := named_of_getFile hprocess (mapError_eq_ok hfound)
      cases found with
      | none =>
          obtain ⟨rfl, rfl⟩ := Prod.mk.inj (Except.ok.inj h)
          exact Or.inl ⟨hnamed, rfl, rfl⟩
      | some file =>
          obtain ⟨rfl, rfl⟩ := Prod.mk.inj (Except.ok.inj h)
          exact Or.inr ⟨file, hnamed, rfl, rfl⟩

theorem step_close_cases {fd : Int}
    (h : step platform system pid (.close fd) = .ok (next, reply)) :
    next = system ∨ ∃ process after code, system.processes pid = some process ∧
      process.removeFile platform.shifter fd = .ok (after, code) ∧
      next = setProcess system pid (some after) := by
  cases hprocess : system.processes pid with
  | none =>
      simp only [step, hprocess, Except.ok.injEq, Prod.mk.injEq] at h
      exact Or.inl h.1.symm
  | some process =>
      simp only [step, hprocess] at h
      obtain ⟨⟨after, code⟩, hremove, h⟩ := bind_eq_ok.mp h
      obtain ⟨rfl, -⟩ := Prod.mk.inj (Except.ok.inj h)
      exact Or.inr ⟨process, after, code, rfl, mapError_eq_ok hremove, rfl⟩

theorem ioctl_cases {fd : Int} {cmd lflag : BitVec 32}
    (h : ioctl platform system pid fd cmd lflag = .ok (next, reply)) :
    named system pid fd = none ∧ next = system ∨
      ∃ file, named system pid fd = some file ∧ next = (ioctlFile system cmd lflag file).1 := by
  cases hprocess : system.processes pid with
  | none =>
      simp only [ioctl, hprocess, Except.ok.injEq, Prod.mk.injEq] at h
      exact Or.inl ⟨named_of_none hprocess, h.1.symm⟩
  | some process =>
      simp only [ioctl, hprocess] at h
      obtain ⟨found, hfound, h⟩ := bind_eq_ok.mp h
      have hnamed := named_of_getFile hprocess (mapError_eq_ok hfound)
      cases found with
      | none =>
          obtain ⟨rfl, -⟩ := Prod.mk.inj (Except.ok.inj h)
          exact Or.inl ⟨hnamed, rfl⟩
      | some file =>
          obtain ⟨rfl, -⟩ := Prod.mk.inj (Except.ok.inj h)
          exact Or.inr ⟨file, hnamed, rfl⟩

-- No class serves the requests that wait for the output first.
theorem ioctlFile_of_ne {cmd : BitVec 32} (hcmd : iocNumber cmd ≠ 20) (lflag : BitVec 32)
    (file : OpenFile) : (ioctlFile system cmd lflag file).1 = system := by
  unfold ioctlFile
  split
  · rw [if_neg hcmd]
  · rfl

-- Only the action TCSANOW does something.
theorem step_tcsetattr_cases {fd optionalActions : Int} {lflag : BitVec 32}
    (h : step platform system pid (.tcsetattr fd optionalActions lflag) = .ok (next, reply)) :
    (optionalActions = 0 → named system pid fd = none) ∧ next = system ∨
      optionalActions = 0 ∧ ∃ file, named system pid fd = some file ∧
        next = (ioctlFile system tiocseta lflag file).1 := by
  rw [step] at h
  split at h
  · rename_i hnow
    rcases ioctl_cases h with ⟨hnamed, rfl⟩ | hfile
    · exact Or.inl ⟨fun _ => hnamed, rfl⟩
    · exact Or.inr ⟨hnow, hfile⟩
  · rename_i hnow
    refine Or.inl ⟨fun h0 => absurd h0 hnow, ?_⟩
    split at h
    · rcases ioctl_cases h with ⟨-, rfl⟩ | ⟨file, -, rfl⟩
      · rfl
      · exact ioctlFile_of_ne (by decide) lflag file
    · split at h
      · rcases ioctl_cases h with ⟨-, rfl⟩ | ⟨file, -, rfl⟩
        · rfl
        · exact ioctlFile_of_ne (by decide) lflag file
      · exact (Prod.mk.inj (Except.ok.inj h)).1.symm

end Inversion

section Runs

variable (platform : Platform)

-- What the steps of a run contribute, in order
def collected {α : Type} (what : System → Nat → Call → Reply → List α) :
    System → List (Nat × Call) → List α
  | _, [] => []
  | system, (pid, call) :: rest =>
      match step platform system pid call with
      | .ok (next, reply) => what system pid call reply ++ collected what next rest
      | .error _ => []

-- Every call of the run meets the guard in the state that it is served in.
def Meets (guard : System → Nat → Call → Prop) : System → List (Nat × Call) → Prop
  | _, [] => True
  | system, (pid, call) :: rest =>
      guard system pid call ∧
        ∀ next reply, step platform system pid call = .ok (next, reply) → Meets guard next rest

instance decidableMeets (guard : System → Nat → Call → Prop)
    [∀ system pid call, Decidable (guard system pid call)] :
    (system : System) → (calls : List (Nat × Call)) → Decidable (Meets platform guard system calls)
  | _, [] => isTrue trivial
  | system, (pid, call) :: rest =>
      match h : step platform system pid call with
      | .error _ => decidable_of_iff (guard system pid call) (by simp [Meets, h])
      | .ok (next, _) =>
          have := decidableMeets guard next rest
          decidable_of_iff (guard system pid call ∧ Meets platform guard next rest) (by
            simp only [Meets, h, Except.ok.injEq, Prod.mk.injEq, and_imp]
            exact ⟨fun hm => ⟨hm.1, fun _ _ hn _ => hn ▸ hm.2⟩, fun hm => ⟨hm.1, hm.2 _ _ rfl rfl⟩⟩)

variable {platform} {system last : System} {calls : List (Nat × Call)} {replies : List Reply}

theorem run_cons_eq_ok {pid : Nat} {call : Call}
    (h : run platform system ((pid, call) :: calls) = .ok (last, replies)) :
    ∃ next reply rest, step platform system pid call = .ok (next, reply) ∧
      run platform next calls = .ok (last, rest) ∧ replies = reply :: rest := by
  obtain ⟨⟨next, reply⟩, hs, h⟩ := bind_eq_ok.mp h
  obtain ⟨⟨final, rest⟩, hr, h⟩ := bind_eq_ok.mp h
  obtain ⟨rfl, rfl⟩ := Prod.mk.inj (Except.ok.inj h)
  exact ⟨next, reply, rest, hs, hr, rfl⟩

theorem collected_cons {α : Type} {what : System → Nat → Call → Reply → List α} {next : System}
    {pid : Nat} {call : Call} {reply : Reply}
    (h : step platform system pid call = .ok (next, reply)) :
    collected platform what system ((pid, call) :: calls) =
      what system pid call reply ++ collected platform what next calls := by
  rw [collected, h]

theorem meets_cons {guard : System → Nat → Call → Prop} {next : System} {pid : Nat}
    {call : Call} {reply : Reply} (hs : step platform system pid call = .ok (next, reply))
    (hg : guard system pid call) (h : Meets platform guard next calls) :
    Meets platform guard system ((pid, call) :: calls) := by
  refine ⟨hg, fun other answer hother => ?_⟩
  obtain ⟨rfl, -⟩ := Prod.mk.inj (Except.ok.inj (hs.symm.trans hother))
  exact h

theorem run_invariant {inv : System → Prop}
    (hkeep : ∀ system pid call next reply, inv system →
      step platform system pid call = .ok (next, reply) → inv next)
    (hinv : inv system) (h : run platform system calls = .ok (last, replies)) : inv last := by
  induction calls generalizing system replies with
  | nil =>
      obtain ⟨rfl, -⟩ := Prod.mk.inj (Except.ok.inj h)
      exact hinv
  | cons head rest ih =>
      obtain ⟨next, reply, tail, hs, hr, rfl⟩ := run_cons_eq_ok h
      exact ih (hkeep system head.1 head.2 next reply hinv hs) hr

end Runs

end Msos.Syscalls
