import Msos.Syscalls.Streams

namespace Msos.Syscalls

open Msos.Drivers Msos.Fs Msos.Kernel Msos.Posix Msos.Library Msos.Library.Fallible

section Definitions

def usartOf : OpenFile → Option Nat
  | .mounted _ (.usartFile usart _) => some usart
  | _ => none

variable (usart : Nat)

def queue (system : System) : List UInt8 := (system.usarts usart).driver.buffer

def sent (system : System) : List UInt8 := (system.usarts usart).sent

def echo (system : System) : Bool := (system.usarts usart).driver.echo

-- The descriptor of a call names a file of the usart.
def Names (system : System) (pid : Nat) (fd : Int) : Prop :=
  (named system pid fd).bind usartOf = some usart

instance (system : System) (pid : Nat) (fd : Int) : Decidable (Names usart system pid fd) :=
  inferInstanceAs (Decidable (_ = _))

-- What a call takes out of the queue of the usart, puts into it, sends over it,
-- and sets its echo to.
def takes (system : System) (pid : Nat) : Call → Reply → List UInt8
  | .read fd _, reply => if Names usart system pid fd then reply.bytes else []
  | _, _ => []

def puts : Call → List UInt8
  | .receive other byte => if other = usart then [UsartDriver.pushed byte] else []
  | _ => []

def sends (system : System) (pid : Nat) : Call → List UInt8
  | .write fd bytes => if Names usart system pid fd then bytes else []
  | .receive other byte =>
      if other = usart then ((system.usarts usart).driver.onData byte).2.flatten else []
  | _ => []

def echoes (system : System) (pid : Nat) : Call → List Bool
  | .ioctl fd cmd lflag =>
      if iocNumber cmd = 20 ∧ Names usart system pid fd then [decide (lflag &&& echoFlag ≠ 0)]
      else []
  | .tcsetattr fd optionalActions lflag =>
      if optionalActions = 0 ∧ Names usart system pid fd then [decide (lflag &&& echoFlag ≠ 0)]
      else []
  | _ => []

-- The ring buffer takes a byte that it has room for.
def HasRoom (room : Nat) (system : System) (_pid : Nat) : Call → Prop
  | .receive other _ => other = usart → (queue usart system).length < room
  | _ => True

instance (room : Nat) (system : System) (pid : Nat) (call : Call) :
    Decidable (HasRoom usart room system pid call) := by
  cases call <;> simp only [HasRoom] <;> infer_instance

-- How a usart goes from one state to another over a sequence of calls.
structure Serves (taken put sentBytes : List UInt8) (echoed : List Bool)
    (before after : System) : Prop where
  input : taken ++ queue usart after = queue usart before ++ put
  output : sent usart after = sent usart before ++ sentBytes
  echoing : echo usart after = echoed.getLastD (echo usart before)

end Definitions

section Steps

variable {platform : Platform} {system next : System} {usart pid : Nat} {call : Call}
  {reply : Reply}

theorem serves_of_usarts (h : next.usarts usart = system.usarts usart) :
    Serves usart [] [] [] [] system next where
  input := by rw [queue, h, List.append_nil]; rfl
  output := by rw [sent, h, List.append_nil]; rfl
  echoing := by rw [echo, h]; rfl

theorem Serves.trans {taken put sentBytes taken' put' sentBytes' : List UInt8}
    {echoed echoed' : List Bool} {last : System}
    (h : Serves usart taken put sentBytes echoed system next)
    (h' : Serves usart taken' put' sentBytes' echoed' next last) :
    Serves usart (taken ++ taken') (put ++ put') (sentBytes ++ sentBytes') (echoed ++ echoed')
      system last where
  input := by
    rw [List.append_assoc, h'.input, ← List.append_assoc, h.input, List.append_assoc]
  output := by rw [h'.output, h.output, List.append_assoc]
  echoing := by
    rw [h'.echoing, h.echoing]
    cases echoed' using List.reverseRecOn with
    | nil => simp
    | append_singleton front flag => rw [← List.append_assoc]; simp

theorem usarts_setUsart_self (state : Usart) :
    (setUsart system usart state).usarts usart = state := Function.update_self ..

theorem usarts_setUsart_of_ne {other : Nat} (h : usart ≠ other) (state : Usart) :
    (setUsart system other state).usarts usart = system.usarts usart :=
  Function.update_of_ne h ..

theorem usartOf_usartFile_iff {id other : Nat} {path : Path} :
    usartOf (.mounted id (.usartFile other path)) = some usart ↔ other = usart := by
  simp [usartOf]

theorem readFile_usartFile (id : Nat) (path : Path) (buffer : List UInt8) :
    ∃ front rest, queue usart system = front ++ rest ∧
      readFile system buffer (.mounted id (.usartFile usart path)) =
        .ok (front ++ buffer.drop front.length, front.length, .mounted id (.usartFile usart path),
          (setUsart system usart { system.usarts usart with
            driver := { (system.usarts usart).driver with buffer := rest } }).usarts) := by
  obtain ⟨length, hlength⟩ : ∃ length, length = if buffer.length < (queue usart system).length
    then buffer.length else (queue usart system).length := ⟨_, rfl⟩
  have hle : length ≤ (queue usart system).length := by
    rw [hlength]
    split <;> omega
  refine ⟨(queue usart system).take length, (queue usart system).drop length,
    (List.take_append_drop ..).symm, ?_⟩
  rw [List.length_take_of_le hle, hlength]
  rfl

-- A read takes a front of the queue.
theorem serves_readFile {file moved : OpenFile} {buffer after : List UInt8} {length : Int}
    {usarts : Nat → Usart} (h : readFile system buffer file = .ok (after, length, moved, usarts)) :
    Serves usart (if usartOf file = some usart then (Reply.data after length).bytes else []) []
      [] [] system { system with usarts := usarts } := by
  cases file with
  | romFsFile file =>
      obtain ⟨_, -, h⟩ := map_eq_ok.mp h
      obtain ⟨-, -, -, rfl⟩ := h
      exact serves_of_usarts rfl
  | mounted id file =>
      cases file with
      | ramfsFile file =>
          obtain ⟨_, -, h⟩ := map_eq_ok.mp h
          obtain ⟨-, -, -, rfl⟩ := h
          exact serves_of_usarts rfl
      | deviceFsRootFile =>
          obtain ⟨-, -, -, rfl⟩ := Except.ok.inj h
          exact serves_of_usarts rfl
      | appFile entry =>
          obtain ⟨-, -, -, rfl⟩ := Except.ok.inj h
          exact serves_of_usarts rfl
      | usartFile other path =>
          obtain ⟨front, rest, hqueue, hread⟩ := @readFile_usartFile system other id path buffer
          obtain ⟨rfl, rfl, -, rfl⟩ := Except.ok.inj (hread.symm.trans h)
          by_cases he : usart = other
          · subst he
            have hbytes : (Reply.data (front ++ buffer.drop front.length) front.length).bytes =
                front := by simp [Reply.bytes]
            refine ⟨?_, ?_, ?_⟩
            · rw [if_pos (usartOf_usartFile_iff.mpr rfl), hbytes, List.append_nil, hqueue, queue,
                usarts_setUsart_self]
            · rw [sent, usarts_setUsart_self, List.append_nil]
              rfl
            · rw [echo, usarts_setUsart_self]
              rfl
          · have hne : ¬usartOf (.mounted id (.usartFile other path)) = some usart :=
              fun h => he (Option.some.inj h).symm
            rw [if_neg hne]
            exact serves_of_usarts (usarts_setUsart_of_ne he _)

theorem serves_writeFile (file : OpenFile) (bytes : List UInt8) :
    Serves usart [] [] (if usartOf file = some usart then bytes else []) [] system
      (writeFile system bytes file).1 := by
  cases file with
  | romFsFile file => exact serves_of_usarts rfl
  | mounted id file =>
      cases file with
      | ramfsFile file => exact serves_of_usarts rfl
      | deviceFsRootFile => exact serves_of_usarts rfl
      | appFile entry => exact serves_of_usarts rfl
      | usartFile other path =>
          by_cases he : usart = other
          · subst he
            rw [if_pos (usartOf_usartFile_iff.mpr rfl)]
            refine ⟨?_, ?_, ?_⟩
            · rw [queue, writeFile, usarts_setUsart_self, List.append_nil]
              rfl
            · rw [sent, writeFile, usarts_setUsart_self]
              rfl
            · rw [echo, writeFile, usarts_setUsart_self]
              rfl
          · have hne : ¬usartOf (.mounted id (.usartFile other path)) = some usart :=
              fun h => he (Option.some.inj h).symm
            rw [if_neg hne]
            exact serves_of_usarts (usarts_setUsart_of_ne he _)

theorem serves_ioctlFile {cmd : BitVec 32} (hcmd : iocNumber cmd = 20) (file : OpenFile)
    (lflag : BitVec 32) :
    Serves usart [] [] []
      (if usartOf file = some usart then [decide (lflag &&& echoFlag ≠ 0)] else []) system
      (ioctlFile system cmd lflag file).1 := by
  cases file with
  | romFsFile file => exact serves_of_usarts rfl
  | mounted id file =>
      cases file with
      | ramfsFile file => exact serves_of_usarts rfl
      | deviceFsRootFile => exact serves_of_usarts rfl
      | appFile entry => exact serves_of_usarts rfl
      | usartFile other path =>
          by_cases he : usart = other
          · subst he
            rw [if_pos (usartOf_usartFile_iff.mpr rfl)]
            simp only [ioctlFile, hcmd, if_true]
            refine ⟨?_, ?_, ?_⟩
            · rw [queue, usarts_setUsart_self, List.append_nil]
              rfl
            · rw [sent, usarts_setUsart_self, List.append_nil]
              rfl
            · rw [echo, usarts_setUsart_self]
              rfl
          · have hne : ¬usartOf (.mounted id (.usartFile other path)) = some usart :=
              fun h => he (Option.some.inj h).symm
            rw [if_neg hne]
            simp only [ioctlFile, hcmd, if_true]
            exact serves_of_usarts (usarts_setUsart_of_ne he _)

theorem echo_onData (driver : UsartDriver) (byte : UInt8) :
    (driver.onData byte).1.echo = driver.echo := by
  unfold UsartDriver.onData
  split
  · split
    · rfl
    · rfl
  · rfl

theorem serves_onReceived {room other : Nat} {byte : UInt8}
    (hpush : ∀ queue byte, queue.length < room → platform.push queue byte = queue ++ [byte])
    (hroom : HasRoom usart room system pid (.receive other byte)) :
    Serves usart [] (puts usart (.receive other byte))
      (sends usart system pid (.receive other byte)) [] system
      (onReceived platform system other byte) := by
  by_cases he : usart = other
  · subst he
    have hbuffer := UsartDriver.buffer_onData (system.usarts usart).driver byte
    have hqueue := hpush (queue usart system) (UsartDriver.pushed byte) (hroom rfl)
    refine ⟨?_, ?_, ?_⟩
    · simp only [queue, onReceived, usarts_setUsart_self, hbuffer, List.drop_left, puts, if_true,
        List.foldl_cons, List.foldl_nil, List.nil_append]
      exact hqueue
    · simp only [sent, onReceived, usarts_setUsart_self, sends, if_true]
    · simp only [echo, onReceived, usarts_setUsart_self]
      exact echo_onData _ byte
  · have hne : ¬other = usart := fun h => he h.symm
    rw [puts, sends, if_neg hne, if_neg hne]
    exact serves_of_usarts (usarts_setUsart_of_ne he _)

-- TIOCSETA through a descriptor sets the echo of the line that the descriptor names.
theorem serves_echo {cmd lflag : BitVec 32} (hcmd : iocNumber cmd = 20) {fd : Int}
    {file : OpenFile} (hnamed : named system pid fd = some file) :
    Serves usart [] [] []
      (if Names usart system pid fd then [decide (lflag &&& echoFlag ≠ 0)] else []) system
      (ioctlFile system cmd lflag file).1 := by
  have hfile := @serves_ioctlFile system usart cmd hcmd file lflag
  simpa only [Names, hnamed, Option.bind_some] using hfile

theorem step_serves {room : Nat}
    (hpush : ∀ queue byte, queue.length < room → platform.push queue byte = queue ++ [byte])
    (hroom : HasRoom usart room system pid call)
    (h : step platform system pid call = .ok (next, reply)) :
    Serves usart (takes usart system pid call reply) (puts usart call)
      (sends usart system pid call) (echoes usart system pid call) system next := by
  cases call with
  | open_ filename flags =>
      rcases step_open_cases h with ⟨-, rfl⟩ | ⟨_, _, _, made, -, rfl, -⟩
      · exact serves_of_usarts rfl
      · exact serves_of_usarts rfl
  | read fd buffer =>
      rcases step_read_cases h with
        ⟨hnamed, rfl, rfl⟩ | ⟨_, file, after, length, moved, usarts, -, hnamed, hread, rfl, rfl⟩
      · have hne : ¬Names usart next pid fd := by
          rw [Names, hnamed]
          exact nofun
        rw [takes, if_neg hne]
        exact serves_of_usarts rfl
      · have hfile := @serves_readFile _ usart _ _ _ _ _ _ hread
        have htakes : takes usart system pid (.read fd buffer) (.data after length) =
            if usartOf file = some usart then (Reply.data after length).bytes else [] := by
          simp only [takes, Names, hnamed, Option.bind_some]
        rw [htakes]
        exact ⟨hfile.input, hfile.output, hfile.echoing⟩
  | write fd bytes =>
      rcases step_write_cases h with ⟨hnamed, rfl, -⟩ | ⟨file, hnamed, rfl, -⟩
      · have hne : ¬Names usart next pid fd := by
          rw [Names, hnamed]
          exact nofun
        rw [sends, if_neg hne]
        exact serves_of_usarts rfl
      · have hfile := @serves_writeFile system usart file bytes
        have hsends : sends usart system pid (.write fd bytes) =
            if usartOf file = some usart then bytes else [] := by
          simp only [sends, Names, hnamed, Option.bind_some]
        rw [hsends]
        exact hfile
  | close fd =>
      rcases step_close_cases h with rfl | ⟨_, _, _, -, -, rfl⟩
      · exact serves_of_usarts rfl
      · exact serves_of_usarts rfl
  | ioctl fd cmd lflag =>
      rcases ioctl_cases h with ⟨hnamed, rfl⟩ | ⟨file, hnamed, rfl⟩
      · have hne : ¬(iocNumber cmd = 20 ∧ Names usart next pid fd) := by
          rintro ⟨-, hnames⟩
          rw [Names, hnamed] at hnames
          cases hnames
        rw [echoes, if_neg hne]
        exact serves_of_usarts rfl
      · by_cases hcmd : iocNumber cmd = 20
        · have hserved := @serves_echo system usart pid cmd lflag hcmd fd file hnamed
          simp only [echoes, hcmd, true_and]
          exact hserved
        · rw [echoes, if_neg fun hset => hcmd hset.1, ioctlFile_of_ne hcmd]
          exact serves_of_usarts rfl
  | tcsetattr fd optionalActions lflag =>
      rcases step_tcsetattr_cases h with ⟨hnone, rfl⟩ | ⟨rfl, file, hnamed, rfl⟩
      · have hne : ¬(optionalActions = 0 ∧ Names usart next pid fd) := by
          rintro ⟨h0, hnames⟩
          rw [Names, hnone h0] at hnames
          cases hnames
        rw [echoes, if_neg hne]
        exact serves_of_usarts rfl
      · have hserved := @serves_echo system usart pid tiocseta lflag (by decide) fd file hnamed
        simp only [echoes, true_and]
        exact hserved
  | exit =>
      obtain ⟨rfl, -⟩ := Prod.mk.inj (Except.ok.inj h)
      exact serves_of_usarts rfl
  | createProcess =>
      obtain ⟨rfl, -⟩ := Prod.mk.inj (Except.ok.inj h)
      exact serves_of_usarts rfl
  | receive other byte =>
      obtain ⟨rfl, -⟩ := Prod.mk.inj (Except.ok.inj h)
      exact serves_onReceived hpush hroom

-- The bytes that have been read and those that wait are the ones that have come
-- in, whatever the order of the calls and the interrupts; what is sent is what
-- was written and the echoes, and the last TCSANOW or TIOCSETA sets the echo.
theorem run_serves {platform : Platform} {system last : System} {usart room : Nat}
    {calls : List (Nat × Call)} {replies : List Reply}
    (hpush : ∀ queue byte, queue.length < room → platform.push queue byte = queue ++ [byte])
    (hroom : Meets platform (HasRoom usart room) system calls)
    (h : run platform system calls = .ok (last, replies)) :
    Serves usart (collected platform (takes usart) system calls)
      (collected platform (fun _ _ call _ => puts usart call) system calls)
      (collected platform (fun system pid call _ => sends usart system pid call) system calls)
      (collected platform (fun system pid call _ => echoes usart system pid call) system calls)
      system last := by
  induction calls generalizing system replies with
  | nil =>
      obtain ⟨rfl, -⟩ := Prod.mk.inj (Except.ok.inj h)
      exact serves_of_usarts rfl
  | cons head rest ih =>
      obtain ⟨next, reply, tail, hs, hr, rfl⟩ := run_cons_eq_ok h
      simp only [collected_cons hs]
      exact (step_serves hpush hroom.1 hs).trans (ih (hroom.2 next reply hs) hr)

-- A password prompt: the first key is echoed, and the one after TCSANOW is not.
def ttyPlatform : Platform where
  library := plainPaths
  volumes := logVolume
  romStat := fun _ => 0
  tty := some 1
  shifter := .arm
  push := fun queue byte => if queue.length < 64 then queue ++ [byte] else queue

def promptCalls : List (Nat × Call) :=
  [(0, .createProcess), (1, .receive 1 97), (1, .tcsetattr 0 0 0), (1, .receive 1 98),
    (1, .write 1 [62]), (1, .read 0 [0]), (1, .receive 1 13)]

theorem serves_prompt : ∃ last,
    (run ttyPlatform logStart promptCalls).map Prod.fst = .ok last ∧
      Serves 1 [97] [97, 98, 10] [97, 62] [false] logStart last := by
  have hpush : ∀ queue byte, queue.length < 64 → ttyPlatform.push queue byte = queue ++ [byte] :=
    fun _ _ h => if_pos h
  have hroom : Meets ttyPlatform (HasRoom 1 64) logStart promptCalls := by
    refine meets_cons rfl trivial (meets_cons rfl (fun _ => ?_) (meets_cons rfl trivial
      (meets_cons rfl (fun _ => ?_) (meets_cons rfl trivial (meets_cons rfl trivial
        (meets_cons rfl (fun _ => ?_) trivial))))))
    · decide
    · decide
    · decide
  refine ⟨_, rfl, ?_⟩
  exact run_serves hpush hroom rfl

end Steps

end Msos.Syscalls
