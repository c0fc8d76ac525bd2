import Msos.Scanf
import Msos.Syscalls.Serial

namespace Msos.Syscalls

open Msos.Drivers Msos.Fs Msos.Kernel Msos.Library Fallible Fgets Scanf LineEdit

section Definitions

variable (usart pid : Nat) (fd : Int)

-- What the reads of a process from a descriptor return, in order
def readingsOn : List (Nat × Call) → List Reply → List Reading
  | (other, .read named _) :: calls, .data buffer length :: replies =>
      if other = pid ∧ named = fd then
        Reading.ofRead buffer length :: readingsOn calls replies
      else readingsOn calls replies
  | _ :: calls, _ :: replies => readingsOn calls replies
  | _, _ => []

-- The process reads the usart with this descriptor, a byte at a time, and
-- nobody else reads it.
def ReadsAlone (system : System) (other : Nat) : Call → Prop
  | .read named buffer => (Names usart system other named ↔ other = pid ∧ named = fd) ∧
      (other = pid ∧ named = fd → buffer.length = 1)
  | _ => True

instance (system : System) (other : Nat) (call : Call) :
    Decidable (ReadsAlone usart pid fd system other call) :=
  match call with
  | .read named buffer =>
      have : Decidable (named = fd) := Int.instDecidableEq named fd
      inferInstanceAs (Decidable ((Names usart system other named ↔ other = pid ∧ named = fd) ∧
        (other = pid ∧ named = fd → buffer.length = 1)))
  | .open_ _ _ | .write _ _ | .close _ | .ioctl _ _ _ | .tcsetattr _ _ _ | .exit
  | .createProcess | .receive _ _ => isTrue trivial

end Definitions

section Readings

variable {platform : Platform} {system next last : System} {usart pid other room : Nat} {fd : Int}
  {call : Call} {reply : Reply} {calls : List (Nat × Call)} {replies : List Reply}

theorem readingsOn_cons (calls : List (Nat × Call)) (replies : List Reply) :
    readingsOn pid fd ((other, call) :: calls) (reply :: replies) =
      readingsOn pid fd [(other, call)] [reply] ++ readingsOn pid fd calls replies := by
  cases call with
  | read named buffer =>
      cases reply with
      | code value => rfl
      | data after length =>
          simp only [readingsOn]
          split
          · rfl
          · rfl
  | _ => rfl

theorem readingsOn_of_takes (hcall : ∀ named buffer, call ≠ .read named buffer) :
    readingsOn pid fd [(other, call)] [reply] = [] ∧ takes usart system other call reply = [] := by
  cases call with
  | read named buffer => exact absurd rfl (hcall named buffer)
  | _ => exact ⟨rfl, rfl⟩

theorem exists_usartFile {file : OpenFile} (h : usartOf file = some usart) :
    ∃ id path, file = .mounted id (.usartFile usart path) := by
  unfold usartOf at h
  split at h
  · rename_i id other path
    obtain rfl := Option.some.inj h
    exact ⟨id, path, rfl⟩
  · cases h

-- A read of one byte takes the first one of the queue, if there is one.
theorem readFile_one (id : Nat) (path : Path) (byte : UInt8) :
    ∃ after length moved usarts,
      readFile system [byte] (.mounted id (.usartFile usart path)) =
        .ok (after, length, moved, usarts) ∧
      Reading.ofRead after length = Reading.ofByte (queue usart system).head? ∧
      after.take length.toNat = (queue usart system).head?.toList := by
  cases hqueue : queue usart system with
  | nil =>
      refine ⟨[byte], 0, .mounted id (.usartFile usart path), (setUsart system usart
        { system.usarts usart with
          driver := { (system.usarts usart).driver with buffer := [] } }).usarts, ?_, rfl, rfl⟩
      unfold queue at hqueue
      simp only [readFile, hqueue]
      rfl
  | cons first rest =>
      refine ⟨[first], 1, .mounted id (.usartFile usart path), (setUsart system usart
        { system.usarts usart with
          driver := { (system.usarts usart).driver with buffer := rest } }).usarts, ?_, rfl, rfl⟩
      unfold queue at hqueue
      have hone : (if [byte].length < (first :: rest).length then [byte].length
          else (first :: rest).length) = 1 := by
        cases rest with
        | nil => rfl
        | cons second others => exact if_pos (by simp)
      simp only [readFile, hqueue, hone]
      rfl

-- What the process reads is what it takes of the queue.
theorem step_readings (halone : ReadsAlone usart pid fd system other call)
    (h : step platform system other call = .ok (next, reply)) :
    ∃ entries : List (Option UInt8),
      readingsOn pid fd [(other, call)] [reply] = entries.map Reading.ofByte ∧
        entries.reduceOption = takes usart system other call reply := by
  by_cases hread : ∃ named buffer, call = .read named buffer
  · obtain ⟨named, buffer, rfl⟩ := hread
    obtain ⟨hnames, hone⟩ := halone
    by_cases hown : other = pid ∧ named = fd
    · have hnamed := hnames.mpr hown
      obtain ⟨byte, rfl⟩ := List.length_eq_one_iff.mp (hone hown)
      rcases step_read_cases h with
        ⟨hnone, -, -⟩ | ⟨_, file, after, length, moved, usarts, -, hfile, hread, -, rfl⟩
      · rw [Names, hnone] at hnamed
        cases hnamed
      · have husart : usartOf file = some usart := by
          rw [Names, hfile] at hnamed
          exact hnamed
        obtain ⟨id, path, rfl⟩ := exists_usartFile husart
        obtain ⟨after', length', moved', usarts', hread', hreading, htaken⟩ :=
          @readFile_one system usart id path byte
        obtain ⟨rfl, rfl, -, -⟩ := Except.ok.inj (hread.symm.trans hread')
        refine ⟨[(queue usart system).head?], ?_, ?_⟩
        · rw [readingsOn, if_pos hown, hreading]
          rfl
        · rw [takes, if_pos hnamed, Reply.bytes, htaken]
          cases (queue usart system).head? <;> rfl
    · have hnot : ¬Names usart system other named := fun hn => hown (hnames.mp hn)
      refine ⟨[], ?_, ?_⟩
      · cases reply with
        | code value => rfl
        | data after length => rw [readingsOn, if_neg hown]; rfl
      · rw [takes, if_neg hnot]
        rfl
  · obtain ⟨hreadings, htakes⟩ := @readingsOn_of_takes system usart pid other fd call reply
      fun named buffer he => hread ⟨named, buffer, he⟩
    exact ⟨[], hreadings, htakes.symm⟩

-- What the process has read and what waits is what has come in.
theorem run_readings
    (hpush : ∀ queue byte, queue.length < room → platform.push queue byte = queue ++ [byte])
    (hroom : Meets platform (HasRoom usart room) system calls)
    (halone : Meets platform (ReadsAlone usart pid fd) system calls)
    (h : run platform system calls = .ok (last, replies)) :
    ∃ stream : List (Option UInt8),
      readingsOn pid fd calls replies = stream.map Reading.ofByte ∧
        stream.reduceOption ++ queue usart last = queue usart system ++
          collected platform (fun _ _ call _ => puts usart call) system calls := by
  induction calls generalizing system replies with
  | nil =>
      obtain ⟨rfl, rfl⟩ := Prod.mk.inj (Except.ok.inj h)
      exact ⟨[], rfl, (List.append_nil _).symm⟩
  | cons head rest ih =>
      obtain ⟨other, call⟩ := head
      obtain ⟨next, reply, tail, hs, hr, rfl⟩ := run_cons_eq_ok h
      obtain ⟨entries, hentries, htaken⟩ := step_readings halone.1 hs
      obtain ⟨stream, hstream, hqueue⟩ := ih (hroom.2 next reply hs) (halone.2 next reply hs) hr
      refine ⟨entries ++ stream, ?_, ?_⟩
      · rw [readingsOn_cons, hentries, hstream, List.map_append]
      · have hinput := (step_serves hpush hroom.1 hs).input
        rw [collected_cons hs, List.reduceOption_append, List.append_assoc, hqueue, htaken,
          ← List.append_assoc, hinput, List.append_assoc]

-- From the keyboard to the string: whatever else the system does meanwhile, a
-- process that reads on until a newline scans the edited line of what came in
-- before it, and the rest waits, in its readings and in the queue. It writes
-- behind its buffer exactly when there is no room for the line on the way.
theorem scanf_typed {buffer : List UInt8} {typed : List UInt8}
    (hpush : ∀ queue byte, queue.length < room → platform.push queue byte = queue ++ [byte])
    (hroom : Meets platform (HasRoom usart room) system calls)
    (halone : Meets platform (ReadsAlone usart pid fd) system calls)
    (h : run platform system calls = .ok (last, replies))
    (hline : Reading.byte newline ∈ readingsOn pid fd calls replies)
    (htyped : typed = queue usart system ++
      collected platform (fun _ _ call _ => puts usart call) system calls) :
    (Scanf.Fits buffer.length (keysOf typed) →
      ∃ (tail : List UInt8) (back : List (Option UInt8)),
        vfscanf "%s".toList buffer (readingsOn pid fd calls replies) =
          .ok (some (edit backspace (keysOf typed) ++ 0 :: tail,
            (edit backspace (keysOf typed)).length, back.map Reading.ofByte)) ∧
        keysOf typed ++ newline :: (back.reduceOption ++ queue usart last) = typed) ∧
      (¬Scanf.Fits buffer.length (keysOf typed) →
        vfscanf "%s".toList buffer (readingsOn pid fd calls replies) = .error .outOfBounds) := by
  obtain ⟨stream, hstream, hqueue⟩ := run_readings hpush hroom halone h
  have hnewline : some newline ∈ stream := by
    rw [hstream] at hline
    obtain ⟨entry, hentry, hbyte⟩ := List.mem_map.mp hline
    cases entry with
    | none => cases hbyte
    | some key =>
        obtain rfl := Reading.byte.inj hbyte
        exact hentry
  obtain ⟨front, back, rfl, hfront, -⟩ := exists_newline hnewline
  have hsplit : typed = front.reduceOption ++ newline :: (back.reduceOption ++ queue usart last) := by
    rw [htyped, ← hqueue, List.reduceOption_append, List.reduceOption_cons_of_some,
      List.append_assoc]
    rfl
  have hkeys : keysOf typed = front.reduceOption := by
    rw [hsplit, keysOf_append hfront]
  obtain ⟨hfits, hleaves⟩ := @vfscanf_newline buffer front back hfront
  rw [hkeys, hstream]
  refine ⟨fun hf => ?_, hleaves⟩
  obtain ⟨tail, htail⟩ := hfits hf
  exact ⟨tail, back, htail, hsplit.symm⟩

-- Four keys, the second of which the third one takes back, and the newline come
-- in while the process reads.
def typingCalls : List (Nat × Call) :=
  [(0, .createProcess), (1, .receive 1 104), (1, .receive 1 120), (1, .read 0 [0]),
    (1, .receive 1 127), (1, .read 0 [0]), (1, .read 0 [0]), (1, .receive 1 105),
    (1, .receive 1 13), (1, .read 0 [0]), (1, .read 0 [0])]

-- There is room for the line in eight bytes and not in two.
theorem scanf_typed_keys : ∃ last replies,
    run ttyPlatform logStart typingCalls = .ok (last, replies) ∧
      (∃ (tail : List UInt8) (back : List (Option UInt8)),
        vfscanf "%s".toList (List.replicate 8 0) (readingsOn 1 0 typingCalls replies) =
          .ok (some ([104, 105] ++ 0 :: tail, 2, back.map Reading.ofByte)) ∧
        [104, 120, 8, 105] ++ newline :: (back.reduceOption ++ queue 1 last) =
          [104, 120, 8, 105, 10]) ∧
      vfscanf "%s".toList (List.replicate 2 0) (readingsOn 1 0 typingCalls replies) =
        .error .outOfBounds := by
  have hpush : ∀ queue byte, queue.length < 64 → ttyPlatform.push queue byte = queue ++ [byte] :=
    fun _ _ h => if_pos h
  have hroom : Meets ttyPlatform (HasRoom 1 64) logStart typingCalls := by
    decide
  have halone : Meets ttyPlatform (ReadsAlone 1 1 0) logStart typingCalls := by
    decide
  have hscanned (buffer : List UInt8) := @scanf_typed ttyPlatform logStart _ 1 1 64 0 typingCalls _
    buffer [104, 120, 8, 105, 10] hpush hroom halone rfl (by decide) rfl
  exact ⟨_, _, rfl, (hscanned (List.replicate 8 0)).1 (by decide),
    (hscanned (List.replicate 2 0)).2 (by decide)⟩

end Readings

end Msos.Syscalls
