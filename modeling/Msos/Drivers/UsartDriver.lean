import Msos.Fgets.Theorems
import Msos.Library.Machine

namespace Msos.Drivers

open Msos.Library Machine LineEdit CString Fgets

-- `buffer` is what has been pushed to buffer_, in the order in which it is popped.
structure UsartDriver where
  readedBeforeNewline : Int
  buffer : List UInt8
  echo : Bool
deriving DecidableEq, Repr

namespace UsartDriver

def new : UsartDriver := ⟨0, [], true⟩

def delete : UInt8 := 127

def carriageReturn : UInt8 := 13

-- The text that takes a character off the screen
def eraseText : List UInt8 := [backspace, 32, backspace]

-- The handler of on_data: the driver after a byte, and the texts that it writes.
def onData (driver : UsartDriver) (byte : UInt8) : UsartDriver × List (List UInt8) :=
  if byte = delete then
    if 0 < driver.readedBeforeNewline then
      ({ driver with
          readedBeforeNewline := driver.readedBeforeNewline - 1
          buffer := driver.buffer ++ [backspace] },
        if driver.echo then [eraseText] else [])
    else ({ driver with buffer := driver.buffer ++ [backspace] }, [])
  else
    let isNewline := byte = newline ∨ byte = carriageReturn
    let c := if isNewline then newline else byte
    let readedBeforeNewline := if isNewline then -1 else driver.readedBeforeNewline
    ({ driver with
        readedBeforeNewline := readedBeforeNewline + 1
        buffer := driver.buffer ++ [c] },
      if driver.echo then [string 0 [c]] else [])

inductive Event
  | data (byte : UInt8)
  | echo (enable : Bool)
deriving DecidableEq, Repr

def step (driver : UsartDriver) : Event → Option UsartDriver
  | .data byte => some (driver.onData byte).1
  | .echo enable => some { driver with echo := enable }

-- A reader that calls _fgets again and again, at the next byte.
def consume (size : Nat) (state : State) (c : UInt8) : Except BufferFault State := do
  let state ← state.round (.byte c)
  if state.Ended then
    let buffer ← put state.buffer state.readed 0
    return State.start buffer size
  else return state

-- The call that is under way after the queued bytes, with buffers of a size.
def lineState (size : Nat) (queued : List UInt8) : Except BufferFault State :=
  queued.foldlM (consume size) (State.start (List.replicate size 0) size)

-- The key takes a character off the line of the call.
def Erases (state : State) (c : UInt8) : Prop := c = backspace ∧ 0 ≤ state.readed

-- The count is the length of the line as a reader of the queued bytes has it,
-- with any buffer that is large enough for them.
def InStep (driver : UsartDriver) : Prop :=
  ∀ size, driver.buffer.length + 2 ≤ size → ∃ state,
    lineState size driver.buffer = .ok state ∧ driver.readedBeforeNewline = state.readed + 1

-- After an event the count is the length of the line, and a byte takes a character
-- off the screen exactly when the reader takes one off the line.
structure Agrees (before : UsartDriver) (event : Event) (after : UsartDriver) : Prop where
  inStep : InStep after
  erases : ∀ byte, event = .data byte → ∀ size, after.buffer.length + 2 ≤ size → ∃ state c,
    lineState size before.buffer = .ok state ∧ after.buffer = before.buffer ++ [c] ∧
      (eraseText ∈ (before.onData byte).2 ↔ before.echo = true ∧ Erases state c)

section Reader

variable {size : Nat} {state : State} {keys queued : List UInt8}

theorem consume_key (h : Holds size keys state) (hrun : ¬state.Ended) {c : UInt8}
    (hc : c ≠ newline) (hroom : (edit backspace keys).length + 2 < size) :
    ∃ next, state.round (.byte c) = .ok next ∧ consume size state c = .ok next ∧
      Holds size (keys ++ [c]) next ∧ ¬next.Ended := by
  obtain ⟨next, htake, hholds, hnext⟩ :=
    round_goes h hrun hc (Or.inr ⟨by omega, by omega⟩)
  have hround : state.round (.byte c) = .ok next := htake
  refine ⟨next, hround, ?_, hholds, hnext⟩
  rw [consume, hround]
  simp only [bind, Except.bind, if_neg hnext]
  rfl

-- A newline ends the call, and the next one has an empty line.
theorem consume_newline (h : Holds size keys state)
    (hroom : (edit backspace keys).length + 2 < size) :
    ∃ next, consume size state newline = .ok next ∧ Holds size [] next ∧ ¬next.Ended := by
  obtain ⟨last, htake, hlast, hc, -⟩ := take_key h newline_ne_backspace (by omega)
  have hround : state.round (.byte newline) = .ok last := htake
  have hended : last.Ended := Or.inl hc
  have hne : edit backspace (keys ++ [newline]) ≠ [] := by
    rw [edit_concat_of_ne newline_ne_backspace]
    exact List.append_ne_nil_of_right_ne_nil _ (List.cons_ne_nil _ _)
  obtain ⟨rest, hput⟩ := put_end hlast hne
  have hlength := length_put hput
  rw [hlast.length] at hlength
  refine ⟨State.start ((edit backspace (keys ++ [newline])).dropLast ++ 0 :: rest) size, ?_, ?_,
    not_ended_start _⟩
  · rw [consume, hround]
    simp only [bind, Except.bind, if_pos hended, hput]
    rfl
  · have hstart := @holds_start ((edit backspace (keys ++ [newline])).dropLast ++ 0 :: rest)
    rwa [hlength] at hstart

theorem lineState_concat (size : Nat) (queued : List UInt8) (c : UInt8) :
    lineState size (queued ++ [c]) = (lineState size queued).bind fun state =>
      consume size state c := by
  rw [lineState, List.foldlM_append]
  change ((lineState size queued).bind fun state => List.foldlM (consume size) state [c]) = _
  congr 1
  funext state
  exact bind_pure _

-- A large buffer always has room, and the line is not longer than the queue.
theorem exists_lineState (hsize : queued.length + 2 ≤ size) :
    ∃ state keys, lineState size queued = .ok state ∧ Holds size keys state ∧ ¬state.Ended ∧
      keys.length ≤ queued.length := by
  induction queued using List.reverseRecOn with
  | nil =>
      refine ⟨_, [], rfl, ?_, not_ended_start _, le_refl _⟩
      have hstart := @holds_start (List.replicate size 0)
      rwa [List.length_replicate] at hstart
  | append_singleton queued c ih =>
      rw [List.length_append, List.length_singleton] at hsize
      obtain ⟨state, keys, hstate, hholds, hrun, hlength⟩ := ih (by omega)
      have hedit := @length_edit_le _ _ backspace keys
      rw [lineState_concat, hstate, List.length_append, List.length_singleton]
      by_cases hc : c = newline
      · subst hc
        obtain ⟨next, hnext, hempty, hrunning⟩ := consume_newline hholds (by omega)
        exact ⟨next, [], hnext, hempty, hrunning, Nat.zero_le _⟩
      · obtain ⟨next, -, hnext, hkeys, hrunning⟩ := consume_key hholds hrun hc (by omega)
        refine ⟨next, keys ++ [c], hnext, hkeys, hrunning, ?_⟩
        rw [List.length_append, List.length_singleton]
        omega

end Reader

section Bytes

variable {driver : UsartDriver} {size : Nat}

theorem inStep_new : InStep new := by
  intro size hsize
  exact ⟨_, rfl, rfl⟩

-- The reader's line after one more byte in the queue
theorem lineState_push (h : InStep driver) (hsize : driver.buffer.length + 3 ≤ size) (c : UInt8) :
    ∃ state next, lineState size driver.buffer = .ok state ∧
      driver.readedBeforeNewline = state.readed + 1 ∧ 0 ≤ state.readed + 1 ∧
      lineState size (driver.buffer ++ [c]) = .ok next ∧
      next.readed = if c = newline then -1 else if c = backspace then
        (if 0 ≤ state.readed then state.readed - 1 else state.readed) else state.readed + 1 := by
  obtain ⟨state, hstate, hcount⟩ := h size (by omega)
  obtain ⟨other, keys, hother, hholds, hrun, hlength⟩ :=
    @exists_lineState size driver.buffer (by omega)
  obtain rfl := Except.ok.inj (hstate.symm.trans hother)
  have hedit := @length_edit_le _ _ backspace keys
  have hreaded := hholds.readed
  have hqueue : lineState size (driver.buffer ++ [c]) = consume size state c := by
    rw [lineState_concat, hstate]
    rfl
  by_cases hc : c = newline
  · subst hc
    obtain ⟨next, hnext, hempty, -⟩ := consume_newline hholds (by omega)
    exact ⟨state, next, hstate, hcount, by omega, hqueue.trans hnext, hempty.readed⟩
  · obtain ⟨next, -, hnext, hkeys, -⟩ := consume_key hholds hrun hc (by omega)
    refine ⟨state, next, hstate, hcount, by omega, hqueue.trans hnext, ?_⟩
    have hnextReaded := hkeys.readed
    rw [if_neg hc]
    by_cases hb : c = backspace
    · subst hb
      rw [edit_concat_erase, List.length_dropLast] at hnextReaded
      rw [if_pos rfl]
      split <;> omega
    · rw [edit_concat_of_ne hb, List.length_append, List.length_singleton] at hnextReaded
      rw [if_neg hb]
      omega

-- What the handler pushes for a byte
def pushed (byte : UInt8) : UInt8 :=
  if byte = delete then backspace
  else if byte = newline ∨ byte = carriageReturn then newline else byte

theorem buffer_onData (driver : UsartDriver) (byte : UInt8) :
    (driver.onData byte).1.buffer = driver.buffer ++ [pushed byte] := by
  unfold onData pushed
  by_cases hd : byte = delete
  · rw [if_pos hd, if_pos hd]
    split <;> rfl
  · rw [if_neg hd, if_neg hd]

theorem count_onData (driver : UsartDriver) (byte : UInt8) :
    (driver.onData byte).1.readedBeforeNewline =
      if byte = delete then
        (if 0 < driver.readedBeforeNewline then driver.readedBeforeNewline - 1
          else driver.readedBeforeNewline)
      else if byte = newline ∨ byte = carriageReturn then 0 else driver.readedBeforeNewline + 1 := by
  unfold onData
  by_cases hd : byte = delete
  · rw [if_pos hd, if_pos hd]
    split <;> rfl
  · rw [if_neg hd, if_neg hd]
    by_cases hn : byte = newline ∨ byte = carriageReturn
    · simp only [if_pos hn]
      rfl
    · simp only [if_neg hn]

theorem eraseText_mem_iff (driver : UsartDriver) (byte : UInt8) :
    eraseText ∈ (driver.onData byte).2 ↔
      driver.echo = true ∧ byte = delete ∧ 0 < driver.readedBeforeNewline := by
  unfold onData
  by_cases hd : byte = delete
  · rw [if_pos hd]
    by_cases hpos : 0 < driver.readedBeforeNewline
    · rw [if_pos hpos]
      cases driver.echo <;> simp [hd, hpos]
    · rw [if_neg hpos]
      simp [hpos]
  · have hne : ∀ c, eraseText ≠ string 0 [c] := by
      intro c h
      have hlength := congrArg List.length h
      have hle := @length_string_le _ _ 0 [c]
      rw [← hlength] at hle
      exact absurd hle (by simp [eraseText])
    rw [if_neg hd]
    cases driver.echo <;> simp [hd, hne]

theorem pushed_eq_newline_iff (byte : UInt8) :
    pushed byte = newline ↔ byte = newline ∨ byte = carriageReturn := by
  unfold pushed
  by_cases hd : byte = delete
  · subst hd
    decide
  · rw [if_neg hd]
    split
    · simp_all
    · rename_i hn
      simp_all

theorem pushed_eq_backspace_iff (byte : UInt8) :
    pushed byte = backspace ↔ byte = delete ∨ byte = backspace := by
  unfold pushed
  by_cases hd : byte = delete
  · simp [hd]
  · rw [if_neg hd]
    split
    · rename_i hn
      rcases hn with rfl | rfl <;> decide
    · simp [hd]

-- The byte that fgets takes for an erased character counts as a character here.
theorem agrees_data_iff (h : InStep driver) (byte : UInt8) :
    Agrees driver (.data byte) (driver.onData byte).1 ↔ byte ≠ backspace := by
  constructor
  · rintro hagrees rfl
    obtain ⟨state, next, -, hcount, hpos, hnext, hreaded⟩ :=
      lineState_push h (le_refl _) backspace
    obtain ⟨after, hafter, hlength⟩ := hagrees.inStep (driver.buffer.length + 3)
      (by rw [buffer_onData, List.length_append]; rfl)
    rw [buffer_onData] at hafter
    obtain rfl := Except.ok.inj (hnext.symm.trans hafter)
    have hsame := count_onData driver backspace
    have hone : (driver.onData backspace).1.readedBeforeNewline =
        driver.readedBeforeNewline + 1 := hsame
    have hback : next.readed = if 0 ≤ state.readed then state.readed - 1 else state.readed := hreaded
    split at hback <;> omega
  · intro hbyte
    have hcount := count_onData driver byte
    have hnewline := pushed_eq_newline_iff byte
    have hbackspace : pushed byte = backspace ↔ byte = delete :=
      (pushed_eq_backspace_iff byte).trans (or_iff_left hbyte)
    constructor
    · intro size hsize
      rw [buffer_onData, List.length_append, List.length_singleton] at hsize
      obtain ⟨state, next, -, hbefore, hpos, hnext, hreaded⟩ := lineState_push h hsize (pushed byte)
      refine ⟨next, by rw [buffer_onData, hnext], ?_⟩
      rw [hcount, hreaded]
      simp only [hnewline, hbackspace]
      by_cases hd : byte = delete
      · subst hd
        have hnot : ¬(delete = newline ∨ delete = carriageReturn) := by decide
        simp only [if_true, if_neg hnot, hbefore]
        split <;> split <;> omega
      · by_cases hn : byte = newline ∨ byte = carriageReturn
        · simp only [if_neg hd, if_pos hn]
          rfl
        · simp only [if_neg hd, if_neg hn]
          omega
    · rintro other ⟨rfl⟩ size hsize
      rw [buffer_onData, List.length_append, List.length_singleton] at hsize
      obtain ⟨state, next, hstate, hbefore, -⟩ := lineState_push h hsize (pushed byte)
      refine ⟨state, pushed byte, hstate, buffer_onData driver byte, ?_⟩
      rw [eraseText_mem_iff, Erases, hbackspace, hbefore]
      simp only [Int.lt_add_one_iff]

theorem transitions_agrees_iff (events : List Event) :
    Transitions step Agrees new events ↔ ∀ event ∈ events, event ≠ .data backspace := by
  have htotal : ∀ state input, ∃ next, step state input = some next := by
    intro state input
    cases input <;> exact ⟨_, rfl⟩
  have hiff : ∀ state input next, InStep state → step state input = some next →
      (Agrees state input next ↔ input ≠ .data backspace) := by
    intro state input next h hs
    cases input with
    | data byte =>
        obtain rfl := Option.some.inj hs
        rw [agrees_data_iff h, ne_eq, ne_eq, Event.data.injEq]
    | echo enable =>
        obtain rfl := Option.some.inj hs
        exact iff_of_true ⟨h, fun _ he => nomatch he⟩ (fun he => nomatch he)
  rw [← respects_iff_forall htotal new]
  exact transitions_iff_respects InStep
    (fun state input next h hg hs => ((hiff state input next h hs).mpr hg).inStep) hiff inStep_new

-- After a character and a byte 8 the reader has an empty line, the driver counts
-- two characters: the next two deletes take them off the screen.
theorem backspace_drifts :
    run step new [.data 97, .data backspace] = some ⟨2, [97, backspace], true⟩ ∧
      (lineState 4 [97, backspace]).map State.readed = .ok (-1) ∧
        ¬Transitions step Agrees new [.data 97, .data backspace] := by
  refine ⟨by decide, by decide, fun h => ?_⟩
  obtain ⟨-, hrest⟩ := h _ rfl
  obtain ⟨hagrees, -⟩ := hrest _ rfl
  obtain ⟨state, hstate, hcount⟩ := hagrees.inStep 4 (by decide)
  have hreaded : (lineState 4 [97, backspace]).map State.readed = .ok (-1) := by decide
  change lineState 4 [97, backspace] = .ok state at hstate
  rw [hstate] at hreaded
  have hline : state.readed = -1 := Except.ok.inj hreaded
  rw [hline] at hcount
  exact absurd hcount (by decide)

end Bytes

end UsartDriver

end Msos.Drivers
