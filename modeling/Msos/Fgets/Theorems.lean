import Mathlib.Data.List.ReduceOption
import Msos.Fgets
import Msos.Library.CString
import Msos.Library.Fallible
import Msos.Library.LineEdit

namespace Msos.Fgets

open Msos.Library Msos.Fs LineEdit CString

-- A byte that a stream has ready, or none yet
def Reading.ofByte : Option UInt8 → Reading
  | some c => .byte c
  | none => .nothing

section Rounds

variable {size : Nat} {keys : List UInt8} {state : State}

-- In a call with a buffer of a size the keys so far have left their line at the
-- front of the buffer.
structure Holds (size : Nat) (keys : List UInt8) (state : State) : Prop where
  readed : state.readed = (edit backspace keys).length - 1
  n : state.n = size - (edit backspace keys).length
  length : state.buffer.length = size
  text : state.buffer.take (edit backspace keys).length = edit backspace keys

theorem holds_start {buffer : List UInt8} :
    Holds buffer.length [] (State.start buffer buffer.length) :=
  ⟨rfl, (Int.sub_zero _).symm, rfl, rfl⟩

theorem Holds.length_le (h : Holds size keys state) :
    (edit backspace keys).length ≤ size := by
  have hlength := congrArg List.length h.text
  rw [List.length_take, h.length] at hlength
  omega

theorem length_put {buffer after : List UInt8} {index : Int} {value : UInt8}
    (h : put buffer index value = .ok after) : after.length = buffer.length := by
  unfold put at h
  split at h
  · rw [← Except.ok.inj h, List.length_set]
  · cases h

theorem take_backspace (h : Holds size keys state) :
    ∃ next, state.take backspace = .ok next ∧ Holds size (keys ++ [backspace]) next ∧
      next.c = backspace ∧ next.isLeft = state.isLeft := by
  obtain ⟨hreaded, hn, hlength, htext⟩ := h
  rw [State.take, if_pos rfl]
  by_cases hempty : edit backspace keys = []
  · have hnone : ¬0 ≤ state.readed := by
      rw [hreaded, hempty]
      decide
    rw [if_neg hnone]
    refine ⟨_, rfl, ⟨?_, ?_, hlength, ?_⟩, rfl, rfl⟩ <;> rw [edit_concat_erase, hempty]
    · rw [hreaded, hempty]
      rfl
    · rw [hn, hempty]
      rfl
    · rfl
  · have hpos := List.length_pos_iff.mpr hempty
    rw [if_pos (by omega)]
    refine ⟨_, rfl, ⟨?_, ?_, hlength, ?_⟩, rfl, rfl⟩ <;> rw [edit_concat_erase, List.length_dropLast]
    · simp only [hreaded]
      omega
    · simp only [hn]
      omega
    · rw [List.dropLast_eq_take, ← htext, List.take_take, List.length_take]
      congr 1
      omega

theorem take_key (h : Holds size keys state) {c : UInt8} (hc : c ≠ backspace)
    (hroom : (edit backspace keys).length < size) :
    ∃ next, state.take c = .ok next ∧ Holds size (keys ++ [c]) next ∧ next.c = c ∧
      (next.isLeft = true ↔ (edit backspace keys).length + 2 = size) := by
  obtain ⟨hreaded, hn, hlength, htext⟩ := h
  have hindex : state.readed + 1 = ((edit backspace keys).length : Int) := by omega
  have hput : put state.buffer (state.readed + 1) c =
      .ok (state.buffer.set (edit backspace keys).length c) := by
    rw [put, hindex, if_pos (by omega)]
    rfl
  rw [State.take, if_neg hc, hput]
  refine ⟨_, rfl, ⟨?_, ?_, ?_, ?_⟩, rfl, ?_⟩
  · rw [edit_concat_of_ne hc, List.length_append, List.length_singleton]
    simp only [hreaded]
    omega
  · rw [edit_concat_of_ne hc, List.length_append, List.length_singleton]
    simp only [hn]
    omega
  · simp only [List.length_set, hlength]
  · rw [edit_concat_of_ne hc, List.length_append, List.length_singleton]
    rw [List.take_add_one, List.take_set_of_le (le_refl _), htext,
      List.getElem?_set_self (by omega)]
    rfl
  · simp only [decide_eq_true_eq]
    omega

theorem take_full (h : Holds size keys state) {c : UInt8} (hc : c ≠ backspace)
    (hfull : (edit backspace keys).length = size) : state.take c = .error .outOfBounds := by
  have hput : put state.buffer (state.readed + 1) c = .error .outOfBounds := by
    rw [put, h.readed, if_neg (by rw [h.length]; omega)]
  rw [State.take, if_neg hc, hput]
  rfl

end Rounds

section Loop

variable {size : Nat} {keys : List UInt8} {state : State}

-- Keys that do not end the loop, and that there is room for.
def Goes (size : Nat) (keys : List UInt8) : Prop :=
  ∀ first key, first ++ [key] <+: keys → key ≠ newline ∧ (key = backspace ∨
    (edit backspace first).length < size ∧ (edit backspace first).length + 2 ≠ size)

theorem loop_of_ended (h : state.Ended) (readings : List Reading) :
    state.loop readings = .ok (state, readings) := by
  cases readings with
  | nil => rfl
  | cons reading rest => rw [State.loop, if_pos h]

theorem loop_cons (h : ¬state.Ended) {reading : Reading} {next : State}
    (hr : state.round reading = .ok next) (rest : List Reading) :
    state.loop (reading :: rest) = next.loop rest := by
  rw [State.loop, if_neg h, hr]
  rfl

theorem round_goes (h : Holds size keys state) (hrun : ¬state.Ended) {key : UInt8}
    (hkey : key ≠ newline) (hroom : key = backspace ∨
      (edit backspace keys).length < size ∧ (edit backspace keys).length + 2 ≠ size) :
    ∃ next, state.take key = .ok next ∧ Holds size (keys ++ [key]) next ∧ ¬next.Ended := by
  have hleft : ¬state.isLeft = true := fun hl => hrun (Or.inr hl)
  by_cases hb : key = backspace
  · subst hb
    obtain ⟨next, hnext, hholds, hc, hsame⟩ := take_backspace h
    refine ⟨next, hnext, hholds, ?_⟩
    rintro (hn | hn)
    · exact hkey (hc.symm.trans hn)
    · exact hleft (hsame ▸ hn)
  · obtain ⟨hlt, hne⟩ := hroom.resolve_left hb
    obtain ⟨next, hnext, hholds, hc, hiff⟩ := take_key h hb hlt
    refine ⟨next, hnext, hholds, ?_⟩
    rintro (hn | hn)
    · exact hkey (hc.symm.trans hn)
    · exact hne (hiff.mp hn)

-- The loop takes what is ready of such keys, and then goes on.
theorem loop_goes (stream : List (Option UInt8)) (h : Holds size keys state)
    (hrun : ¬state.Ended) (hgoes : Goes size (keys ++ stream.reduceOption)) :
    ∃ next, Holds size (keys ++ stream.reduceOption) next ∧ ¬next.Ended ∧
      ∀ rest, state.loop (stream.map Reading.ofByte ++ rest) = next.loop rest := by
  induction stream generalizing keys state with
  | nil =>
      rw [List.reduceOption_nil, List.append_nil]
      exact ⟨state, h, hrun, fun _ => rfl⟩
  | cons entry rest ih =>
      cases entry with
      | none =>
          rw [List.reduceOption_cons_of_none] at hgoes ⊢
          obtain ⟨next, hholds, hnext, hloop⟩ := ih h hrun hgoes
          exact ⟨next, hholds, hnext, fun tail => by
            rw [← hloop tail]
            exact loop_cons hrun rfl _⟩
      | some key =>
          rw [List.reduceOption_cons_of_some, ← List.singleton_append, ← List.append_assoc]
            at hgoes ⊢
          obtain ⟨hkey, hroom⟩ := hgoes keys key (List.prefix_append _ _)
          obtain ⟨middle, htake, hmiddle, hrunning⟩ := round_goes h hrun hkey hroom
          obtain ⟨next, hholds, hnext, hloop⟩ := ih hmiddle hrunning hgoes
          exact ⟨next, hholds, hnext, fun tail => by
            rw [← hloop tail]
            exact @loop_cons _ hrun (.byte key) _ htake _⟩

-- Below the size by two no key is the last one that there is room for; a buffer
-- of one byte has room for one key.
theorem goes_of_below (hnew : newline ∉ keys) (h : Below backspace (size - 1) keys ∨
    size = 1 ∧ Below backspace 2 keys) : Goes size keys := by
  intro first key hp
  refine ⟨fun hkey => hnew (hp.subset (by simp [hkey])), ?_⟩
  by_cases hb : key = backspace
  · exact Or.inl hb
  · right
    have hlength : (edit backspace (first ++ [key])).length = (edit backspace first).length + 1 := by
      rw [edit_concat_of_ne hb, List.length_append]
      rfl
    rcases h with h | ⟨rfl, h⟩
    · have hlt := h _ hp
      omega
    · have hlt := h _ hp
      omega

end Loop

section Returns

variable {size : Nat} {keys : List UInt8} {state : State} {buffer : List UInt8}
  {stream : List (Option UInt8)}

-- The end takes the place of the last element of the line.
theorem put_end (h : Holds size keys state) (hne : edit backspace keys ≠ []) :
    ∃ rest, put state.buffer state.readed 0 = .ok ((edit backspace keys).dropLast ++ 0 :: rest) := by
  have hpos := List.length_pos_iff.mpr hne
  have hle := h.length_le
  have hindex : state.readed = (((edit backspace keys).length - 1 : Nat) : Int) := by
    rw [h.readed]
    omega
  have hlast : (edit backspace keys).dropLast =
      state.buffer.take ((edit backspace keys).length - 1) := by
    have htake := congrArg (List.take ((edit backspace keys).length - 1)) h.text
    rw [List.take_take, Nat.min_eq_left (by omega)] at htake
    rw [List.dropLast_eq_take, htake]
  refine ⟨state.buffer.drop ((edit backspace keys).length - 1 + 1), ?_⟩
  rw [put, hindex, if_pos (by rw [h.length]; omega), Int.toNat_natCast,
    List.set_eq_take_append_cons_drop, if_pos (by rw [h.length]; omega), hlast]

theorem fgets_ended {readings rest : List Reading}
    (hloop : (State.start buffer buffer.length).loop readings = .ok (state, rest))
    (hended : state.Ended) (h : Holds buffer.length keys state) (hne : edit backspace keys ≠ []) :
    ∃ tail, fgets buffer buffer.length readings =
      .ok (some ((edit backspace keys).dropLast ++ 0 :: tail, rest)) := by
  obtain ⟨tail, hput⟩ := put_end h hne
  refine ⟨tail, ?_⟩
  rw [fgets, hloop]
  simp only [bind, Except.bind, if_pos hended, hput]
  rfl

theorem fgets_running {readings rest : List Reading}
    (hloop : (State.start buffer buffer.length).loop readings = .ok (state, rest))
    (hrun : ¬state.Ended) : fgets buffer buffer.length readings = .ok none := by
  rw [fgets, hloop]
  simp only [bind, Except.bind, if_neg hrun]
  rfl

theorem not_ended_start (n : Int) : ¬(State.start buffer n).Ended := by
  simp [State.Ended, State.start, newline]

-- The call returns with a newline, or with the last key but one that there is
-- room for; the key itself is not in the string.
theorem fgets_key {front back : List (Option UInt8)} {key : UInt8}
    (hgoes : Goes buffer.length front.reduceOption) (hkey : key ≠ backspace)
    (hroom : (edit backspace front.reduceOption).length < buffer.length)
    (hend : key = newline ∨ (edit backspace front.reduceOption).length + 2 = buffer.length) :
    ∃ tail, fgets buffer buffer.length ((front ++ some key :: back).map Reading.ofByte) =
      .ok (some (edit backspace front.reduceOption ++ 0 :: tail, back.map Reading.ofByte)) := by
  obtain ⟨before, hbefore, hrun, hloop⟩ :=
    loop_goes front holds_start (not_ended_start _) (by rwa [List.nil_append])
  rw [List.nil_append] at hbefore
  obtain ⟨last, htake, hlast, hc, hleft⟩ := take_key hbefore hkey hroom
  have hended : last.Ended := by
    rcases hend with rfl | hfull
    · exact Or.inl hc
    · exact Or.inr (hleft.mpr hfull)
  have hstart : (State.start buffer buffer.length).loop
      ((front ++ some key :: back).map Reading.ofByte) = .ok (last, back.map Reading.ofByte) := by
    rw [List.map_append, hloop, List.map_cons, ← loop_of_ended hended]
    exact @loop_cons _ hrun (.byte key) _ htake _
  have hne : edit backspace (front.reduceOption ++ [key]) ≠ [] := by
    rw [edit_concat_of_ne hkey]
    exact List.append_ne_nil_of_right_ne_nil _ (List.cons_ne_nil _ _)
  obtain ⟨tail, htail⟩ := fgets_ended hstart hended hlast hne
  rw [edit_concat_of_ne hkey, List.dropLast_concat] at htail
  exact ⟨tail, htail⟩

theorem fgets_full {front back : List (Option UInt8)} {key : UInt8}
    (hgoes : Goes buffer.length front.reduceOption) (hkey : key ≠ backspace)
    (hfull : (edit backspace front.reduceOption).length = buffer.length) :
    fgets buffer buffer.length ((front ++ some key :: back).map Reading.ofByte) =
      .error .outOfBounds := by
  obtain ⟨before, hbefore, hrun, hloop⟩ :=
    loop_goes front holds_start (not_ended_start _) (by rwa [List.nil_append])
  rw [List.nil_append] at hbefore
  rw [fgets, List.map_append, hloop, List.map_cons, State.loop, if_neg hrun]
  have hround : before.round (Reading.ofByte (some key)) = .error .outOfBounds :=
    take_full hbefore hkey hfull
  rw [hround]
  rfl

theorem fgets_goes (hgoes : Goes buffer.length stream.reduceOption) :
    fgets buffer buffer.length (stream.map Reading.ofByte) = .ok none := by
  obtain ⟨before, -, hrun, hloop⟩ :=
    loop_goes stream holds_start (not_ended_start _) (by rwa [List.nil_append])
  apply fgets_running _ hrun
  · exact []
  · have hend := hloop []
    rwa [List.append_nil, State.loop] at hend

end Returns

section Lines

variable {buffer : List UInt8} {stream : List (Option UInt8)}

-- The keys in front of the first newline
def keysOf (bytes : List UInt8) : List UInt8 := bytes.takeWhile (· ≠ newline)

-- The line that bytes leave: edited, and without a newline at its end.
def lineOf (bytes : List UInt8) : List UInt8 :=
  let line := edit backspace bytes
  if line.getLast? = some newline then line.dropLast else line

-- The call returns, and its buffer holds the line of exactly the bytes that it
-- has taken from the stream.
def KeepsConsumed (buffer : List UInt8) (stream : List (Option UInt8)) : Prop :=
  ∃ consumed rest after, stream = consumed ++ rest ∧
    fgets buffer buffer.length (stream.map Reading.ofByte) =
      .ok (some (after, rest.map Reading.ofByte)) ∧
    0 ∈ after ∧ string 0 after = lineOf consumed.reduceOption

theorem newline_notMem_keysOf (bytes : List UInt8) : newline ∉ keysOf bytes := by
  intro h
  simpa using List.mem_takeWhile_imp h

theorem keysOf_append {front : List UInt8} (h : newline ∉ front) (back : List UInt8) :
    keysOf (front ++ newline :: back) = front := by
  have hall : ∀ c ∈ front, decide (c ≠ newline) = true := fun c hc =>
    decide_eq_true fun hn => h (hn ▸ hc)
  rw [keysOf, List.takeWhile_append_of_pos hall]
  simp

theorem keysOf_of_notMem {bytes : List UInt8} (h : newline ∉ bytes) : keysOf bytes = bytes := by
  rw [keysOf, List.takeWhile_eq_self_iff]
  exact fun c hc => decide_eq_true fun hn => h (hn ▸ hc)

theorem exists_newline (h : some newline ∈ stream) :
    ∃ front back, stream = front ++ some newline :: back ∧ newline ∉ front.reduceOption ∧
      keysOf stream.reduceOption = front.reduceOption := by
  obtain ⟨front, back, rfl, hfront⟩ := List.eq_append_cons_of_mem h
  have hnew : newline ∉ front.reduceOption := fun hm => hfront (List.reduceOption_mem_iff.mp hm)
  refine ⟨front, back, rfl, hnew, ?_⟩
  rw [List.reduceOption_append, List.reduceOption_cons_of_some]
  exact keysOf_append hnew _

-- A stream splits where its bytes do.
theorem exists_split {first : List UInt8} {key : UInt8}
    (h : first ++ [key] <+: keysOf stream.reduceOption) :
    ∃ front back, stream = front ++ some key :: back ∧ front.reduceOption = first := by
  have htake : keysOf stream.reduceOption <+: stream.reduceOption := List.takeWhile_prefix _
  obtain ⟨rest, hrest⟩ := h.trans htake
  obtain ⟨before, behind, rfl, hbefore, -⟩ :=
    (List.reduceOption_eq_append_iff _ _ _).mp hrest.symm
  rw [← List.concat_eq_append] at hbefore
  obtain ⟨front, back, rfl, hfront, -⟩ := (List.reduceOption_eq_concat_iff _ _ _).mp hbefore
  exact ⟨front, back ++ behind, by simp, hfront⟩

theorem newline_ne_backspace : newline ≠ backspace := by decide

theorem lineOf_newline {bytes : List UInt8} :
    lineOf (bytes ++ [newline]) = edit backspace bytes := by
  simp [lineOf, edit_concat_of_ne newline_ne_backspace]

theorem lineOf_key {bytes : List UInt8} {key : UInt8} (hb : key ≠ backspace) (hn : key ≠ newline) :
    lineOf (bytes ++ [key]) = edit backspace bytes ++ [key] := by
  simp [lineOf, edit_concat_of_ne hb, hn]

theorem notMem_edit {front : List (Option UInt8)} (h : some 0 ∉ front) :
    0 ∉ edit backspace front.reduceOption :=
  fun hm => h (List.reduceOption_mem_iff.mp (mem_of_mem_edit hm))

theorem keepsConsumed_iff (hn : 2 ≤ buffer.length) (hline : some newline ∈ stream)
    (hnul : some 0 ∉ stream) :
    KeepsConsumed buffer stream ↔
      Below backspace (buffer.length - 1) (keysOf stream.reduceOption) := by
  have hnew := newline_notMem_keysOf stream.reduceOption
  by_cases hbelow : Below backspace (buffer.length - 1) (keysOf stream.reduceOption)
  · refine iff_of_true ?_ hbelow
    obtain ⟨front, back, rfl, hfront, hkeys⟩ := exists_newline hline
    rw [hkeys] at hbelow hnew
    have hroom := hbelow _ (List.prefix_refl _)
    obtain ⟨tail, htail⟩ := @fgets_key buffer front back newline
      (goes_of_below hnew (Or.inl hbelow)) newline_ne_backspace (by omega) (Or.inl rfl)
    refine ⟨front ++ [some newline], back, _, by simp, htail, by simp, ?_⟩
    rw [string_append_nul (notMem_edit fun hm => hnul (List.mem_append_left _ hm)),
      List.reduceOption_append, List.reduceOption_singleton]
    exact lineOf_newline.symm
  · refine iff_of_false ?_ hbelow
    -- the key that fills the line is taken, and is not in the string
    obtain ⟨first, key, hp, hfirst, hkey, hfull⟩ := exists_full (by omega) hbelow
    obtain ⟨front, back, rfl, rfl⟩ := exists_split hp
    have hnot : key ≠ newline := fun hk => hnew (hp.subset (by simp [hk]))
    have hgoes : Goes buffer.length front.reduceOption := by
      refine goes_of_below (fun hm => hnew (hp.subset ?_)) (Or.inl hfirst)
      exact List.mem_append_left _ hm
    obtain ⟨tail, htail⟩ := @fgets_key buffer front back key hgoes hkey (by omega)
      (Or.inr (by omega))
    rintro ⟨consumed, rest, after, hstream, hreturns, -, hstring⟩
    obtain ⟨rfl, hrest⟩ := Prod.mk.inj (Option.some.inj (Except.ok.inj (htail.symm.trans hreturns)))
    have hlength : back.length = rest.length := by simpa using congrArg List.length hrest
    obtain ⟨rfl, -⟩ : front ++ [some key] = consumed ∧ back = rest := by
      refine List.append_inj' ?_ hlength
      rw [← hstream, List.append_assoc]
      rfl
    rw [string_append_nul (notMem_edit fun hm => hnul (List.mem_append_left _ hm)),
      List.reduceOption_append, List.reduceOption_singleton] at hstring
    have hline := hstring.trans (lineOf_key hkey hnot)
    exact absurd (congrArg List.length hline) (by simp)

theorem keepsConsumed_iff_short :
    KeepsConsumed [0, 0, 0, 0] [some 97, none, some 98, some newline] ↔
      Below backspace 3 (keysOf [97, 98, newline]) :=
  keepsConsumed_iff (by decide) (by decide) (by decide)

-- The line abc fills a buffer of four bytes: the string is ab.
theorem fgets_loses_last :
    fgets [0, 0, 0, 0] 4 [.byte 97, .byte 98, .byte 99, .byte newline] =
        .ok (some ([97, 98, 0, 0], [.byte newline])) ∧
      ¬KeepsConsumed [0, 0, 0, 0] [some 97, some 98, some 99, some newline] := by
  have hreturned : fgets [0, 0, 0, 0] 4 [.byte 97, .byte 98, .byte 99, .byte newline] =
      .ok (some ([97, 98, 0, 0], [.byte newline])) := by decide
  refine ⟨hreturned, ?_⟩
  rintro ⟨consumed, rest, after, hstream, hreturns, -, hstring⟩
  obtain ⟨rfl, hrest⟩ :=
    Prod.mk.inj (Option.some.inj (Except.ok.inj (hreturned.symm.trans hreturns)))
  have hlength : [some newline].length = rest.length := by simpa using congrArg List.length hrest
  obtain ⟨rfl, -⟩ : [some 97, some 98, some 99] = consumed ∧ [some newline] = rest :=
    List.append_inj' hstream hlength
  exact absurd hstring (by decide)

end Lines

section Files

variable {buffer : List UInt8} {bytes : List UInt8}

-- The call on a file returns, and has written inside the buffer only.
def Ends {File : Type} (read : File → List UInt8 → ReadResult File) (file : File)
    (buffer : List UInt8) : Prop :=
  ∃ count reads after rest, readings read count file = .ok reads ∧
    fgets buffer buffer.length reads = .ok (some (after, rest))

-- What is left of the file has a newline or fills the line; a buffer of one byte
-- is never full, and has no room for a line in front of the newline.
def EndsOn (size : Nat) (bytes : List UInt8) : Prop :=
  if size = 1 then newline ∈ bytes ∧ edit backspace (keysOf bytes) = [] ∧
    Below backspace 2 (keysOf bytes)
  else newline ∈ bytes ∨ ¬Below backspace (size - 1) bytes

-- The stream of the first reads on a file
def ahead (bytes : List UInt8) (count : Nat) : List (Option UInt8) :=
  (bytes.take count).map some ++ List.replicate (count - bytes.length) none

theorem reduceOption_ahead (bytes : List UInt8) (count : Nat) :
    (ahead bytes count).reduceOption = bytes.take count := by
  rw [ahead, List.reduceOption_append, List.reduceOption_replicate_none, List.append_nil]
  induction bytes.take count with
  | nil => rfl
  | cons head rest ih => rw [List.map_cons, List.reduceOption_cons_of_some, ih]

-- A file that reads on in its content gives the bytes from its position on, and
-- then nothing.
theorem readings_eq {File : Type} {read : File → List UInt8 → ReadResult File}
    {content : List UInt8} {at_ : Nat → File}
    (hread : ∀ position buffer, read (at_ position) buffer =
      (Cursor.readAt content.length content position buffer).map fun (buffer, len, position) =>
        (buffer, (len : Int), at_ position)) (count position : Nat) :
    readings read count (at_ position) =
      .ok ((ahead (content.drop position) count).map Reading.ofByte) := by
  induction count generalizing position with
  | zero => simp [readings, ahead]
  | succ count ih =>
      rw [readings, hread, Cursor.readAt_eq]
      cases hrest : content.drop position with
      | nil =>
          have hchunk : Cursor.chunk content position 1 = [] := by rw [Cursor.chunk, hrest]; rfl
          simp only [Except.map, bind, Except.bind, List.length_singleton, hchunk, List.length_nil,
            Nat.add_zero, ih, hrest]
          refine congrArg Except.ok ?_
          simp [ahead, Reading.ofRead, Reading.ofByte, List.replicate_succ]
      | cons head tail =>
          have hchunk : Cursor.chunk content position 1 = [head] := by
            rw [Cursor.chunk, hrest]
            rfl
          have hnext : content.drop (position + 1) = tail := by
            rw [← List.drop_drop, hrest]
            rfl
          simp only [Except.map, bind, Except.bind, List.length_singleton, hchunk, ih, hnext]
          refine congrArg Except.ok ?_
          simp [ahead, Reading.ofRead, Reading.ofByte]

theorem endsOn_one : EndsOn 1 bytes ↔ newline ∈ bytes ∧ edit backspace (keysOf bytes) = [] ∧
    Below backspace 2 (keysOf bytes) := by
  rw [EndsOn, if_pos rfl]

theorem endsOn_of_ne {size : Nat} (h : size ≠ 1) :
    EndsOn size bytes ↔ newline ∈ bytes ∨ ¬Below backspace (size - 1) bytes := by
  rw [EndsOn, if_neg h]

variable {stream : List (Option UInt8)}

def Returns (buffer : List UInt8) (stream : List (Option UInt8)) : Prop :=
  ∃ after rest, fgets buffer buffer.length (stream.map Reading.ofByte) = .ok (some (after, rest))

-- The line does not reach the length: the newline ends it.
theorem returns_of_newline (hnew : some newline ∈ stream)
    (hgoes : Goes buffer.length (keysOf stream.reduceOption))
    (hroom : (edit backspace (keysOf stream.reduceOption)).length < buffer.length) :
    Returns buffer stream := by
  obtain ⟨front, back, rfl, -, hkeys⟩ := exists_newline hnew
  rw [hkeys] at hgoes hroom
  obtain ⟨tail, htail⟩ := @fgets_key buffer front back newline hgoes newline_ne_backspace hroom
    (Or.inl rfl)
  exact ⟨_, _, htail⟩

theorem notMem_of_front {first : List UInt8} {key : UInt8}
    (h : first ++ [key] <+: keysOf bytes) : newline ∉ first := fun hm =>
  newline_notMem_keysOf bytes (h.subset (List.mem_append_left _ hm))

theorem returns_iff (hn : 2 ≤ buffer.length) :
    Returns buffer stream ↔ EndsOn buffer.length stream.reduceOption := by
  rw [endsOn_of_ne (by omega)]
  constructor
  · rintro ⟨after, rest, hreturns⟩
    by_contra hnone
    obtain ⟨hnew, hbelow⟩ := not_or.mp hnone
    have hrunning := @fgets_goes buffer stream (goes_of_below hnew (Or.inl (not_not.mp hbelow)))
    rw [hreturns] at hrunning
    cases hrunning
  · intro h
    by_cases hbelow : Below backspace (buffer.length - 1) (keysOf stream.reduceOption)
    · have hnew : newline ∈ stream.reduceOption := by
        by_contra hnone
        rw [keysOf_of_notMem hnone] at hbelow
        exact h.elim hnone fun hfull => hfull hbelow
      have hroom := hbelow _ (List.prefix_refl _)
      exact returns_of_newline (List.reduceOption_mem_iff.mp hnew)
        (goes_of_below (newline_notMem_keysOf _) (Or.inl hbelow)) (by omega)
    · obtain ⟨first, key, hp, hfirst, hkey, hfull⟩ := exists_full (by omega) hbelow
      obtain ⟨front, back, rfl, rfl⟩ := exists_split hp
      obtain ⟨tail, htail⟩ := @fgets_key buffer front back key
        (goes_of_below (notMem_of_front hp) (Or.inl hfirst)) hkey (by omega) (Or.inr (by omega))
      exact ⟨_, _, htail⟩

theorem returns_one_iff (hn : buffer.length = 1) :
    Returns buffer stream ↔ EndsOn buffer.length stream.reduceOption := by
  rw [hn, endsOn_one]
  constructor
  · rintro ⟨after, rest, hreturns⟩
    have hbelow : Below backspace 2 (keysOf stream.reduceOption) := by
      by_contra hfull
      obtain ⟨first, key, hp, hfirst, hkey, hlength⟩ := exists_full (by omega) hfull
      obtain ⟨front, back, rfl, rfl⟩ := exists_split hp
      have hfault := @fgets_full buffer front back key
        (goes_of_below (notMem_of_front hp) (Or.inr ⟨hn, hfirst⟩)) hkey (by omega)
      rw [hreturns] at hfault
      cases hfault
    have hnew : newline ∈ stream.reduceOption := by
      by_contra hnone
      rw [keysOf_of_notMem hnone] at hbelow
      have hrunning := @fgets_goes buffer stream (goes_of_below hnone (Or.inr ⟨hn, hbelow⟩))
      rw [hreturns] at hrunning
      cases hrunning
    refine ⟨hnew, ?_, hbelow⟩
    by_contra hne
    have hpos := List.length_pos_iff.mpr hne
    have hlt := hbelow _ (List.prefix_refl _)
    obtain ⟨front, back, rfl, hfront, hkeys⟩ := exists_newline (List.reduceOption_mem_iff.mp hnew)
    rw [hkeys] at hbelow hpos hlt
    have hfault := @fgets_full buffer front back newline
      (goes_of_below hfront (Or.inr ⟨hn, hbelow⟩)) newline_ne_backspace (by omega)
    rw [hreturns] at hfault
    cases hfault
  · rintro ⟨hnew, hempty, hbelow⟩
    refine returns_of_newline (List.reduceOption_mem_iff.mp hnew)
      (goes_of_below (newline_notMem_keysOf _) (Or.inr ⟨hn, hbelow⟩)) ?_
    rw [hempty, hn]
    exact Nat.one_pos

-- A file ends the call as soon as one of its beginnings does.
theorem endsOn_take (size count : Nat) (h : EndsOn size (bytes.take count)) : EndsOn size bytes := by
  have hstart := List.take_prefix count bytes
  by_cases hone : size = 1
  · subst hone
    obtain ⟨hnew, hline⟩ := endsOn_one.mp h
    obtain ⟨front, back, htake, hfront⟩ := List.eq_append_cons_of_mem hnew
    have hkeys : keysOf bytes = keysOf (bytes.take count) := by
      rw [htake, keysOf_append hfront]
      conv_lhs => rw [← List.take_append_drop count bytes, htake, List.append_assoc]
      exact keysOf_append hfront _
    exact endsOn_one.mpr ⟨hstart.subset hnew, hkeys ▸ hline⟩
  · rw [endsOn_of_ne hone] at h ⊢
    rcases h with hnew | hfull
    · exact Or.inl (hstart.subset hnew)
    · exact Or.inr fun hbelow => hfull (hbelow.of_front hstart)

theorem ends_iff_of_read {File : Type} {read : File → List UInt8 → ReadResult File}
    {content : List UInt8} {at_ : Nat → File}
    (hread : ∀ position buffer, read (at_ position) buffer =
      (Cursor.readAt content.length content position buffer).map fun (buffer, len, position) =>
        (buffer, (len : Int), at_ position)) (position : Nat) (hn : 1 ≤ buffer.length) :
    Ends read (at_ position) buffer ↔ EndsOn buffer.length (content.drop position) := by
  have hreturns : ∀ stream, Returns buffer stream ↔ EndsOn buffer.length stream.reduceOption := by
    intro stream
    rcases Nat.lt_or_ge buffer.length 2 with hlt | hge
    · exact returns_one_iff (by omega)
    · exact returns_iff hge
  constructor
  · rintro ⟨count, reads, after, rest, hreads, hfgets⟩
    rw [readings_eq hread] at hreads
    obtain rfl := Except.ok.inj hreads
    apply endsOn_take _ count
    rw [← reduceOption_ahead]
    exact (hreturns _).mp ⟨after, rest, hfgets⟩
  · intro h
    rw [← List.take_length (l := content.drop position), ← reduceOption_ahead] at h
    obtain ⟨after, rest, hfgets⟩ := (hreturns _).mpr h
    exact ⟨_, _, after, rest, readings_eq hread _ position, hfgets⟩

theorem ends_iff (hn : 1 ≤ buffer.length) :
    (∀ (fs : RamFs) (file : RamfsFile),
      Ends (fun file buffer => file.readInto fs buffer) file buffer ↔
        EndsOn buffer.length ((fs.contents file.data).drop file.position)) ∧
    ∀ file : RomFsFile,
      Ends RomFsFile.read file buffer ↔
        EndsOn buffer.length (file.file.data.drop file.position) := by
  constructor
  · intro fs file
    exact @ends_iff_of_read buffer _ (fun file buffer => file.readInto fs buffer)
      (fs.contents file.data) (fun position => { file with position := position })
      (fun _ _ => rfl) file.position hn
  · intro file
    refine @ends_iff_of_read buffer _ _ file.file.data
      (fun position => { file with position := position }) (fun _ _ => ?_) file.position hn
    rw [file.file.getSize_eq]
    rfl

-- The buffer that the shell reads its configuration into
theorem ends_iff_config :
    (∀ (fs : RamFs) (file : RamfsFile),
      Ends (fun file buffer => file.readInto fs buffer) file (List.replicate 255 0) ↔
        EndsOn (List.replicate 255 (0 : UInt8)).length
          ((fs.contents file.data).drop file.position)) ∧
    ∀ file : RomFsFile,
      Ends RomFsFile.read file (List.replicate 255 0) ↔
        EndsOn (List.replicate 255 (0 : UInt8)).length (file.file.data.drop file.position) :=
  ends_iff (by rw [List.length_replicate]; omega)

-- On an empty file every read returns 0, and the loop goes on.
theorem empty_file_not_ends :
    (∀ count, readings RomFsFile.read count ⟨⟨0, [], rfl⟩, 0⟩ =
      .ok (List.replicate count .nothing)) ∧
    ¬Ends RomFsFile.read ⟨⟨0, [], rfl⟩, 0⟩ (List.replicate 255 0) := by
  have hreads : ∀ count, readings RomFsFile.read count ⟨⟨0, [], rfl⟩, 0⟩ =
      .ok (List.replicate count .nothing) := by
    intro count
    induction count with
    | zero => rfl
    | succ count ih =>
        rw [readings, List.replicate_succ]
        change (readings RomFsFile.read count ⟨⟨0, [], rfl⟩, 0⟩ >>= fun rest =>
          .ok (.nothing :: rest)) = _
        rw [ih]
        rfl
  refine ⟨hreads, ?_⟩
  rintro ⟨count, reads, after, rest, hcount, hreturns⟩
  obtain rfl := Except.ok.inj ((hreads count).symm.trans hcount)
  have hloop : ∀ count, (State.start (List.replicate 255 0)
      (List.replicate 255 (0 : UInt8)).length).loop (List.replicate count .nothing) =
        .ok (State.start (List.replicate 255 0) (List.replicate 255 (0 : UInt8)).length, []) := by
    intro count
    induction count with
    | zero => rfl
    | succ count ih => exact ih
  rw [fgets_running (hloop count) (not_ended_start _)] at hreturns
  cases hreturns

end Files

end Msos.Fgets
