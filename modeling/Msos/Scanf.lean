import Msos.Fgets.Theorems

namespace Msos.Scanf

open Msos.Library Msos.Fgets LineEdit Fallible

-- The variables of __vfscanf_ with the buffer that the format names.
structure State where
  buffer : List UInt8
  readed : Int
  c : UInt8
deriving DecidableEq, Repr

namespace State

def start (buffer : List UInt8) : State := ⟨buffer, -1, 0⟩

-- The rest of a round, for what has been read.
def take (state : State) (c : UInt8) : Except BufferFault State :=
  if c = backspace then
    .ok { state with readed := if 0 ≤ state.readed then state.readed - 1 else state.readed, c := c }
  else
    (put state.buffer (state.readed + 1) c).map fun buffer => ⟨buffer, state.readed + 1, c⟩

def round (state : State) : Reading → Except BufferFault State
  | .byte c => state.take c
  | .nothing => .ok state
  | .failed => state.take state.c

def loop (state : State) : List Reading → Except BufferFault (State × List Reading)
  | [] => .ok (state, [])
  | reading :: rest =>
      if state.c = newline then .ok (state, reading :: rest)
      else do
        let state ← state.round reading
        state.loop rest

end State

-- The loop that looks for the end of the string, and does nothing with it.
def findEnd (buffer : List UInt8) : Except BufferFault Unit :=
  match buffer.findIdx? fun c => c = 0 with
  | some _ => .ok ()
  | none => .error .outOfBounds

-- The buffer, what is returned and the readings that are left, once the call
-- returns. The only format is "%s".
def vfscanf (format : List Char) (buffer : List UInt8) (readings : List Reading) :
    Except BufferFault (Option (List UInt8 × Int × List Reading)) :=
  if format = "%s".toList then do
    let (state, rest) ← (State.start buffer).loop readings
    if state.c = newline then
      let buffer ← put state.buffer state.readed 0
      findEnd buffer
      return some (buffer, state.readed, rest)
    else return none
  else .ok (some (buffer, -1, readings))

section Rounds

variable {size : Nat} {keys : List UInt8} {state : State}

-- The keys so far have left their line at the front of the buffer.
structure Holds (size : Nat) (keys : List UInt8) (state : State) : Prop where
  readed : state.readed = (edit backspace keys).length - 1
  length : state.buffer.length = size
  text : state.buffer.take (edit backspace keys).length = edit backspace keys

theorem holds_start (buffer : List UInt8) : Holds buffer.length [] (State.start buffer) :=
  ⟨rfl, rfl, rfl⟩

theorem take_backspace (h : Holds size keys state) :
    ∃ next, state.take backspace = .ok next ∧ Holds size (keys ++ [backspace]) next ∧
      next.c = backspace := by
  obtain ⟨hreaded, hlength, htext⟩ := h
  rw [State.take, if_pos rfl]
  refine ⟨_, rfl, ⟨?_, hlength, ?_⟩, rfl⟩
  · rw [edit_concat_erase, List.length_dropLast]
    simp only
    split
    · omega
    · omega
  · rw [edit_concat_erase, List.dropLast_eq_take, List.length_take, ← htext]
    simp only [List.take_take, List.length_take]
    congr 1
    omega

theorem take_key (h : Holds size keys state) {c : UInt8} (hc : c ≠ backspace)
    (hroom : (edit backspace keys).length < size) :
    ∃ next, state.take c = .ok next ∧ Holds size (keys ++ [c]) next ∧ next.c = c := by
  obtain ⟨hreaded, hlength, htext⟩ := h
  have hindex : state.readed + 1 = ((edit backspace keys).length : Int) := by omega
  have hput : put state.buffer (state.readed + 1) c =
      .ok (state.buffer.set (edit backspace keys).length c) := by
    rw [put, hindex, if_pos (by omega), Int.toNat_natCast]
  rw [State.take, if_neg hc, hput]
  refine ⟨_, rfl, ⟨?_, ?_, ?_⟩, rfl⟩
  · rw [edit_concat_of_ne hc, List.length_append, List.length_singleton]
    simp only
    omega
  · rw [List.length_set, hlength]
  · rw [edit_concat_of_ne hc, List.length_append, List.length_singleton]
    simp only
    rw [List.take_succ_eq_append_getElem (by rw [List.length_set]; omega),
      List.take_set_of_le (Nat.le_refl _), htext, List.getElem_set_self]

theorem take_full (h : Holds size keys state) {c : UInt8} (hc : c ≠ backspace)
    (hfull : size ≤ (edit backspace keys).length) : state.take c = .error .outOfBounds := by
  have hput : put state.buffer (state.readed + 1) c = .error .outOfBounds := by
    rw [put, h.readed, if_neg (by rw [h.length]; omega)]
  rw [State.take, if_neg hc, hput]
  rfl

end Rounds

section Loop

variable {size : Nat} {keys : List UInt8} {state : State}

theorem loop_cons (h : state.c ≠ newline) {reading : Reading} {next : State}
    (hr : state.round reading = .ok next) (rest : List Reading) :
    state.loop (reading :: rest) = next.loop rest := by
  rw [State.loop, if_neg h, hr]
  rfl

theorem loop_of_ended (h : state.c = newline) (readings : List Reading) :
    state.loop readings = .ok (state, readings) := by
  cases readings with
  | nil => rfl
  | cons reading rest => rw [State.loop, if_pos h]

-- The loop on keys that do not end it: it goes on behind them, or leaves the
-- buffer at the first one that there is no room for.
theorem loop_keys (stream : List (Option UInt8)) (h : Holds size keys state)
    (hrun : state.c ≠ newline) (hnew : newline ∉ stream.reduceOption)
    (hbelow : Below backspace (size + 1) keys) :
    (Below backspace (size + 1) (keys ++ stream.reduceOption) →
      ∃ next, Holds size (keys ++ stream.reduceOption) next ∧ next.c ≠ newline ∧
        ∀ rest, state.loop (stream.map Reading.ofByte ++ rest) = next.loop rest) ∧
      (¬Below backspace (size + 1) (keys ++ stream.reduceOption) →
        ∀ rest, state.loop (stream.map Reading.ofByte ++ rest) = .error .outOfBounds) := by
  induction stream generalizing keys state with
  | nil =>
      rw [List.reduceOption_nil, List.append_nil]
      exact ⟨fun _ => ⟨state, h, hrun, fun _ => rfl⟩, fun hnot => absurd hbelow hnot⟩
  | cons entry rest ih =>
      cases entry with
      | none =>
          rw [List.reduceOption_cons_of_none] at hnew ⊢
          have hskip : ∀ tail, state.loop ((none :: rest).map Reading.ofByte ++ tail) =
              state.loop (rest.map Reading.ofByte ++ tail) :=
            fun tail => loop_cons hrun rfl _
          simp only [hskip]
          exact ih h hrun hnew hbelow
      | some key =>
          rw [List.reduceOption_cons_of_some] at hnew
          rw [List.reduceOption_cons_of_some, ← List.singleton_append, ← List.append_assoc]
          have hkey : key ≠ newline := fun he => hnew (he ▸ List.mem_cons_self)
          have hrest : newline ∉ rest.reduceOption := fun hm => hnew (List.mem_cons_of_mem _ hm)
          have hstep : ∀ next, state.take key = .ok next → ∀ tail,
              state.loop ((some key :: rest).map Reading.ofByte ++ tail) =
                next.loop (rest.map Reading.ofByte ++ tail) :=
            fun next htake tail => @loop_cons _ hrun (.byte key) _ htake _
          by_cases hb : key = backspace
          · subst hb
            obtain ⟨next, htake, hnext, hc⟩ := take_backspace h
            have hlength := hbelow keys (List.prefix_refl _)
            have hshort : Below backspace (size + 1) (keys ++ [backspace]) := by
              apply hbelow.concat
              rw [edit_concat_erase, List.length_dropLast]
              omega
            simp only [hstep next htake]
            exact ih hnext (hc ▸ hkey) hrest hshort
          · by_cases hroom : (edit backspace keys).length < size
            · obtain ⟨next, htake, hnext, hc⟩ := take_key h hb hroom
              have hshort : Below backspace (size + 1) (keys ++ [key]) := by
                apply hbelow.concat
                rw [edit_concat_of_ne hb, List.length_append, List.length_singleton]
                omega
              simp only [hstep next htake]
              exact ih hnext (hc ▸ hkey) hrest hshort
            · have hlong : ¬Below backspace (size + 1) (keys ++ [key] ++ rest.reduceOption) := by
                intro hall
                have hlength := hall (keys ++ [key]) (List.prefix_append _ _)
                rw [edit_concat_of_ne hb, List.length_append, List.length_singleton] at hlength
                omega
              refine ⟨fun hall => absurd hall hlong, fun _ tail => ?_⟩
              have htake := take_full h hb (by omega)
              have hround : state.round (Reading.ofByte (some key)) = .error .outOfBounds := htake
              rw [List.map_cons, List.cons_append, State.loop, if_neg hrun, hround]
              rfl

end Loop

section Returns

variable {buffer : List UInt8} {front back : List (Option UInt8)}

-- There is room for every line on the way, and for the end behind the last one.
def Fits (size : Nat) (keys : List UInt8) : Prop :=
  Below backspace (size + 1) keys ∧ (edit backspace keys).length < size

instance (size : Nat) (keys : List UInt8) : Decidable (Fits size keys) :=
  inferInstanceAs (Decidable (_ ∧ _))

theorem findEnd_of_mem (h : 0 ∈ buffer) : findEnd buffer = .ok () := by
  unfold findEnd
  split
  · rfl
  · rename_i hnone
    have hnot := List.findIdx?_eq_none_iff.mp hnone 0 h
    simp at hnot

-- Up to a newline the call leaves the edited line in the buffer and returns its
-- length, exactly when there is room; it writes behind the buffer otherwise.
theorem vfscanf_newline (hnew : newline ∉ front.reduceOption) :
    (Fits buffer.length front.reduceOption →
      ∃ tail, vfscanf "%s".toList buffer ((front ++ some newline :: back).map Reading.ofByte) =
        .ok (some (edit backspace front.reduceOption ++ 0 :: tail,
          (edit backspace front.reduceOption).length, back.map Reading.ofByte))) ∧
      (¬Fits buffer.length front.reduceOption →
        vfscanf "%s".toList buffer ((front ++ some newline :: back).map Reading.ofByte) =
          .error .outOfBounds) := by
  have hne : newline ≠ backspace := by decide
  obtain ⟨hgoes, hleaves⟩ := @loop_keys _ _ _ front (holds_start buffer)
    (show (0 : UInt8) ≠ newline by decide) hnew
    (fun first hf => by
      rw [List.prefix_nil.mp hf]
      exact Nat.succ_pos _)
  rw [List.nil_append] at hgoes hleaves
  constructor
  · rintro ⟨hbelow, hroom⟩
    obtain ⟨before, hbefore, hrun, hloop⟩ := hgoes hbelow
    obtain ⟨last, htake, hlast, hc⟩ := take_key hbefore hne hroom
    have hstart : (State.start buffer).loop
        ((front ++ some newline :: back).map Reading.ofByte) = .ok (last, back.map Reading.ofByte) := by
      rw [List.map_append, hloop, List.map_cons, ← loop_of_ended hc]
      exact @loop_cons _ hrun (.byte newline) _ htake _
    have hedit : edit backspace (front.reduceOption ++ [newline]) =
        edit backspace front.reduceOption ++ [newline] := edit_concat_of_ne hne _
    have hreaded : last.readed = ((edit backspace front.reduceOption).length : Int) := by
      rw [hlast.readed, hedit, List.length_append, List.length_singleton]
      omega
    have htext : last.buffer.take (edit backspace front.reduceOption).length =
        edit backspace front.reduceOption := by
      have htake := congrArg (List.take (edit backspace front.reduceOption).length) hlast.text
      rw [hedit, List.length_append, List.length_singleton, List.take_take,
        Nat.min_eq_left (by omega), List.take_left'  rfl] at htake
      exact htake
    have hlength := hlast.length
    have hput : put last.buffer last.readed 0 = .ok (edit backspace front.reduceOption ++
        0 :: last.buffer.drop ((edit backspace front.reduceOption).length + 1)) := by
      rw [put, hreaded, if_pos (by omega), Int.toNat_natCast, List.set_eq_take_append_cons_drop,
        if_pos (by omega), htext]
    refine ⟨last.buffer.drop ((edit backspace front.reduceOption).length + 1), ?_⟩
    have hend : findEnd (edit backspace front.reduceOption ++
        0 :: last.buffer.drop ((edit backspace front.reduceOption).length + 1)) = .ok () :=
      findEnd_of_mem (by simp)
    rw [vfscanf, if_pos rfl]
    refine bind_eq_ok.mpr ⟨_, hstart, ?_⟩
    simp only [if_pos hc]
    refine bind_eq_ok.mpr ⟨_, hput, bind_eq_ok.mpr ⟨(), hend, ?_⟩⟩
    rw [hreaded]
    rfl
  · intro hnot
    rw [vfscanf, if_pos rfl]
    by_cases hbelow : Below backspace (buffer.length + 1) front.reduceOption
    · obtain ⟨before, hbefore, hrun, hloop⟩ := hgoes hbelow
      have hfull : buffer.length ≤ (edit backspace front.reduceOption).length := by
        by_contra hlt
        exact hnot ⟨hbelow, by omega⟩
      have hround : before.round (Reading.ofByte (some newline)) = .error .outOfBounds :=
        take_full hbefore hne hfull
      rw [List.map_append, hloop, List.map_cons, State.loop, if_neg hrun, hround]
      rfl
    · rw [List.map_append, hleaves hbelow]
      rfl

end Returns

end Msos.Scanf
