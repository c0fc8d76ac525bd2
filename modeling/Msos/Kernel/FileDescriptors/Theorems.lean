import Msos.Kernel.FileDescriptors

namespace Msos.Kernel

open Msos.Library

namespace Table

section Abstract

variable {File : Type*} {table : Table File}

theorem slot?_eq_some_iff {fd : Int} {i : Fin 8} : slot? fd = some i ↔ fd = i.val := by
  unfold slot?
  split
  · rename_i h
    rw [Option.some.injEq, Fin.ext_iff]
    simp only
    omega
  · rename_i h
    simp only [reduceCtorEq, false_iff]
    have := i.isLt
    omega

theorem lookup_eq {fd : Int} {i : Fin 8} (hs : slot? fd = some i) : table.lookup fd = table i := by
  rw [lookup, hs]
  rfl

theorem lookup_of_none {fd : Int} (hs : slot? fd = none) : table.lookup fd = none := by
  rw [lookup, hs]
  rfl

-- The descriptor that is handed out is free, and all below it are in use.
theorem lowestFree_eq_some {i : Fin 8} (h : table.lowestFree = some i) :
    table i = none ∧ ∀ j < i, (table j).isSome := by
  obtain ⟨hi, j, hj, he, hbefore⟩ := List.find?_eq_some_iff_getElem.mp h
  refine ⟨by simpa using hi, fun k hk => ?_⟩
  have hji : j = i.val := by rw [← he]; simp
  have hkj : k.val < j := by omega
  have hk := hbefore k.val hkj
  simpa [Option.isSome_iff_ne_none] using hk

theorem lowestFree_eq_none_iff : table.lowestFree = none ↔ ∀ i, (table i).isSome := by
  rw [lowestFree, List.find?_eq_none]
  simp [Option.isSome_iff_ne_none]

end Abstract

end Table

namespace Process

section Refinement

variable {File : Type*} {shifter : Shifter} {table : Table File} {process : Process File}

-- The bits of the map are the descriptors in use, and their files are stored
-- at them.
structure Represents (table : Table File) (process : Process File) : Prop where
  mapped : ∀ i : Fin 8, process.fdMap.getLsbD i.val = (table i).isSome
  unmapped : ∀ j, 8 ≤ j → process.fdMap.getLsbD j = false
  stored : ∀ i file, table i = some file → process.fd i = file

theorem getLsbD_seven (j : Nat) : (0x7 : BitVec 32).getLsbD j = decide (j < 3) := by
  rw [show (0x7 : BitVec 32) = BitVec.ofNat 32 (2 ^ 3 - 1) from rfl, BitVec.getLsbD_ofNat,
    Nat.testBit_two_pow_sub_one]
  by_cases hj : j < 3
  · simp [hj]
    omega
  · simp [hj]

theorem represents_new (tty : Fin 3 → Option File) :
    Represents (Table.new tty) (new (some tty)) where
  mapped := fun i => by
    rw [new, getLsbD_seven, Table.new]
    by_cases hi : i.val < 3 <;> simp [hi]
  unmapped := fun j hj => by
    rw [new, getLsbD_seven, decide_eq_false_iff_not]
    omega
  stored := fun i file h => by
    unfold Table.new at h
    unfold new
    split at h
    · rename_i hi
      obtain rfl := Option.some.inj h
      simp [hi]
    · simp at h

theorem and_one_eq_zero_iff (fd : Int) :
    process.fdMap &&& shifter.one fd = 0 ↔ process.fdMap.getLsbD (shifter.count fd) = false :=
  BitMap.and_bit_eq_zero_iff ..

theorem count_of_slot {fd : Int} {i : Fin 8} (h : slot? fd = some i) :
    shifter.count fd = i.val := by
  have he := Table.slot?_eq_some_iff.mp h
  have := i.isLt
  cases shifter <;> simp only [Shifter.count] <;> omega

theorem find?_free (h : Represents table process) :
    ((List.finRange 8).find? fun i => process.fdMap &&& BitMap.bit 32 i.val = 0) =
      table.lowestFree := by
  unfold Table.lowestFree
  congr 1
  funext i
  rw [Bool.eq_iff_iff, decide_eq_true_iff, BitMap.and_bit_eq_zero_iff, h.mapped i]
  cases table i <;> simp

theorem call_addFile (h : Represents table process) (file : Option File) :
    ∃ next, process.call shifter (.addFile file) = .ok (next, (table.call (.addFile file)).2) ∧
      Represents (table.call (.addFile file)).1 next := by
  simp only [call, addFile, find?_free h, Table.call]
  cases hf : table.lowestFree with
  | none => exact ⟨process, rfl, h⟩
  | some i =>
      refine ⟨_, rfl, ⟨fun j => ?_, fun j hj => ?_, fun j stored hs => ?_⟩⟩
      · rw [BitMap.getLsbD_or_bit _ (by omega), h.mapped j]
        simp only [Table.store]
        by_cases hji : j = i
        · simp [hji]
        · have hval : j.val ≠ i.val := fun he => hji (Fin.ext he)
          simp [hji, hval]
      · rw [BitMap.getLsbD_or_bit _ (by omega), h.unmapped j hj]
        simp
        omega
      · simp only [Table.store] at hs
        by_cases hji : j = i
        · simp only [hji, ite_true, Option.some.injEq] at hs ⊢
          exact hs
        · simp only [hji, ite_false] at hs ⊢
          exact h.stored j stored hs

-- A descriptor of the array: the bit of the map says whether it is in use.
theorem in_use_iff (h : Represents table process) {fd : Int} {i : Fin 8} (hs : slot? fd = some i) :
    process.fdMap &&& shifter.one fd ≠ 0 ↔ (table i).isSome := by
  rw [Ne, and_one_eq_zero_iff, count_of_slot hs, h.mapped i, Bool.not_eq_false]

-- Any other integer: the bit is clear exactly when no descriptor is hit.
theorem in_use_iff_of_none (h : Represents table process) {fd : Int} (hs : slot? fd = none) :
    process.fdMap &&& shifter.one fd ≠ 0 ↔ ¬table.Distinguishes shifter fd := by
  rw [Ne, and_one_eq_zero_iff, Bool.not_eq_false]
  simp only [Table.Distinguishes, hs, forall_const, not_forall, not_not]
  constructor
  · intro hbit
    by_cases hlt : shifter.count fd < 8
    · exact ⟨⟨shifter.count fd, hlt⟩, by rw [← h.mapped]; exact hbit, rfl⟩
    · rw [h.unmapped _ (by omega)] at hbit
      exact absurd hbit Bool.false_ne_true
  · rintro ⟨i, hi, he⟩
    rw [he, h.mapped i]
    exact hi

theorem call_removeFile (h : Represents table process) {fd : Int}
    (hd : table.Distinguishes shifter fd) :
    ∃ next, process.call shifter (.removeFile fd) = .ok (next, (table.call (.removeFile fd)).2) ∧
      Represents (table.call (.removeFile fd)).1 next := by
  simp only [call, removeFile, Table.call]
  cases hs : slot? fd with
  | none =>
      have hfree : ¬process.fdMap &&& shifter.one fd ≠ 0 := by
        rw [in_use_iff_of_none h hs]
        exact not_not.mpr hd
      rw [ite_cond_eq_false _ _ (eq_false hfree)]
      exact ⟨process, rfl, h⟩
  | some i =>
      by_cases hi : (table i).isSome
      · rw [ite_cond_eq_true _ _ (eq_true ((in_use_iff h hs).mpr hi))]
        simp only [hi, ite_true]
        have hone : shifter.one fd = BitMap.bit 32 i.val := by rw [Shifter.one, count_of_slot hs]
        refine ⟨_, rfl, ⟨fun j => ?_, fun j hj => ?_, fun j stored hst => ?_⟩⟩
        · rw [hone, BitMap.getLsbD_and_not_bit, h.mapped j]
          simp only [Table.store]
          by_cases hji : j = i
          · simp [hji]
          · have hval : j.val ≠ i.val := fun he => hji (Fin.ext he)
            simp [hji, hval]
        · rw [hone, BitMap.getLsbD_and_not_bit, h.unmapped j hj]
          rfl
        · simp only [Table.store] at hst
          by_cases hji : j = i
          · simp [hji] at hst
          · simp only [hji, ite_false] at hst ⊢
            exact h.stored j stored hst
      · rw [ite_cond_eq_false _ _ (eq_false ((in_use_iff h hs).not.mpr hi))]
        simp only [hi]
        exact ⟨process, rfl, h⟩

theorem call_getFile (h : Represents table process) {fd : Int}
    (hd : table.Distinguishes shifter fd) :
    process.call shifter (.getFile fd) = .ok (process, (table.call (.getFile fd)).2) := by
  simp only [call, getFile, Table.call]
  cases hs : slot? fd with
  | none =>
      have hfree : ¬process.fdMap &&& shifter.one fd ≠ 0 := by
        rw [in_use_iff_of_none h hs]
        exact not_not.mpr hd
      rw [ite_cond_eq_false _ _ (eq_false hfree), Table.lookup_of_none hs]
      rfl
  | some i =>
      rw [Table.lookup_eq hs]
      cases hi : table i with
      | none =>
          have hfree : ¬process.fdMap &&& shifter.one fd ≠ 0 := by
            rw [in_use_iff h hs]
            simp [hi]
          rw [ite_cond_eq_false _ _ (eq_false hfree)]
          rfl
      | some file =>
          have huse : process.fdMap &&& shifter.one fd ≠ 0 := by
            rw [in_use_iff h hs]
            simp [hi]
          rw [ite_cond_eq_true _ _ (eq_true huse)]
          simp [Except.map, h.stored i file hi]

-- A hit descriptor takes the access behind the ends of the array.
theorem call_outOfBounds (h : Represents table process) {fd : Int}
    (hd : ¬table.Distinguishes shifter fd) :
    process.call shifter (.removeFile fd) = .error .outOfBounds ∧
      process.call shifter (.getFile fd) = .error .outOfBounds := by
  have hs : slot? fd = none := by
    by_contra hne
    exact hd fun hnone => absurd hnone hne
  have huse := (in_use_iff_of_none h hs).mpr hd
  simp only [call, removeFile, getFile, hs, Except.map]
  rw [ite_cond_eq_true _ _ (eq_true huse), ite_cond_eq_true _ _ (eq_true huse)]
  exact ⟨rfl, rfl⟩

theorem replies_cons_of_ok {call : FileCall File} {rest : List (FileCall File)}
    {next : Process File} {reply : FileReply File}
    (hc : process.call shifter call = .ok (next, reply)) (replies : List (FileReply File)) :
    process.replies shifter (call :: rest) = .ok (reply :: replies) ↔
      next.replies shifter rest = .ok replies := by
  simp only [Process.replies, hc, bind, Except.bind, pure, Except.pure]
  cases next.replies shifter rest <;> simp

theorem replies_cons_of_error {call : FileCall File} {rest : List (FileCall File)}
    {fault : AccessFault} (hc : process.call shifter call = .error fault) :
    process.replies shifter (call :: rest) = .error fault := by
  simp only [Process.replies, hc, bind, Except.bind]

theorem replies_iff (h : Represents table process) (calls : List (FileCall File)) :
    process.replies shifter calls = .ok (table.replies calls) ↔ table.Guarded shifter calls := by
  induction calls generalizing table process with
  | nil => simp [Process.replies, Table.replies, Table.Guarded]
  | cons call rest ih =>
      cases call with
      | addFile file =>
          obtain ⟨next, hc, hn⟩ := @call_addFile _ shifter _ _ h file
          rw [Table.replies, replies_cons_of_ok hc, ih hn]
          simp [Table.Guarded]
      | removeFile fd =>
          by_cases hd : table.Distinguishes shifter fd
          · obtain ⟨next, hc, hn⟩ := call_removeFile h hd
            rw [Table.replies, replies_cons_of_ok hc, ih hn]
            simp [Table.Guarded, hd]
          · rw [replies_cons_of_error (call_outOfBounds h hd).1]
            simp [Table.Guarded, hd]
      | getFile fd =>
          by_cases hd : table.Distinguishes shifter fd
          · have hsame : Represents (table.call (.getFile fd)).1 process := h
            rw [Table.replies, replies_cons_of_ok (call_getFile h hd), ih hsame]
            simp [Table.Guarded, hd]
          · rw [replies_cons_of_error (call_outOfBounds h hd).2]
            simp [Table.Guarded, hd]

-- From the creation of a process on, the calls answer as the partial map does
-- exactly when each descriptor outside 0 to 7 misses the ones in use.
theorem replies_new_iff (shifter : Shifter) (tty : Fin 3 → Option File)
    (calls : List (FileCall File)) :
    (new (some tty)).replies shifter calls = .ok ((Table.new tty).replies calls) ↔
      (Table.new tty).Guarded shifter calls :=
  replies_iff (represents_new tty) calls

-- 256 on the one target and 32 on the other are shifted as 0, which is in use.
theorem getFile_beyond :
    (new (some fun _ => some ())).replies .arm [.getFile 256] ≠
        .ok ((Table.new fun _ => some ()).replies [.getFile 256]) ∧
      (new (some fun _ => some ())).replies .x86 [.removeFile 32] ≠
        .ok ((Table.new fun _ => some ()).replies [.removeFile 32]) := by
  constructor <;> exact nofun

end Refinement

end Process

end Msos.Kernel
