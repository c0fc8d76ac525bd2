import Msos.Kernel.Malloc
import Mathlib.Data.List.Nodup

namespace Msos.Kernel.Heap.Session

open Msos.Library.Machine

section Invariant

variable {session : Session} {next : Except HeapFault Session} {placement : Placement}

-- The blocks of the C library are those of the users, each with its header in
-- front and aligned there.
structure Invariant (session : Session) : Prop where
  real_eq : session.heap.real =
    session.blocks.map fun block => ⟨block.address - sizeofSize, block.size + sizeofSize⟩
  aligned : ∀ block ∈ session.blocks, block.address % 8 = 4
  nodup : session.pointers.Nodup
  header_eq : ∀ block ∈ session.blocks,
    (session.heap.word (block.address - sizeofSize)).toNat = block.size + sizeofSize
  usage_eq : session.heap.currentUsage.toNat = session.usage
  usage_lt : session.usage < 2 ^ 31

theorem invariant_new (word : Nat → BitVec 32) : (new word).Invariant where
  real_eq := rfl
  aligned := by simp [new]
  nodup := List.nodup_nil
  header_eq := by simp [new]
  usage_eq := rfl
  usage_lt := by simp [new, usage]

theorem Invariant.exact (hi : session.Invariant) : session.Exact where
  usage_eq := by
    have hlt := hi.usage_lt
    rw [BitVec.toInt_eq_toNat_of_lt (by rw [hi.usage_eq]; omega), hi.usage_eq]
  header_eq := hi.header_eq
  freed := fun hnil => by
    apply BitVec.eq_of_toNat_eq
    rw [hi.usage_eq, usage, hnil]
    rfl

-- A header lies in its own block, where the C library does not write.
theorem covered_header {real : List HeapBlock} {address size : Nat}
    (hm : ⟨address, size + sizeofSize⟩ ∈ real) : Covered real address :=
  ⟨_, hm, Nat.le_refl _, by simp [sizeofSize]⟩

theorem mem_real (hi : session.Invariant) {block : HeapBlock} (hm : block ∈ session.blocks) :
    ⟨block.address - sizeofSize, block.size + sizeofSize⟩ ∈ session.heap.real := by
  rw [hi.real_eq]
  exact List.mem_map_of_mem hm

theorem usage_cons (heap : Heap) (block : HeapBlock) (blocks : List HeapBlock) :
    usage ⟨heap, block :: blocks⟩ = block.size + sizeofSize + usage ⟨heap, blocks⟩ := rfl

theorem pointers_cons (heap : Heap) (block : HeapBlock) (blocks : List HeapBlock) :
    pointers ⟨heap, block :: blocks⟩ = block.address :: pointers ⟨heap, blocks⟩ := rfl

theorem step_malloc {sz : BitVec 32} (hs : step (.ok session) (.malloc sz, placement) = some next) :
    Fits session.heap.real placement.address (sz + BitVec.ofNat 32 sizeofSize).toNat ∧
      next = .ok ⟨{
        currentUsage := session.heap.currentUsage + (sz + BitVec.ofNat 32 sizeofSize)
        word := fun target =>
          if target = placement.address then sz + BitVec.ofNat 32 sizeofSize
          else session.heap.scribble session.heap.real placement.scratch target
        real := ⟨placement.address, (sz + BitVec.ofNat 32 sizeofSize).toNat⟩ :: session.heap.real },
        ⟨placement.address + sizeofSize, sz.toNat⟩ :: session.blocks⟩ := by
  by_cases hf : Fits session.heap.real placement.address (sz + BitVec.ofNat 32 sizeofSize).toNat
  · simp only [step, Heap.malloc, realMalloc, hf, ite_true, bind, Option.bind_some, pure,
      Option.map_some, Option.some.injEq] at hs
    exact ⟨hf, hs.symm⟩
  · simp only [step, Heap.malloc, realMalloc, hf, ite_false, bind, Option.bind_none,
      Option.map_none, reduceCtorEq] at hs

theorem invariant_malloc (hi : session.Invariant) {sz : BitVec 32}
    (hg : Guarded (.ok session) (.malloc sz, placement))
    (hs : step (.ok session) (.malloc sz, placement) = some next) :
    ∃ after, next = .ok after ∧ after.Invariant := by
  obtain ⟨⟨haligned, hpos, hspace, hapart⟩, rfl⟩ := step_malloc hs
  have hbound : session.usage + sz.toNat + sizeofSize < 2 ^ 31 := hg
  have htotal : (sz + BitVec.ofNat 32 sizeofSize).toNat = sz.toNat + sizeofSize := by
    rw [BitVec.toNat_add, BitVec.toNat_ofNat]
    simp only [sizeofSize] at hbound ⊢
    omega
  have hapart' : ∀ block ∈ session.blocks, block.address - sizeofSize ≠ placement.address :=
    fun block hm he => (hapart _ (mem_real hi hm)).1 he.symm
  refine ⟨_, rfl, ?_, ?_, ?_, ?_, ?_, ?_⟩
  · simp only [List.map_cons, htotal, hi.real_eq, Nat.add_sub_cancel]
  · rintro block (_ | ⟨_, hm⟩)
    · simp only [sizeofSize]
      omega
    · exact hi.aligned block hm
  · rw [pointers_cons, List.nodup_cons]
    refine ⟨fun hm => ?_, hi.nodup⟩
    obtain ⟨block, hm, he⟩ := List.mem_map.mp hm
    exact hapart' block hm (by rw [he, Nat.add_sub_cancel])
  · rintro block (_ | ⟨_, hm⟩)
    · simp only [Nat.add_sub_cancel, ite_true, htotal]
    · have hne := hapart' block hm
      have hcovered := covered_header (mem_real hi hm)
      simp only [hne, ite_false, scribble, hcovered, ite_true]
      exact hi.header_eq block hm
  · rw [usage_cons]
    simp only [BitVec.toNat_add, htotal, hi.usage_eq]
    have hsame : usage ⟨session.heap, session.blocks⟩ = session.usage := rfl
    simp only [usage] at hbound ⊢
    omega
  · rw [usage_cons]
    simp only [usage] at hbound ⊢
    omega

-- Past the largest int the counter cannot hold the sum.
theorem not_exact_malloc {sz : BitVec 32}
    (hg : ¬Guarded (.ok session) (.malloc sz, placement))
    (hs : step (.ok session) (.malloc sz, placement) = some next) : ¬Good next := by
  obtain ⟨_, rfl⟩ := step_malloc hs
  intro hgood
  have hbound : ¬session.usage + sz.toNat + sizeofSize < 2 ^ 31 := hg
  have husage := hgood.usage_eq
  rw [usage_cons] at husage
  have hlt := @BitVec.toInt_lt 32 (session.heap.currentUsage + (sz + BitVec.ofNat 32 sizeofSize))
  simp only [usage] at hbound husage
  omega

theorem four_le_address (hi : session.Invariant) {block : HeapBlock} (hm : block ∈ session.blocks) :
    sizeofSize ≤ block.address := by
  have := hi.aligned block hm
  simp only [sizeofSize]
  omega

theorem filter_real (hi : session.Invariant) {data : Nat} (hd : sizeofSize ≤ data) :
    (session.heap.real.filter fun block => block.address ≠ data - sizeofSize) =
      (session.without data).map fun block =>
        ⟨block.address - sizeofSize, block.size + sizeofSize⟩ := by
  rw [hi.real_eq, without, List.filter_map]
  congr 1
  apply List.filter_congr
  intro block hm
  have := four_le_address hi hm
  simp only [Function.comp_apply, ne_eq, decide_not, Bool.not_eq_eq_eq_not, decide_eq_decide,
    Bool.not_not]
  omega

-- Taking out the only block with a pointer takes its size and header off.
theorem usage_without (hi : session.Invariant) {block : HeapBlock} (hm : block ∈ session.blocks) :
    session.usage = block.size + sizeofSize + usage ⟨session.heap, session.without block.address⟩ := by
  obtain ⟨before, rest, he⟩ := List.append_of_mem hm
  have hnodup := hi.nodup
  simp only [pointers, he, List.map_append, List.map_cons] at hnodup
  obtain ⟨hbefore, hrest, hapart⟩ := List.nodup_append.mp hnodup
  have hleft : ∀ other ∈ before, other.address ≠ block.address := fun other ho =>
    hapart _ (List.mem_map_of_mem ho) _ List.mem_cons_self
  have hright : ∀ other ∈ rest, other.address ≠ block.address := fun other ho hsame =>
    (List.nodup_cons.mp hrest).1 (hsame ▸ List.mem_map_of_mem ho)
  have hwithout : session.without block.address = before ++ rest := by
    rw [without, he, List.filter_append, List.filter_cons_of_neg (by simp),
      List.filter_eq_self.mpr fun other ho => by simpa using hleft other ho,
      List.filter_eq_self.mpr fun other ho => by simpa using hright other ho]
  simp only [usage, hwithout, he, List.map_append, List.map_cons, List.sum_append, List.sum_cons]
  omega

theorem step_free (hi : session.Invariant) {data : Nat}
    (hs : step (.ok session) (.free data, placement) = some next) :
    ∃ block ∈ session.blocks, block.address = data ∧
      next = .ok ⟨{
        currentUsage := session.heap.currentUsage - session.heap.word (data - sizeofSize)
        word := session.heap.scribble
          ((session.without data).map fun block =>
            ⟨block.address - sizeofSize, block.size + sizeofSize⟩) placement.scratch
        real := (session.without data).map fun block =>
          ⟨block.address - sizeofSize, block.size + sizeofSize⟩ }, session.without data⟩ := by
  by_cases hm : data ∈ session.pointers
  · obtain ⟨block, hb, rfl⟩ := List.mem_map.mp hm
    have hreal : block.address - sizeofSize ∈ session.heap.real.map HeapBlock.address :=
      List.mem_map_of_mem (mem_real hi hb)
    simp only [step, hm, ite_true, Heap.free, realFree, hreal, Except.map,
      filter_real hi (four_le_address hi hb), Option.some.injEq] at hs
    exact ⟨block, hb, rfl, hs.symm⟩
  · simp [step, hm] at hs

theorem invariant_free (hi : session.Invariant) {data : Nat}
    (hs : step (.ok session) (.free data, placement) = some next) :
    ∃ after, next = .ok after ∧ after.Invariant := by
  obtain ⟨block, hb, rfl, rfl⟩ := step_free hi hs
  have hsub : ∀ other ∈ session.without block.address, other ∈ session.blocks :=
    fun other ho => (List.mem_filter.mp ho).1
  have husage := usage_without hi hb
  have hlt := hi.usage_lt
  have hheader := hi.header_eq block hb
  refine ⟨_, rfl, rfl, fun other ho => hi.aligned other (hsub other ho), ?_, ?_, ?_, ?_⟩
  · exact hi.nodup.sublist (List.filter_sublist.map _)
  · intro other ho
    have hcovered := covered_header (List.mem_map_of_mem
      (f := fun block => HeapBlock.mk (block.address - sizeofSize) (block.size + sizeofSize)) ho)
    simp only [scribble, hcovered, ite_true]
    exact hi.header_eq other (hsub other ho)
  · rw [BitVec.toNat_sub, hi.usage_eq, hheader]
    simp only [usage] at husage hlt ⊢
    omega
  · simp only [usage] at husage hlt ⊢
    omega

-- The pointer that the user holds is not one of the C library.
theorem step_realloc (hi : session.Invariant) {addr : Nat} {sz : BitVec 32}
    (hs : step (.ok session) (.realloc addr sz, placement) = some next) :
    next = .error .invalidPointer := by
  by_cases hm : addr ∈ session.pointers
  · obtain ⟨block, hb, rfl⟩ := List.mem_map.mp hm
    have hforeign : session.heap.real.find? (fun real => real.address = block.address) = none := by
      rw [List.find?_eq_none, hi.real_eq]
      rintro real hr he
      obtain ⟨other, ho, rfl⟩ := List.mem_map.mp hr
      have hother := hi.aligned other ho
      have hblock := hi.aligned block hb
      have he := of_decide_eq_true he
      simp only [sizeofSize] at he
      omega
    simp only [step, hm, ite_true, Heap.realloc, realRealloc, hforeign, bind, Except.bind,
      Option.some.injEq] at hs
    exact hs.symm
  · simp [step, hm] at hs

theorem step_good_iff (hi : session.Invariant) {input : Call × Placement}
    (hs : step (.ok session) input = some next) :
    (Good next ↔ Guarded (.ok session) input) ∧
      (Guarded (.ok session) input → ∃ after, next = .ok after ∧ after.Invariant) := by
  obtain ⟨call, placement⟩ := input
  cases call with
  | malloc sz =>
      refine ⟨⟨fun hgood => ?_, fun hg => ?_⟩, fun hg => invariant_malloc hi hg hs⟩
      · by_contra hg
        exact not_exact_malloc hg hs hgood
      · obtain ⟨after, rfl, hafter⟩ := invariant_malloc hi hg hs
        exact hafter.exact
  | free data =>
      obtain ⟨after, rfl, hafter⟩ := invariant_free hi hs
      exact ⟨iff_of_true hafter.exact trivial, fun _ => ⟨after, rfl, hafter⟩⟩
  | realloc addr sz =>
      obtain rfl := step_realloc hi hs
      exact ⟨iff_of_false id id, False.elim⟩

end Invariant

section Runs

-- The accounting is exact along a run exactly when it has no realloc and stays
-- below the largest int.
theorem exact_iff (word : Nat → BitVec 32) (inputs : List (Call × Placement)) :
    Throughout step Good (.ok (new word)) inputs ↔
      Respects step Guarded (.ok (new word)) inputs := by
  refine throughout_ok_iff_respects Invariant (fun _ h => h.exact) ?_ (invariant_new word) inputs
  intro session input next hi hs
  obtain ⟨hiff, hkeep⟩ := step_good_iff hi hs
  exact ⟨hiff, fun hgood => hkeep (hiff.mp hgood)⟩

-- realloc hands the pointer behind the header to the C library.
theorem realloc_passes_foreign_pointer :
    ¬Throughout step Good (.ok (new fun _ => 0))
      [(.malloc 8, ⟨0x20001000, fun _ => 0⟩), (.realloc 0x20001004 16, ⟨0x20002000, fun _ => 0⟩)] := by
  intro h
  exact (h.2 _ rfl).2 _ rfl

end Runs

end Msos.Kernel.Heap.Session
