import Msos.Kernel.Semaphore
import Msos.Kernel.Scheduler.Theorems
import Mathlib.Data.List.Perm.Subperm

namespace Msos.Kernel.MutexSystem

open Msos.Library Msos.Library.Machine

section Invariant

variable {address : BitVec 32} {system : MutexSystem} {contenders : List Nat}

def Blocked (system : MutexSystem) (id : Nat) : Prop :=
  ∃ process, system.scheduler.processes.get? id = some process ∧ process.state = .blocked

-- The processes that called lock and have not called unlock: each has taken
-- one from the value, and of two one is blocked.
structure Contended (system : MutexSystem) (contenders : List Nat) : Prop where
  nodup : contenders.Nodup
  mem_iff : ∀ id, id ∈ contenders ↔ system.phase id ≠ .outside
  value_eq : system.value = 1 - BitVec.ofNat 32 contenders.length
  length_le : contenders.length ≤ 2
  blocked : contenders.length = 2 → ∃ id ∈ contenders, system.Blocked id

-- A process is blocked only in lock, and by nothing but the mutex.
def Settled (address : BitVec 32) (phase : Phase) (process : ArmProcess) : Prop :=
  (process.state = .ready ∧ process.locks = []) ∨
    (process.state = .blocked ∧ process.locks = [address.toNat] ∧ phase = .locking)

structure Invariant (address : BitVec 32) (system : MutexSystem) : Prop where
  currentValid : system.scheduler.CurrentValid
  known : ∀ id, system.phase id ≠ .outside → id ∈ system.scheduler.processes.ids
  settled : ∀ id process, system.scheduler.processes.get? id = some process →
    Settled address (system.phase id) process
  contended : ∃ contenders, system.Contended contenders

theorem invariant_initial : initial.Invariant address where
  currentValid := Scheduler.consistent_initial.currentValid
  known := fun id h => absurd rfl h
  settled := fun id process h => by
    simp [initial, Scheduler.initial, LinkedList.empty, LinkedList.get?] at h
  contended := ⟨[], List.nodup_nil, by simp [initial], rfl, by simp, by simp⟩

theorem running_eq_some {id : Nat} (h : system.running = some id) :
    ∃ process, system.scheduler.current = some id ∧
      system.scheduler.processes.get? id = some process ∧ process.state = .ready := by
  unfold running at h
  cases hc : system.scheduler.current with
  | none => simp [hc] at h
  | some current =>
      cases hg : system.scheduler.processes.get? current with
      | none => simp [hc, hg] at h
      | some process =>
          simp only [hc, hg, bind, Option.bind_some] at h
          by_cases hs : process.state = .ready
          · rw [ite_cond_eq_true _ _ (eq_true hs)] at h
            obtain rfl := Option.some.inj h
            exact ⟨process, rfl, hg, hs⟩
          · rw [ite_cond_eq_false _ _ (eq_false hs)] at h
            cases h

theorem Invariant.not_blocked_of_inside (hi : system.Invariant address) {id : Nat}
    (hp : system.phase id = .inside) : ¬system.Blocked id := by
  intro ⟨process, hg, hb⟩
  rcases hi.settled id process hg with ⟨hs, _⟩ | ⟨_, _, hl⟩
  · rw [hs] at hb
    cases hb
  · rw [hp] at hl
    cases hl

theorem Invariant.mutualExclusion (hi : system.Invariant address) : system.MutualExclusion := by
  intro id other hid hother
  by_contra hne
  obtain ⟨contenders, hc⟩ := hi.contended
  have hidm : id ∈ contenders := (hc.mem_iff id).mpr (by simp [hid])
  have hotherm : other ∈ contenders := (hc.mem_iff other).mpr (by simp [hother])
  have hsub : [id, other].Subperm contenders := by
    apply List.subperm_of_subset (by simpa using hne)
    intro element he
    rcases List.mem_pair.mp he with rfl | rfl
    · exact hidm
    · exact hotherm
  have hlen := hsub.length_le
  have htwo : contenders.length = 2 := by
    have := hc.length_le
    simp only [List.length_cons, List.length_nil] at hlen
    omega
  obtain ⟨waiting, hw, hb⟩ := hc.blocked htwo
  have hperm := hsub.perm_of_length_le (by simp [htwo])
  rcases List.mem_pair.mp (hperm.mem_iff.mpr hw) with rfl | rfl
  · exact hi.not_blocked_of_inside hid hb
  · exact hi.not_blocked_of_inside hother hb

theorem Contended.value_nonneg_iff (hc : system.Contended contenders) :
    0 ≤ system.value.toInt ↔ contenders.length < 2 := by
  have hl := hc.length_le
  have hv := hc.value_eq
  rcases Nat.lt_or_eq_of_le hl with hlt | htwo
  · rcases Nat.lt_or_eq_of_le (Nat.le_of_lt_succ hlt) with hz | hone
    · rw [Nat.lt_one_iff.mp hz] at hv ⊢
      simp [hv]
    · rw [hone] at hv ⊢
      simp [hv]
  · rw [htwo] at hv ⊢
    rw [hv]
    decide

theorem Contended.value_eq_zero_iff (hc : system.Contended contenders)
    (hl : contenders.length < 2) : system.value = 0 ↔ contenders.length = 1 := by
  have hv := hc.value_eq
  rcases Nat.lt_or_eq_of_le (Nat.le_of_lt_succ hl) with hz | hone
  · rw [Nat.lt_one_iff.mp hz] at hv ⊢
    simp [hv]
  · rw [hone] at hv ⊢
    simp [hv]

end Invariant

section Steps

variable {address : BitVec 32} {system next : MutexSystem}

-- What an event can do, and when it can happen.
inductive Stepped (address : BitVec 32) (system : MutexSystem) : Event → MutexSystem → Prop
  | createProcess (stackSize stack : Nat) :
      Stepped address system (.createProcess stackSize stack)
        { system with scheduler := system.scheduler.createProcess stackSize stack }
  | switch {scheduler : Scheduler} (hs : system.scheduler.scheduleNext = .ok (some scheduler)) :
      Stepped address system .switch { system with scheduler := scheduler }
  | lock {id : Nat} {scheduler : Scheduler} {value : BitVec 32} (hr : system.running = some id)
      (hp : system.phase id = .outside)
      (hw : Semaphore.wait address system.scheduler system.value = .ok (scheduler, value)) :
      Stepped address system .lock ⟨scheduler, value, Function.update system.phase id .locking⟩
  | lockReturns {id : Nat} (hr : system.running = some id) (hp : system.phase id = .locking) :
      Stepped address system .lockReturns
        { system with phase := Function.update system.phase id .inside }
  | unlock {id : Nat} (hr : system.running = some id) (hp : system.phase id = .inside) :
      Stepped address system .unlock
        ⟨(Semaphore.post address system.scheduler system.value).1,
          (Semaphore.post address system.scheduler system.value).2,
          Function.update system.phase id .outside⟩

theorem stepped_of_step {event : Event} (hs : step address system event = some next) :
    Stepped address system event next := by
  cases event with
  | createProcess stackSize stack =>
      obtain rfl := Option.some.inj hs
      exact .createProcess stackSize stack
  | switch =>
      simp only [step] at hs
      split at hs
      · rename_i scheduler hr
        obtain rfl := Option.some.inj hs
        exact .switch hr
      · cases hs
  | lock =>
      simp only [step] at hs
      split at hs
      · cases hs
      · rename_i id hr
        split at hs
        · rename_i hp
          split at hs
          · rename_i scheduler value hw
            obtain rfl := Option.some.inj hs
            exact .lock hr hp hw
          · cases hs
        · cases hs
  | lockReturns =>
      simp only [step] at hs
      split at hs
      · cases hs
      · rename_i id hr
        split at hs
        · rename_i hp
          obtain rfl := Option.some.inj hs
          exact .lockReturns hr hp
        · cases hs
  | unlock =>
      simp only [step] at hs
      split at hs
      · cases hs
      · rename_i id hr
        split at hs
        · rename_i hp
          obtain rfl := Option.some.inj hs
          exact .unlock hr hp
        · cases hs

theorem invariant_createProcess (hi : system.Invariant address) (stackSize stack : Nat) :
    Invariant address
      { system with scheduler := system.scheduler.createProcess stackSize stack } := by
  have hkeep : ∀ id, system.Blocked id → Blocked
      { system with scheduler := system.scheduler.createProcess stackSize stack } id := by
    intro id ⟨process, hg, hb⟩
    have hm := system.scheduler.processes.mem_ids_of_get? hg
    exact ⟨process, (LinkedList.get?_pushBack_of_mem _ hm _).trans hg, hb⟩
  refine ⟨fun id hc => ?_, fun id hp => ?_, fun id process hg => ?_, ?_⟩
  · simp only [Scheduler.createProcess, LinkedList.ids_pushBack, List.mem_append]
    exact Or.inl (hi.currentValid id hc)
  · simp only [Scheduler.createProcess, LinkedList.ids_pushBack, List.mem_append]
    exact Or.inl (hi.known id hp)
  · have hm := LinkedList.mem_ids_of_get? _ hg
    simp only [Scheduler.createProcess, LinkedList.ids_pushBack, List.mem_append,
      List.mem_singleton] at hm hg
    rcases hm with hm | rfl
    · rw [LinkedList.get?_pushBack_of_mem _ hm] at hg
      exact hi.settled id process hg
    · rw [LinkedList.get?_pushBack_allocated] at hg
      obtain rfl := Option.some.inj hg
      exact Or.inl ⟨rfl, rfl⟩
  · obtain ⟨contenders, hc⟩ := hi.contended
    refine ⟨contenders, hc.nodup, hc.mem_iff, hc.value_eq, hc.length_le, fun hl => ?_⟩
    obtain ⟨id, hm, hb⟩ := hc.blocked hl
    exact ⟨id, hm, hkeep id hb⟩

theorem invariant_switch (hi : system.Invariant address) {scheduler : Scheduler}
    (hs : system.scheduler.scheduleNext = .ok (some scheduler)) :
    Invariant address { system with scheduler := scheduler } ∧
      scheduler.processes = system.scheduler.processes := by
  obtain ⟨current, rfl, hv⟩ : ∃ current, scheduler = { system.scheduler with current := current } ∧
      scheduler.CurrentValid := by
    by_cases hne : system.scheduler.processes.ids = []
    · rw [Scheduler.scheduleNext_of_nil hne] at hs
      obtain rfl := Option.some.inj (Except.ok.inj hs)
      exact ⟨_, rfl, hi.currentValid⟩
    · obtain ⟨result, hr, hspec⟩ := Scheduler.scheduleNext_of_ne_nil hi.currentValid hne
      have hre := hspec scheduler (Except.ok.inj (hr.symm.trans hs))
      obtain ⟨current, he, _⟩ := id hre
      exact ⟨current, he, hre.currentValid hi.currentValid⟩
  refine ⟨⟨hv, hi.known, hi.settled, ?_⟩, rfl⟩
  obtain ⟨contenders, hc⟩ := hi.contended
  exact ⟨contenders, hc.nodup, hc.mem_iff, hc.value_eq, hc.length_le, hc.blocked⟩

-- With no more than one contender, wait blocks exactly when there is one.
theorem invariant_lock (hi : system.Invariant address) (hn : 0 ≤ system.value.toInt) {id : Nat}
    (hr : system.running = some id) (hp : system.phase id = .outside) {scheduler : Scheduler}
    {value : BitVec 32}
    (hw : Semaphore.wait address system.scheduler system.value = .ok (scheduler, value)) :
    Invariant address ⟨scheduler, value, Function.update system.phase id .locking⟩ := by
  obtain ⟨process, hcur, hg, hready⟩ := running_eq_some hr
  obtain ⟨contenders, hc⟩ := hi.contended
  have hlt := hc.value_nonneg_iff.mp hn
  have hfresh : id ∉ contenders := fun hm => (hc.mem_iff id).mp hm hp
  have hids : id ∈ system.scheduler.processes.ids := hi.currentValid id hcur
  have hlocks : process.locks = [] := by
    rcases hi.settled id process hg with ⟨_, h⟩ | ⟨h, _, _⟩
    · exact h
    · rw [hready] at h
      cases h
  have hmem : ∀ other, other ∈ id :: contenders ↔
      Function.update system.phase id .locking other ≠ .outside := by
    intro other
    rw [List.mem_cons, Function.update_apply]
    by_cases ho : other = id
    · simp [ho]
    · simp [ho, hc.mem_iff other]
  have hvalue : ∀ count : Nat, 1 - BitVec.ofNat 32 count - 1 = 1 - BitVec.ofNat 32 (count + 1) := by
    intro count
    rw [BitVec.ofNat_add, BitVec.sub_sub]
    rfl
  by_cases hz : system.value = 0
  · have hone := (hc.value_eq_zero_iff hlt).mp hz
    simp only [Semaphore.wait, hz, ite_true, Scheduler.block, hcur, Scheduler.deref_eq_ok hg,
      Except.map, bind, Except.bind, pure, Except.pure, Except.ok.injEq, Prod.mk.injEq] at hw
    obtain ⟨rfl, rfl⟩ := hw
    have hgid : (system.scheduler.processes.update id fun process =>
        process.block address.toNat).get? id = some (process.block address.toNat) := by
      rw [LinkedList.get?_update_self, hg]
      rfl
    refine ⟨fun other ho => ?_, fun other ho => ?_, fun other found ho => ?_, ?_⟩
    · rw [LinkedList.ids_update]
      exact hi.currentValid other (hcur.trans ho)
    · rw [LinkedList.ids_update]
      by_cases he : other = id
      · exact he ▸ hids
      · exact hi.known other (by simpa [he] using ho)
    · by_cases he : other = id
      · subst he
        obtain rfl := Option.some.inj (hgid.symm.trans ho)
        exact Or.inr ⟨rfl, by simp [ArmProcess.block, hlocks], by simp⟩
      · rw [LinkedList.get?_update_of_ne _ he] at ho
        simpa [he] using hi.settled other found ho
    · refine ⟨id :: contenders, List.nodup_cons.mpr ⟨hfresh, hc.nodup⟩, hmem, ?_, ?_, ?_⟩
      · rw [List.length_cons, ← hvalue, ← hc.value_eq, hz]
      · rw [List.length_cons]
        omega
      · exact fun _ => ⟨id, List.mem_cons_self, _, hgid, rfl⟩
  · have hnone : contenders.length = 0 := by
      have := mt (hc.value_eq_zero_iff hlt).mpr hz
      omega
    simp only [Semaphore.wait, hz, ite_false, bind, Except.bind, pure, Except.pure,
      Except.ok.injEq, Prod.mk.injEq] at hw
    obtain ⟨rfl, rfl⟩ := hw
    refine ⟨hi.currentValid, fun other ho => ?_, fun other found ho => ?_, ?_⟩
    · by_cases he : other = id
      · exact he ▸ hids
      · exact hi.known other (by simpa [he] using ho)
    · by_cases he : other = id
      · subst he
        obtain rfl := Option.some.inj (hg.symm.trans ho)
        exact Or.inl ⟨hready, hlocks⟩
      · simpa [he] using hi.settled other found ho
    · refine ⟨id :: contenders, List.nodup_cons.mpr ⟨hfresh, hc.nodup⟩, hmem, ?_, ?_, ?_⟩
      · rw [List.length_cons, ← hvalue, ← hc.value_eq]
      · rw [List.length_cons]
        omega
      · intro hl
        rw [List.length_cons] at hl
        omega

theorem invariant_lockReturns (hi : system.Invariant address) {id : Nat}
    (hr : system.running = some id) (hp : system.phase id = .locking) :
    Invariant address { system with phase := Function.update system.phase id .inside } := by
  obtain ⟨process, _, hg, hready⟩ := running_eq_some hr
  have hmem : ∀ other, Function.update system.phase id .inside other ≠ .outside ↔
      system.phase other ≠ .outside := by
    intro other
    rw [Function.update_apply]
    by_cases he : other = id
    · simp [he, hp]
    · simp [he]
  refine ⟨hi.currentValid, fun other ho => hi.known other ((hmem other).mp ho), ?_, ?_⟩
  · intro other found ho
    by_cases he : other = id
    · subst he
      obtain rfl := Option.some.inj (hg.symm.trans ho)
      rcases hi.settled other process hg with h | ⟨hb, _⟩
      · exact Or.inl h
      · rw [hready] at hb
        cases hb
    · simpa [he] using hi.settled other found ho
  · obtain ⟨contenders, hc⟩ := hi.contended
    exact ⟨contenders, hc.nodup, fun other => (hc.mem_iff other).trans (hmem other).symm,
      hc.value_eq, hc.length_le, hc.blocked⟩

theorem invariant_unlock (hi : system.Invariant address) {id : Nat}
    (hr : system.running = some id) (hp : system.phase id = .inside) :
    Invariant address
      ⟨(Semaphore.post address system.scheduler system.value).1,
        (Semaphore.post address system.scheduler system.value).2,
        Function.update system.phase id .outside⟩ := by
  obtain ⟨process, hcur, hg, hready⟩ := running_eq_some hr
  obtain ⟨contenders, hc⟩ := hi.contended
  have hm : id ∈ contenders := (hc.mem_iff id).mpr (by simp [hp])
  have hother : ∀ other, Function.update system.phase id .outside other ≠ .outside ↔
      other ≠ id ∧ system.phase other ≠ .outside := by
    intro other
    rw [Function.update_apply]
    by_cases he : other = id <;> simp [he]
  have hlength := List.length_erase_of_mem hm
  have hpos := List.length_pos_of_mem hm
  have hl := hc.length_le
  have hvalue : system.value + 1 = 1 - BitVec.ofNat 32 (contenders.erase id).length := by
    rw [hc.value_eq, hlength]
    generalize contenders.length = count at hpos hl ⊢
    rcases Nat.lt_or_eq_of_le hl with hlt | rfl
    · obtain rfl : count = 1 := by omega
      rfl
    · rfl
  -- Nobody is left to be blocked together with another contender.
  have hcontended : ∀ scheduler : Scheduler, Contended
      ⟨scheduler, system.value + 1, Function.update system.phase id .outside⟩
      (contenders.erase id) := by
    intro scheduler
    refine ⟨hc.nodup.erase id, fun other => ?_, hvalue, by omega, fun htwo => by omega⟩
    rw [hc.nodup.mem_erase_iff, hc.mem_iff, hother]
  have hsettled : ∀ other found, system.scheduler.processes.get? other = some found →
      Settled address (Function.update system.phase id .outside other) found := by
    intro other found ho
    by_cases he : other = id
    · subst he
      obtain rfl := Option.some.inj (hg.symm.trans ho)
      rcases hi.settled other process hg with h | ⟨hb, _⟩
      · exact Or.inl h
      · rw [hready] at hb
        cases hb
    · simpa [he] using hi.settled other found ho
  unfold Semaphore.post
  by_cases ha : 1 ≤ address.toInt
  · rw [ite_cond_eq_true _ _ (eq_true ha)]
    refine ⟨fun other ho => ?_, fun other ho => ?_, fun other found ho => ?_, _, hcontended _⟩
    · simp only [Scheduler.unblockAll, LinkedList.ids_mapValues]
      exact hi.currentValid other ho
    · simp only [Scheduler.unblockAll, LinkedList.ids_mapValues]
      exact hi.known other ((hother other).mp ho).2
    · simp only [Scheduler.unblockAll, LinkedList.get?_mapValues, Option.map_eq_some_iff] at ho
      obtain ⟨old, hold, rfl⟩ := ho
      rcases hsettled other old hold with ⟨hs, hlocks⟩ | ⟨_, hlocks, _⟩
      · rw [ArmProcess.unblock_of_notMem _ _ (by simp [hlocks])]
        exact Or.inl ⟨hs, hlocks⟩
      · rw [ArmProcess.unblock_of_mem _ _ (by simp [hlocks])]
        exact Or.inl (by simp [hlocks])
  · rw [ite_cond_eq_false _ _ (eq_false ha)]
    exact ⟨hi.currentValid, fun other ho => hi.known other ((hother other).mp ho).2, hsettled, _,
      hcontended _⟩

theorem invariant_step (hi : system.Invariant address) {event : Event}
    (hn : system.WaitsNonnegative event) (hs : step address system event = some next) :
    next.Invariant address := by
  cases stepped_of_step hs with
  | createProcess stackSize stack => exact invariant_createProcess hi stackSize stack
  | switch hr => exact (invariant_switch hi hr).1
  | lock hr hp hw => exact invariant_lock hi (hn rfl) hr hp hw
  | lockReturns hr hp => exact invariant_lockReturns hi hr hp
  | unlock hr hp => exact invariant_unlock hi hr hp

theorem length_step (hi : system.Invariant address) {event : Event}
    (hs : step address system event = some next) :
    next.scheduler.processes.length =
      system.scheduler.processes.length + creations [event] := by
  have hlength : ∀ list : LinkedList ArmProcess, list.length = list.ids.length := fun list =>
    list.length_ids.symm
  rw [hlength, hlength]
  cases stepped_of_step hs with
  | createProcess stackSize stack => simp [Scheduler.createProcess, creations]
  | switch hr => simp [(invariant_switch hi hr).2, creations]
  | lock hr hp hw =>
      obtain ⟨process, hcur, hg, _⟩ := running_eq_some hr
      by_cases hz : system.value = 0
      · simp only [Semaphore.wait, hz, ite_true, Scheduler.block, hcur, Scheduler.deref_eq_ok hg,
          Except.map, bind, Except.bind, pure, Except.pure, Except.ok.injEq, Prod.mk.injEq] at hw
        obtain ⟨rfl, rfl⟩ := hw
        simp [creations]
      · simp only [Semaphore.wait, hz, ite_false, bind, Except.bind, pure, Except.pure,
          Except.ok.injEq, Prod.mk.injEq] at hw
        obtain ⟨rfl, rfl⟩ := hw
        rfl
  | lockReturns hr hp => rfl
  | unlock hr hp =>
      unfold Semaphore.post
      by_cases ha : 1 ≤ address.toInt
      · simp [ha, Scheduler.unblockAll, creations]
      · simp [ha, creations]

end Steps

section Runs

variable {address : BitVec 32} {system : MutexSystem}

-- A process that calls lock is not a contender yet, so of two processes at
-- most one has taken from the value.
theorem Invariant.waitsNonnegative_of_length_le (hi : system.Invariant address) {event : Event}
    {next : MutexSystem} (hs : step address system event = some next)
    (hl : system.scheduler.processes.length ≤ 2) : system.WaitsNonnegative event := by
  intro he
  subst he
  cases stepped_of_step hs with
  | @lock id _ _ hr hp _ =>
      obtain ⟨process, hcur, _, _⟩ := running_eq_some hr
      obtain ⟨contenders, hc⟩ := hi.contended
      rw [hc.value_nonneg_iff]
      have hfresh : id ∉ contenders := fun hm => (hc.mem_iff id).mp hm hp
      have hsub : (id :: contenders).Subperm system.scheduler.processes.ids := by
        apply List.subperm_of_subset (List.nodup_cons.mpr ⟨hfresh, hc.nodup⟩)
        intro other hm
        rcases List.mem_cons.mp hm with rfl | hm
        · exact hi.currentValid other hcur
        · exact hi.known other ((hc.mem_iff other).mp hm)
      have := hsub.length_le
      simp only [List.length_cons, LinkedList.length_ids] at this
      omega

theorem creations_append (first second : List Event) :
    creations (first ++ second) = creations first + creations second :=
  List.countP_append

theorem waitsNonnegative_of_few {events : List Event} (hi : system.Invariant address)
    (hl : system.scheduler.processes.length + creations events ≤ 2) :
    Respects (step address) WaitsNonnegative system events := by
  induction events generalizing system with
  | nil => trivial
  | cons event rest ih =>
      intro next hs
      have hcount := creations_append [event] rest
      rw [List.singleton_append] at hcount
      have hlength := length_step hi hs
      have hn := hi.waitsNonnegative_of_length_le hs (by omega)
      exact ⟨hn, ih (invariant_step hi hn hs) (by omega)⟩

theorem mutualExclusion_of_nonnegative {events : List Event}
    (hr : Respects (step address) WaitsNonnegative initial events) :
    Throughout (step address) MutualExclusion initial events :=
  throughout_of_respects (Invariant address) (fun _ hi => hi.mutualExclusion)
    (fun _ _ _ hi hn hs => invariant_step hi hn hs) invariant_initial hr

-- The first process holds the mutex, the second one waits for it with the
-- value at -1, and the third one passes because the value is not 0.
def thirdPasses : List Event :=
  [.createProcess 2048 0x20001000, .createProcess 2048 0x20002000, .createProcess 2048 0x20003000,
    .switch, .lock, .lockReturns, .switch, .lock, .switch, .lock, .lockReturns]

theorem run_thirdPasses (address : BitVec 32) :
    ∃ last, run (step address) initial thirdPasses = some last ∧ ¬last.MutualExclusion := by
  refine ⟨_, rfl, fun h => ?_⟩
  exact absurd (h 0 2 rfl rfl) (by decide)

theorem not_throughout_thirdPasses (address : BitVec 32) (rest : List Event) :
    ¬Throughout (step address) MutualExclusion initial (thirdPasses ++ rest) := by
  intro h
  obtain ⟨last, hr, hlast⟩ := run_thirdPasses address
  rw [throughout_iff_prefixes] at h
  exact hlast (h thirdPasses (List.prefix_append _ _) last hr)

theorem mutualExclusion_iff (address : BitVec 32) :
    (∀ events, Respects (step address) WaitsNonnegative initial events →
        Throughout (step address) MutualExclusion initial events) ∧
      ∀ count, (∀ events, creations events = count →
        Throughout (step address) MutualExclusion initial events) ↔ count ≤ 2 := by
  refine ⟨fun events => mutualExclusion_of_nonnegative, fun count => ⟨fun h => ?_, ?_⟩⟩
  · by_contra hcount
    apply not_throughout_thirdPasses address
      (List.replicate (count - 3) (.createProcess 2048 0x20004000))
    apply h
    have hthird : creations thirdPasses = 3 := rfl
    have hmore : ∀ more, creations (List.replicate more (.createProcess 2048 0x20004000)) = more :=
      fun more => by simp [creations, List.countP_replicate]
    rw [creations_append, hthird, hmore]
    omega
  · intro hcount events he
    apply mutualExclusion_of_nonnegative
    apply waitsNonnegative_of_few invariant_initial
    rw [he]
    simpa [initial, Scheduler.initial, LinkedList.length, LinkedList.empty] using hcount

theorem mutualExclusion_three_false :
    ¬Throughout (step 0x20000800#32) MutualExclusion initial thirdPasses := by
  have h := not_throughout_thirdPasses 0x20000800#32 []
  rwa [List.append_nil] at h

end Runs

end Msos.Kernel.MutexSystem
