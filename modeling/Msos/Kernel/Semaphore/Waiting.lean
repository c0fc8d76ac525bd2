import Msos.Kernel.Scheduler.RoundRobin
import Msos.Kernel.Semaphore

namespace Msos.Kernel

open Msos.Library Msos.Library.Machine

namespace ArmProcess

section Locks

variable {process : ArmProcess}

-- The state of a process is what its list of locks says.
structure Settled (process : ArmProcess) : Prop where
  nodup : process.locks.Nodup
  state_eq : process.state = if process.locks = [] then .ready else .blocked

theorem settled_new (pid : Int) (stackSize stack : Nat) : (new pid stackSize stack).Settled :=
  ⟨List.nodup_nil, rfl⟩

theorem mem_locks_block {semaphore lock : Nat} :
    lock ∈ (process.block semaphore).locks ↔ lock ∈ process.locks ∨ lock = semaphore := by
  unfold block
  by_cases hm : semaphore ∈ process.locks
  · simp only [hm, ite_true]
    constructor
    · exact Or.inl
    · rintro (h | rfl)
      · exact h
      · exact hm
  · simp [hm]

theorem Settled.block (h : process.Settled) (semaphore : Nat) :
    (process.block semaphore).Settled := by
  refine ⟨?_, ?_⟩
  · unfold ArmProcess.block
    by_cases hm : semaphore ∈ process.locks
    · simp [hm, h.nodup]
    · simp only [hm, ite_false]
      rw [List.nodup_append]
      refine ⟨h.nodup, List.nodup_singleton _, ?_⟩
      intro lock hl other ho he
      rw [List.mem_singleton] at ho
      exact hm (ho ▸ he ▸ hl)
  · have hne : (process.block semaphore).locks ≠ [] :=
      List.ne_nil_of_mem (mem_locks_block.mpr (Or.inr rfl))
    rw [block_state, ite_cond_eq_false _ _ (eq_false hne)]

theorem Settled.mem_locks_unblock (h : process.Settled) {semaphore lock : Nat} :
    lock ∈ (process.unblock semaphore).locks ↔ lock ∈ process.locks ∧ lock ≠ semaphore := by
  by_cases hm : semaphore ∈ process.locks
  · rw [unblock_of_mem _ _ hm]
    simp only [h.nodup.mem_erase_iff]
    exact and_comm
  · rw [unblock_of_notMem _ _ hm]
    constructor
    · intro hl
      exact ⟨hl, fun he => hm (he ▸ hl)⟩
    · exact And.left

theorem Settled.unblock (h : process.Settled) (semaphore : Nat) :
    (process.unblock semaphore).Settled := by
  by_cases hm : semaphore ∈ process.locks
  · rw [unblock_of_mem _ _ hm]
    refine ⟨h.nodup.erase semaphore, ?_⟩
    have hblocked : process.state = .blocked := by
      rw [h.state_eq, ite_cond_eq_false _ _ (eq_false (List.ne_nil_of_mem hm))]
    simp only [hblocked]
  · rw [unblock_of_notMem _ _ hm]
    exact h

end Locks

end ArmProcess

namespace SemaphoreSystem

section Invariant

variable {system next : SemaphoreSystem}

structure Invariant (system : SemaphoreSystem) : Prop where
  settled : ∀ process ∈ system.scheduler.processes.values, process.Settled
  value_le : ∀ address, system.Waited address → (system.value address).toInt ≤ 0

theorem Invariant.noneRunning (hi : system.Invariant) : system.scheduler.NoneRunning := by
  intro process hm
  rw [(hi.settled process hm).state_eq]
  split <;> simp

theorem Invariant.noLostWakeup (hi : system.Invariant) : system.NoLostWakeup where
  blocked_iff := fun process hm => by
    rw [(hi.settled process hm).state_eq]
    by_cases hnil : process.locks = [] <;> simp [hnil]
  locks_nodup := fun process hm => (hi.settled process hm).nodup
  value_le := hi.value_le
  selects := fun after hs hne => by
    obtain ⟨id, hc, hready⟩ := Scheduler.scheduleNext_selects hi.noneRunning hs hne
    obtain ⟨process, hg, hstate⟩ := (Option.any_eq_true ..).mp hready
    refine ⟨id, process, hc, hg, ?_⟩
    have hm := after.processes.mem_values_of_get? hg
    rw [Scheduler.scheduleNext_frame hs] at hm
    rw [(hi.settled process hm).state_eq] at hstate
    by_contra hlocks
    simp [hlocks] at hstate

theorem invariant_initial (value : BitVec 32 → BitVec 32) : (initial value).Invariant :=
  ⟨by simp [initial, Scheduler.initial], by simp [initial, Scheduler.initial, Waited]⟩

-- Where the processes are some of the old ones or new, the values stand.
theorem Invariant.of_values (hi : system.Invariant) (hv : next.value = system.value)
    (hp : ∀ process ∈ next.scheduler.processes.values,
      process ∈ system.scheduler.processes.values ∨ process.Settled ∧ process.locks = []) :
    next.Invariant := by
  refine ⟨fun process hm => ?_, fun address ⟨process, hm, hl⟩ => ?_⟩
  · rcases hp process hm with hold | ⟨hnew, _⟩
    · exact hi.settled process hold
    · exact hnew
  · rw [hv]
    rcases hp process hm with hold | ⟨_, hnil⟩
    · exact hi.value_le address ⟨process, hold, hl⟩
    · simp [hnil] at hl

theorem toInt_sub_one {value : BitVec 32} (hle : value.toInt ≤ 0) (hne : value ≠ BitVec.intMin 32) :
    (value - 1).toInt ≤ 0 := by
  have hmin : value.toInt ≠ -2147483648 := fun h => hne (BitVec.eq_of_toInt_eq (by rw [h]; rfl))
  have hlow := BitVec.le_toInt value
  rw [BitVec.toInt_sub, Int.bmod_eq_of_le (by simp; omega) (by simp; omega)]
  simp
  omega

-- A wait blocks at zero only, and the value goes down by one.
theorem wait_eq_ok {address : BitVec 32} {scheduler after : Scheduler} {value left : BitVec 32}
    (h : Semaphore.wait address scheduler value = .ok (after, left)) :
    left = value - 1 ∧
      (value = 0 ∧ scheduler.block address.toNat = .ok after ∨ value ≠ 0 ∧ after = scheduler) := by
  unfold Semaphore.wait at h
  by_cases hz : value = 0
  · cases hb : scheduler.block address.toNat with
    | error fault => simp [hz, hb, bind, Except.bind] at h
    | ok blocked =>
        simp only [hz, hb, ite_true, bind, Except.bind, pure, Except.pure, Except.ok.injEq,
          Prod.mk.injEq] at h
        obtain ⟨rfl, rfl⟩ := h
        exact ⟨by rw [hz], Or.inl ⟨hz, rfl⟩⟩
  · simp only [hz, ite_false, bind, Except.bind, pure, Except.pure, Except.ok.injEq,
      Prod.mk.injEq] at h
    obtain ⟨rfl, rfl⟩ := h
    exact ⟨rfl, Or.inr ⟨hz, rfl⟩⟩

theorem invariant_wait (hi : system.Invariant) {address : BitVec 32}
    (hg : system.Guarded (.wait address)) {scheduler : Scheduler} {left : BitVec 32}
    (hw : Semaphore.wait address system.scheduler (system.value address) = .ok (scheduler, left)) :
    Invariant ⟨scheduler, Function.update system.value address left⟩ := by
  obtain ⟨rfl, ⟨hz, hb⟩ | ⟨hz, rfl⟩⟩ := wait_eq_ok hw
  · refine ⟨fun process hm => ?_, fun other ⟨process, hm, hl⟩ => ?_⟩
    · rcases Scheduler.mem_values_of_block hb hm with hold | ⟨old, hold, rfl⟩
      · exact hi.settled process hold
      · exact (hi.settled old hold).block address.toNat
    · by_cases he : other = address
      · subst he
        simp only [Function.update_self, hz]
        decide
      · simp only [Function.update_of_ne he]
        rcases Scheduler.mem_values_of_block hb hm with hold | ⟨old, hold, rfl⟩
        · exact hi.value_le other ⟨process, hold, hl⟩
        · rcases ArmProcess.mem_locks_block.mp hl with hl | hl
          · exact hi.value_le other ⟨old, hold, hl⟩
          · exact absurd (BitVec.eq_of_toNat_eq hl) he
  · refine ⟨hi.settled, fun other hwaited => ?_⟩
    by_cases he : other = address
    · subst he
      simp only [Function.update_self]
      exact toInt_sub_one (hi.value_le other hwaited) (hg hwaited)
    · simp only [Function.update_of_ne he]
      exact hi.value_le other hwaited

-- A post of a positive address takes the semaphore off every list.
theorem waited_post (hi : system.Invariant) {address other : BitVec 32} (value : BitVec 32 → BitVec 32)
    (ha : 1 ≤ address.toInt) :
    Waited ⟨(Semaphore.post address system.scheduler (system.value address)).1, value⟩ other ↔
      system.Waited other ∧ other ≠ address := by
  simp only [Semaphore.post, ha, ite_true, Waited, Scheduler.unblockAll,
    LinkedList.values_mapValues, List.mem_map]
  constructor
  · rintro ⟨_, ⟨process, hm, rfl⟩, hl⟩
    obtain ⟨hl, hne⟩ := (hi.settled process hm).mem_locks_unblock.mp hl
    exact ⟨⟨process, hm, hl⟩, fun he => hne (congrArg BitVec.toNat he)⟩
  · rintro ⟨⟨process, hm, hl⟩, hne⟩
    refine ⟨_, ⟨process, hm, rfl⟩, (hi.settled process hm).mem_locks_unblock.mpr ⟨hl, fun he => ?_⟩⟩
    exact hne (BitVec.eq_of_toNat_eq he)

theorem post_of_nonpositive {address value : BitVec 32} (scheduler : Scheduler)
    (ha : ¬1 ≤ address.toInt) : Semaphore.post address scheduler value = (scheduler, value + 1) := by
  simp [Semaphore.post, ha]

theorem invariant_post (hi : system.Invariant) {address : BitVec 32}
    (hg : system.Guarded (.post address)) :
    Invariant ⟨(Semaphore.post address system.scheduler (system.value address)).1,
      Function.update system.value address
        (Semaphore.post address system.scheduler (system.value address)).2⟩ ∧
    ¬Waited ⟨(Semaphore.post address system.scheduler (system.value address)).1,
      Function.update system.value address
        (Semaphore.post address system.scheduler (system.value address)).2⟩ address := by
  by_cases ha : 1 ≤ address.toInt
  · refine ⟨⟨fun process hm => ?_, fun other hw => ?_⟩, fun hw => ((waited_post hi _ ha).mp hw).2 rfl⟩
    · simp only [Semaphore.post, ha, ite_true, Scheduler.unblockAll, LinkedList.values_mapValues,
        List.mem_map] at hm
      obtain ⟨old, hold, rfl⟩ := hm
      exact (hi.settled old hold).unblock address.toNat
    · obtain ⟨hw, hne⟩ := (waited_post hi _ ha).mp hw
      simp only [Function.update_of_ne hne]
      exact hi.value_le other hw
  · have hnot : ¬system.Waited address := fun hw => ha (hg hw)
    rw [post_of_nonpositive _ ha]
    refine ⟨⟨hi.settled, fun other hw => ?_⟩, hnot⟩
    have hne : other ≠ address := fun he => hnot (he ▸ hw)
    simp only [Function.update_of_ne hne]
    exact hi.value_le other hw

theorem step_wait {address : BitVec 32} (hs : step system (.wait address) = some next) :
    ∃ scheduler left,
      Semaphore.wait address system.scheduler (system.value address) = .ok (scheduler, left) ∧
      next = ⟨scheduler, Function.update system.value address left⟩ := by
  simp only [step] at hs
  split at hs
  · rename_i scheduler left hw
    exact ⟨scheduler, left, hw, (Option.some.inj hs).symm⟩
  · simp at hs

theorem step_post (address : BitVec 32) :
    step system (.post address) =
      some ⟨(Semaphore.post address system.scheduler (system.value address)).1,
        Function.update system.value address
          (Semaphore.post address system.scheduler (system.value address)).2⟩ := rfl

theorem invariant_step (hi : system.Invariant) {event : Event} (hg : system.Guarded event)
    (hs : step system event = some next) : next.Invariant := by
  cases event with
  | createProcess stackSize stack =>
      obtain rfl := Option.some.inj hs
      refine hi.of_values rfl fun process hm => ?_
      simp only [Scheduler.createProcess, LinkedList.values_pushBack, List.mem_append,
        List.mem_singleton] at hm
      rcases hm with hold | rfl
      · exact Or.inl hold
      · exact Or.inr ⟨ArmProcess.settled_new .., rfl⟩
  | deleteProcess pid =>
      simp only [step] at hs
      split at hs
      · rename_i scheduler hd
        obtain rfl := Option.some.inj hs
        exact hi.of_values rfl fun process hm => Or.inl (Scheduler.mem_values_of_deleteProcess hd hm)
      · simp at hs
  | processExit =>
      simp only [step] at hs
      split at hs
      · rename_i scheduler hd
        obtain rfl := Option.some.inj hs
        exact hi.of_values rfl fun process hm => Or.inl (Scheduler.mem_values_of_processExit hd hm)
      · simp at hs
  | switch =>
      simp only [step] at hs
      split at hs
      · rename_i scheduler hn
        obtain rfl := Option.some.inj hs
        refine hi.of_values rfl fun process hm => Or.inl ?_
        rw [← Scheduler.scheduleNext_frame hn]
        exact hm
      · simp at hs
  | wait address =>
      obtain ⟨scheduler, left, hw, rfl⟩ := step_wait hs
      exact invariant_wait hi hg hw
  | post address =>
      obtain rfl := Option.some.inj hs
      exact (invariant_post hi hg).1

-- Below the smallest integer the value of a waited semaphore turns positive.
theorem not_wakesUp_wait {address : BitVec 32} (hg : ¬system.Guarded (.wait address))
    (hs : step system (.wait address) = some next) : ¬next.NoLostWakeup := by
  obtain ⟨⟨process, hm, hl⟩, hmin⟩ : system.Waited address ∧
      system.value address = BitVec.intMin 32 := by
    simpa [Guarded] using hg
  obtain ⟨scheduler, left, hw, rfl⟩ := step_wait hs
  obtain ⟨rfl, ⟨hz, _⟩ | ⟨_, rfl⟩⟩ := wait_eq_ok hw
  · rw [hmin] at hz
    exact absurd hz (by decide)
  · intro h
    have hle := h.value_le address ⟨process, hm, hl⟩
    simp only [Function.update_self, hmin] at hle
    exact absurd hle (by decide)

theorem not_wakesUp_post {address : BitVec 32} (hg : ¬system.Guarded (.post address))
    (hs : step system (.post address) = some next) : next.Waited address := by
  obtain ⟨hw, ha⟩ : system.Waited address ∧ ¬1 ≤ address.toInt := by
    simpa only [Guarded, Classical.not_imp] using hg
  rw [step_post, post_of_nonpositive _ ha] at hs
  obtain rfl := Option.some.inj hs
  exact hw

theorem wakesUp_iff (hi : system.Invariant) {event : Event}
    (hs : step system event = some next) :
    WakesUp system event next ↔ system.Guarded event := by
  constructor
  · rintro ⟨hgood, hpost⟩
    by_contra hg
    cases event with
    | wait address => exact not_wakesUp_wait hg hs hgood
    | post address => exact hpost address rfl (not_wakesUp_post hg hs)
    | createProcess | deleteProcess | processExit | switch => exact hg trivial
  · intro hg
    refine ⟨(invariant_step hi hg hs).noLostWakeup, ?_⟩
    rintro address rfl
    obtain rfl := Option.some.inj hs
    exact (invariant_post hi hg).2

end Invariant

section Runs

-- Whatever the semaphores start with, no wake-up is lost in a run exactly when
-- its waits and posts are all guarded.
theorem noLostWakeup_iff (value : BitVec 32 → BitVec 32) (events : List Event) :
    (initial value).NoLostWakeup ∧ Transitions step WakesUp (initial value) events ↔
      Respects step Guarded (initial value) events := by
  have hrun := @transitions_iff_respects _ _ step Guarded WakesUp Invariant
    (fun _ _ _ hi hg hs => invariant_step hi hg hs) (fun _ _ _ hi hs => wakesUp_iff hi hs)
    (initial value) events (invariant_initial value)
  rw [← hrun]
  exact ⟨And.right, fun h => ⟨(invariant_initial value).noLostWakeup, h⟩⟩

-- A process waits on a semaphore in the upper half of the address space, and a
-- post on it wakes nobody up.
theorem post_high_wakes_nobody :
    ¬Transitions step WakesUp (initial fun _ => 0)
      [.createProcess 2048 0x20001000, .createProcess 2048 0x20002000, .switch,
        .wait 0xC0000000, .switch, .post 0xC0000000] := by
  intro h
  have hpost := (((((h _ rfl).2 _ rfl).2 _ rfl).2 _ rfl).2 _ rfl).2 _ rfl
  exact hpost.1.2 0xC0000000 rfl ⟨_, List.mem_cons_self, by decide⟩

end Runs

end SemaphoreSystem

end Msos.Kernel
