import Msos.Kernel.Scheduler

namespace Msos.Kernel.Scheduler

open Msos.Library Msos.Library.Machine

section Iterator

variable {scheduler : Scheduler}

-- The iterator is the end or points into the list.
def CurrentValid (scheduler : Scheduler) : Prop :=
  ∀ id, scheduler.current = some id → id ∈ scheduler.processes.ids

def pids (scheduler : Scheduler) : List Int := scheduler.processes.values.map ArmProcess.pid

theorem deref_eq_ok {id : Nat} {process : ArmProcess}
    (h : scheduler.processes.get? id = some process) : scheduler.deref (some id) = .ok process := by
  simp [deref, h]

theorem exists_deref {id : Nat} (hm : id ∈ scheduler.processes.ids) :
    ∃ process, scheduler.processes.get? id = some process ∧
      scheduler.deref (some id) = .ok process := by
  obtain ⟨process, h⟩ := scheduler.processes.exists_get?_of_mem hm
  exact ⟨process, h, deref_eq_ok h⟩

theorem getNext_eq {id : Nat} (hc : scheduler.current = some id)
    (hm : id ∈ scheduler.processes.ids) :
    scheduler.getNext = .ok (scheduler.processes.successor id) := by
  obtain ⟨process, _, hd⟩ := exists_deref hm
  simp [getNext, hc, hd, Except.map]

theorem exists_getNext (hv : scheduler.CurrentValid) (hne : scheduler.processes.ids ≠ []) :
    ∃ id, scheduler.getNext = .ok (some id) ∧ id ∈ scheduler.processes.ids := by
  cases hc : scheduler.current with
  | none =>
      obtain ⟨id, hf, hm⟩ := scheduler.processes.first_mem hne
      exact ⟨id, by simp [getNext, hc, hf], hm⟩
  | some id =>
      obtain ⟨after, hs, hm⟩ := scheduler.processes.successor_mem (hv id hc)
      exact ⟨after, by rw [getNext_eq hc (hv id hc), hs], hm⟩

theorem currentProcess_eq {id : Nat} {process : ArmProcess} (hc : scheduler.current = some id)
    (h : scheduler.processes.get? id = some process) :
    scheduler.currentProcess = .ok (some process) := by
  simp [currentProcess, hc, deref_eq_ok h, Except.map]

theorem currentProcess_of_erased {id : Nat} (hc : scheduler.current = some id)
    (h : scheduler.processes.get? id = none) :
    scheduler.currentProcess = .error .danglingIterator := by
  simp [currentProcess, hc, deref, h, Except.map]

instance : Decidable scheduler.CurrentValid :=
  match hc : scheduler.current with
  | none => isTrue (by simp [CurrentValid, hc])
  | some id => decidable_of_iff (id ∈ scheduler.processes.ids) (by simp [CurrentValid, hc])

end Iterator

section ScheduleNext

variable {scheduler : Scheduler}

-- What the scheduling loop can leave behind: only the iterator moves, inside
-- the list, and to a ready process when none is in the unused state running.
def Rescheduled (scheduler next : Scheduler) : Prop :=
  ∃ current, next = { scheduler with current := current } ∧
    (current = scheduler.current ∨ ∃ id ∈ scheduler.processes.ids, current = some id) ∧
    ((∀ process ∈ scheduler.processes.values, process.state ≠ .running) →
      ∃ id process, current = some id ∧ scheduler.processes.get? id = some process ∧
        process.state = .ready)

theorem scheduleLoop_succ (fuel : Nat) {next : Nat} {process : ArmProcess}
    (hg : scheduler.processes.get? next = some process) :
    scheduler.scheduleLoop (fuel + 1) (some next) =
      if process.state = .running then .ok (some scheduler)
      else if process.state = .ready then .ok (some { scheduler with current := some next })
      else { scheduler with current := some next }.scheduleLoop fuel
        (scheduler.processes.successor next) := by
  have hn := @getNext_eq { scheduler with current := some next } next rfl
    (scheduler.processes.mem_ids_of_get? hg)
  simp only [scheduleLoop, deref_eq_ok hg, hn, bind, Except.bind, pure, Except.pure]
  by_cases hrun : process.state = .running
  · simp [hrun]
  · by_cases hready : process.state = .ready
    · simp [hready]
    · simp [hrun, hready]

theorem scheduleLoop_spec (fuel : Nat) {next : Nat} (hm : next ∈ scheduler.processes.ids) :
    ∃ result, scheduler.scheduleLoop fuel (some next) = .ok result ∧
      ∀ after, result = some after → scheduler.Rescheduled after := by
  induction fuel generalizing scheduler next with
  | zero => exact ⟨none, rfl, by simp⟩
  | succ fuel ih =>
      obtain ⟨process, hg, _⟩ := exists_deref hm
      rw [scheduleLoop_succ fuel hg]
      by_cases hrun : process.state = .running
      · refine ⟨_, by rw [ite_cond_eq_true _ _ (eq_true hrun)], ?_⟩
        intro after he
        obtain rfl := Option.some.inj he
        refine ⟨scheduler.current, rfl, Or.inl rfl, fun hnone => ?_⟩
        exact absurd hrun (hnone process (scheduler.processes.mem_values_of_get? hg))
      · rw [ite_cond_eq_false _ _ (eq_false hrun)]
        by_cases hready : process.state = .ready
        · refine ⟨_, by rw [ite_cond_eq_true _ _ (eq_true hready)], ?_⟩
          intro after he
          obtain rfl := Option.some.inj he
          exact ⟨some next, rfl, Or.inr ⟨next, hm, rfl⟩, fun _ => ⟨next, process, rfl, hg, hready⟩⟩
        · rw [ite_cond_eq_false _ _ (eq_false hready)]
          obtain ⟨id, hs, hid⟩ := scheduler.processes.successor_mem hm
          obtain ⟨result, hr, hspec⟩ := @ih { scheduler with current := some next } id hid
          refine ⟨result, by rw [hs]; exact hr, fun after he => ?_⟩
          obtain ⟨current, rfl, hcur, hsel⟩ := hspec after he
          refine ⟨current, rfl, ?_, hsel⟩
          rcases hcur with rfl | hcur
          · exact Or.inr ⟨next, hm, rfl⟩
          · exact Or.inr hcur

-- The loop returns as soon as its fuel reaches a ready process ahead of it.
theorem scheduleLoop_of_ready {fuel i distance : Nat} (hi : i < scheduler.processes.ids.length)
    (hd : distance < fuel)
    (hready : ∀ id,
      scheduler.processes.ids[(i + distance) % scheduler.processes.ids.length]? = some id →
        ∃ process, scheduler.processes.get? id = some process ∧ process.state = .ready) :
    ∃ after, scheduler.scheduleLoop fuel (some scheduler.processes.ids[i]) = .ok (some after) := by
  induction fuel generalizing scheduler i distance with
  | zero => omega
  | succ fuel ih =>
      obtain ⟨process, hg, _⟩ := exists_deref (List.getElem_mem hi)
      rw [scheduleLoop_succ fuel hg]
      by_cases hrun : process.state = .running
      · exact ⟨scheduler, by rw [ite_cond_eq_true _ _ (eq_true hrun)]⟩
      · rw [ite_cond_eq_false _ _ (eq_false hrun)]
        by_cases hr : process.state = .ready
        · exact ⟨_, by rw [ite_cond_eq_true _ _ (eq_true hr)]⟩
        · rw [ite_cond_eq_false _ _ (eq_false hr)]
          have hpos : 0 < distance := by
            by_contra hz
            obtain rfl : distance = 0 := by omega
            rw [Nat.add_zero, Nat.mod_eq_of_lt hi, List.getElem?_eq_getElem hi] at hready
            obtain ⟨found, hf, hs⟩ := hready _ rfl
            rw [Option.some.inj (hg.symm.trans hf)] at hr
            exact hr hs
          have hnext : (i + 1) % scheduler.processes.ids.length < scheduler.processes.ids.length :=
            Nat.mod_lt _ (by omega)
          rw [LinkedList.successor_getElem, List.getElem?_eq_getElem hnext]
          apply @ih { scheduler with current := some scheduler.processes.ids[i] }
            ((i + 1) % scheduler.processes.ids.length) (distance - 1) hnext (by omega)
          rw [Nat.mod_add_mod, show i + 1 + (distance - 1) = i + distance by omega]
          exact hready

theorem scheduleNext_of_nil (hnil : scheduler.processes.ids = []) :
    scheduler.scheduleNext = .ok (some scheduler) := by
  simp only [scheduleNext, scheduler.processes.ids_eq_nil_iff.mp hnil]
  rfl

theorem scheduleNext_of_ne_nil (hv : scheduler.CurrentValid)
    (hne : scheduler.processes.ids ≠ []) :
    ∃ result, scheduler.scheduleNext = .ok result ∧
      ∀ after, result = some after → scheduler.Rescheduled after := by
  obtain ⟨id, hn, hm⟩ := exists_getNext hv hne
  have hnodes : scheduler.processes.nodes ≠ [] := fun h =>
    hne (scheduler.processes.ids_eq_nil_iff.mpr h)
  obtain ⟨result, hr, hspec⟩ := scheduleLoop_spec scheduler.processes.length hm
  refine ⟨result, ?_, hspec⟩
  simp only [scheduleNext, hnodes, ite_false, hn]
  exact hr

-- With a ready process in the list one round is enough, and it selects one.
theorem scheduleNext_of_ready (hv : scheduler.CurrentValid)
    (hrun : ∀ process ∈ scheduler.processes.values, process.state ≠ .running)
    (hready : ∃ process ∈ scheduler.processes.values, process.state = .ready) :
    ∃ id process, scheduler.scheduleNext = .ok (some { scheduler with current := some id }) ∧
      scheduler.processes.get? id = some process ∧ process.state = .ready := by
  obtain ⟨ready, hm, hs⟩ := hready
  obtain ⟨readyId, hg⟩ := scheduler.processes.exists_get?_of_mem_values hm
  obtain ⟨j, hj, hje⟩ := List.getElem_of_mem (scheduler.processes.mem_ids_of_get? hg)
  have hne : scheduler.processes.ids ≠ [] := List.ne_nil_of_length_pos (by omega)
  have hnodes : scheduler.processes.nodes ≠ [] := fun h =>
    hne (scheduler.processes.ids_eq_nil_iff.mpr h)
  obtain ⟨first, hn, hf⟩ := exists_getNext hv hne
  obtain ⟨i, hi, rfl⟩ := List.getElem_of_mem hf
  have hlen := scheduler.processes.length_ids
  have hdistance : (i + (j + scheduler.processes.ids.length - i) % scheduler.processes.ids.length) %
      scheduler.processes.ids.length = j := by
    rw [Nat.add_mod_mod, show i + (j + scheduler.processes.ids.length - i) =
      j + scheduler.processes.ids.length by omega, Nat.add_mod_right, Nat.mod_eq_of_lt hj]
  have hlt : (j + scheduler.processes.ids.length - i) % scheduler.processes.ids.length <
      scheduler.processes.ids.length := Nat.mod_lt _ (by omega)
  obtain ⟨after, ha⟩ := scheduleLoop_of_ready hi hlt (by
    rw [hdistance, List.getElem?_eq_getElem hj, hje]
    intro id hid
    obtain rfl := Option.some.inj hid
    exact ⟨ready, hg, hs⟩)
  obtain ⟨result, hr, hspec⟩ := scheduleLoop_spec scheduler.processes.ids.length
    (List.getElem_mem hi)
  obtain ⟨current, rfl, _, hsel⟩ := hspec after (Except.ok.inj (hr.symm.trans ha))
  obtain ⟨id, process, rfl, hg, hstate⟩ := hsel hrun
  refine ⟨id, process, ?_, hg, hstate⟩
  simp only [scheduleNext, hnodes, ite_false, hn, bind, Except.bind]
  rw [← hlen]
  exact ha

theorem Rescheduled.currentValid {next : Scheduler} (h : scheduler.Rescheduled next)
    (hv : scheduler.CurrentValid) : next.CurrentValid := by
  obtain ⟨current, rfl, hcur, _⟩ := h
  intro id hid
  rcases hcur with rfl | ⟨other, hm, rfl⟩
  · exact hv id hid
  · obtain rfl := Option.some.inj hid
    exact hm

end ScheduleNext

section Delete

variable {scheduler : Scheduler}

theorem eraseProcess_of_notMem {pid : Int} (hn : pid ∉ scheduler.pids) :
    scheduler.eraseProcess pid = scheduler := by
  have hf : scheduler.processes.nodes.find? (fun node => decide (node.2.pid = pid)) = none := by
    apply List.find?_eq_none.mpr
    intro node hm he
    exact hn (List.mem_map.mpr ⟨node.2, List.mem_map_of_mem hm, of_decide_eq_true he⟩)
  simp [eraseProcess, hf]

-- With distinct pids, the node that is erased is the one with the pid.
theorem eraseProcess_of_get? (hnodup : scheduler.pids.Nodup) {id : Nat} {process : ArmProcess}
    (hg : scheduler.processes.get? id = some process) :
    scheduler.eraseProcess process.pid =
      { scheduler with processes := scheduler.processes.eraseNode id } := by
  have hm := scheduler.processes.get?_eq_some_iff.mp hg
  simp only [eraseProcess]
  cases hf : scheduler.processes.nodes.find? fun node => decide (node.2.pid = process.pid) with
  | none =>
      have := List.find?_eq_none.mp hf _ hm
      simp at this
  | some node =>
      have he : node.2.pid = process.pid := by simpa using List.find?_some hf
      have hnodup' : (scheduler.processes.nodes.map fun node => node.2.pid).Nodup := by
        simpa [pids, LinkedList.values, Function.comp_def] using hnodup
      obtain rfl := List.inj_on_of_nodup_map hnodup' (List.mem_of_find?_eq_some hf) hm he
      rfl

-- delete_process of the manager removes exactly the process with the pid.
theorem values_eraseProcess (hnodup : scheduler.pids.Nodup) (pid : Int) :
    (scheduler.eraseProcess pid).processes.values =
      scheduler.processes.values.filter fun process => process.pid ≠ pid := by
  by_cases hm : pid ∈ scheduler.pids
  · obtain ⟨process, hp, rfl⟩ := List.mem_map.mp hm
    obtain ⟨id, hg⟩ := scheduler.processes.exists_get?_of_mem_values hp
    rw [eraseProcess_of_get? hnodup hg]
    apply LinkedList.values_eraseNode
    intro node hn
    have hnodup' : (scheduler.processes.nodes.map fun node => node.2.pid).Nodup := by
      simpa [pids, LinkedList.values, Function.comp_def] using hnodup
    have hid := scheduler.processes.get?_eq_some_iff.mp hg
    simp only [ne_eq, decide_not, Bool.not_eq_true', decide_eq_false_iff_not, not_iff_not]
    constructor
    · intro he
      exact congrArg Prod.fst (List.inj_on_of_nodup_map hnodup' hn hid he)
    · intro he
      rw [List.inj_on_of_nodup_map scheduler.processes.ids_nodup hn hid he]
  · rw [eraseProcess_of_notMem hm, eq_comm, List.filter_eq_self]
    intro process hp
    have hne : process.pid ≠ pid := fun he => hm (he ▸ List.mem_map_of_mem hp)
    simpa using hne

@[simp] theorem current_eraseProcess (pid : Int) :
    (scheduler.eraseProcess pid).current = scheduler.current := by
  unfold eraseProcess
  split <;> rfl

theorem deleteProcess_other {id : Nat} {process : ArmProcess} {pid : Int}
    (hc : scheduler.current = some id) (hg : scheduler.processes.get? id = some process)
    (hne : pid ≠ process.pid) :
    scheduler.deleteProcess pid = .ok (scheduler.eraseProcess pid) := by
  simp [deleteProcess, hc, deref_eq_ok hg, hne, bind, Except.bind, pure, Except.pure]

-- The iterator is moved to the successor before the node is erased.
theorem deleteProcess_current {id : Nat} {process : ArmProcess}
    (hc : scheduler.current = some id) (hg : scheduler.processes.get? id = some process) :
    scheduler.deleteProcess process.pid =
      .ok ({ scheduler with current := scheduler.processes.successor id }.eraseProcess
        process.pid) := by
  have hn := getNext_eq hc (scheduler.processes.mem_ids_of_get? hg)
  simp [deleteProcess, hc, deref_eq_ok hg, hn, bind, Except.bind, pure, Except.pure]

end Delete

section Calls

variable {scheduler : Scheduler}

structure Consistent (scheduler : Scheduler) : Prop where
  currentValid : scheduler.CurrentValid
  pids_nodup : scheduler.pids.Nodup

-- What a call needs to be made safely: a fresh pid, a started scheduler, and
-- another process to fall back on.
def Allowed (scheduler : Scheduler) : Call → Prop
  | .createProcess _ _ => scheduler.pidCounter ∉ scheduler.pids
  | .deleteProcess pid => ∃ id process, scheduler.current = some id ∧
      scheduler.processes.get? id = some process ∧
      (process.pid = pid → 1 < scheduler.processes.length)
  | .processExit => scheduler.current = none ∨ 1 < scheduler.processes.length
  | .scheduleNext | .block _ | .unblockAll _ => True

instance : Decidable scheduler.Consistent :=
  decidable_of_iff (scheduler.CurrentValid ∧ scheduler.pids.Nodup)
    ⟨fun h => ⟨h.1, h.2⟩, fun h => ⟨h.currentValid, h.pids_nodup⟩⟩

theorem consistent_initial : initial.Consistent :=
  ⟨fun _ h => by simp [initial] at h, by simp [pids, initial]⟩

theorem consistent_createProcess (h : scheduler.Consistent) (stackSize stack : Nat) :
    (scheduler.createProcess stackSize stack).Consistent ↔
      scheduler.pidCounter ∉ scheduler.pids := by
  have hp : (scheduler.createProcess stackSize stack).pids =
      scheduler.pids ++ [scheduler.pidCounter] := by
    simp [createProcess, pids, ArmProcess.new]
  have hv : (scheduler.createProcess stackSize stack).CurrentValid := by
    intro id hid
    simp only [createProcess, LinkedList.ids_pushBack, List.mem_append]
    exact Or.inl (h.currentValid id hid)
  have hn := h.pids_nodup
  constructor
  · intro hc hm
    have := hc.pids_nodup
    rw [hp, List.nodup_append] at this
    exact this.2.2 _ hm _ (List.mem_singleton_self _) rfl
  · intro hm
    refine ⟨hv, ?_⟩
    rw [hp, List.nodup_append]
    refine ⟨hn, List.nodup_singleton _, fun pid hpid other ho he => hm ?_⟩
    rw [List.mem_singleton] at ho
    exact ho ▸ he ▸ hpid

theorem nodup_pids_eraseProcess (hn : scheduler.pids.Nodup) (pid : Int) :
    (scheduler.eraseProcess pid).pids.Nodup := by
  rw [pids, values_eraseProcess hn]
  exact hn.sublist (List.filter_sublist.map _)

theorem consistent_delete_other (h : scheduler.Consistent) {id : Nat} {process : ArmProcess}
    {pid : Int} (hc : scheduler.current = some id)
    (hg : scheduler.processes.get? id = some process) (hne : pid ≠ process.pid) :
    (scheduler.eraseProcess pid).Consistent := by
  refine ⟨fun other ho => ?_, nodup_pids_eraseProcess h.pids_nodup pid⟩
  rw [current_eraseProcess, hc] at ho
  obtain rfl := Option.some.inj ho
  by_cases hm : pid ∈ scheduler.pids
  · obtain ⟨erased, he, rfl⟩ := List.mem_map.mp hm
    obtain ⟨node, hnode⟩ := scheduler.processes.exists_get?_of_mem_values he
    rw [eraseProcess_of_get? h.pids_nodup hnode, LinkedList.ids_eraseNode, List.mem_filter]
    refine ⟨h.currentValid id hc, ?_⟩
    have hid : id ≠ node := by
      intro hid
      rw [hid, hnode] at hg
      exact hne (congrArg ArmProcess.pid (Option.some.inj hg))
    simpa using hid
  · rw [eraseProcess_of_notMem hm]
    exact h.currentValid id hc

-- The successor of the current process survives unless it is the process itself.
theorem consistent_delete_current (h : scheduler.Consistent) {id : Nat} {process : ArmProcess}
    (hc : scheduler.current = some id) (hg : scheduler.processes.get? id = some process) :
    ({ scheduler with current := scheduler.processes.successor id }.eraseProcess
      process.pid).Consistent ↔ 1 < scheduler.processes.length := by
  have hm := h.currentValid id hc
  obtain ⟨after, hs, ha⟩ := scheduler.processes.successor_mem hm
  rw [hs]
  have he : ({ scheduler with current := some after } : Scheduler).eraseProcess process.pid =
      { scheduler with
        current := some after
        processes := scheduler.processes.eraseNode id } :=
    @eraseProcess_of_get? { scheduler with current := some after } h.pids_nodup id process hg
  have hvalid : CurrentValid (({ scheduler with current := some after } : Scheduler).eraseProcess
      process.pid) ↔ after ≠ id := by
    rw [he]
    simp [CurrentValid, ha]
  have hlen : after ≠ id ↔ 1 < scheduler.processes.length := by
    constructor
    · intro hne
      by_contra hle
      have hpos := List.length_pos_of_mem hm
      rw [LinkedList.length_ids] at hpos
      obtain ⟨only, hids⟩ := List.length_eq_one_iff.mp
        (show scheduler.processes.ids.length = 1 by rw [LinkedList.length_ids]; omega)
      rw [hids, List.mem_singleton] at hm ha
      exact hne (ha.trans hm.symm)
    · intro hl hid
      exact scheduler.processes.successor_ne hm hl (hid ▸ hs)
  rw [← hlen, ← hvalid]
  refine ⟨Consistent.currentValid, fun hv => ⟨hv, ?_⟩⟩
  exact @nodup_pids_eraseProcess { scheduler with current := some after } h.pids_nodup process.pid

theorem Rescheduled.consistent {next : Scheduler} (hr : scheduler.Rescheduled next)
    (h : scheduler.Consistent) : next.Consistent := by
  have hv := hr.currentValid h.currentValid
  obtain ⟨current, rfl, _⟩ := hr
  exact ⟨hv, h.pids_nodup⟩

theorem consistent_block (h : scheduler.Consistent) (semaphore : Nat) :
    ∃ next, scheduler.block semaphore = .ok next ∧ next.Consistent := by
  cases hc : scheduler.current with
  | none => exact ⟨scheduler, by simp [block, hc], h⟩
  | some id =>
      obtain ⟨process, hg, hd⟩ := exists_deref (h.currentValid id hc)
      refine ⟨_, by simp [block, hc, hd, Except.map]; rfl, fun other ho => ?_, ?_⟩
      · rw [LinkedList.ids_update]
        exact h.currentValid other (hc.trans ho)
      · have hp : ∀ process : ArmProcess, (process.block semaphore).pid = process.pid := fun _ => rfl
        rw [pids, LinkedList.map_values_update _ hp]
        exact h.pids_nodup

theorem consistent_unblockAll (h : scheduler.Consistent) (semaphore : Nat) :
    (scheduler.unblockAll semaphore).Consistent := by
  refine ⟨fun id hid => ?_, ?_⟩
  · rw [unblockAll, LinkedList.ids_mapValues]
    exact h.currentValid id hid
  · have hp : (scheduler.unblockAll semaphore).pids = scheduler.pids := by
      simp [pids, unblockAll]
    rw [hp]
    exact h.pids_nodup

theorem scheduleNext_spec (h : scheduler.Consistent) :
    ∃ result, scheduler.scheduleNext = .ok result ∧
      ∀ after, result = some after → after.Consistent ∧
        (scheduler.current.isSome → after.current.isSome) := by
  by_cases hne : scheduler.processes.ids = []
  · exact ⟨_, scheduleNext_of_nil hne, fun after he => Option.some.inj he ▸ ⟨h, id⟩⟩
  · obtain ⟨result, hr, hspec⟩ := scheduleNext_of_ne_nil h.currentValid hne
    refine ⟨result, hr, fun after he => ⟨(hspec after he).consistent h, fun hs => ?_⟩⟩
    obtain ⟨current, rfl, hcur, _⟩ := hspec after he
    rcases hcur with rfl | ⟨id, _, rfl⟩
    · exact hs
    · rfl

theorem getNextTask_of_current (h : scheduler.Consistent) (hs : scheduler.current.isSome) :
    ∃ result, scheduler.getNextTask = .ok result ∧
      ∀ after, result = some after → after.Consistent := by
  obtain ⟨result, hr, hspec⟩ := scheduleNext_spec h
  cases result with
  | none => exact ⟨none, by simp [getNextTask, hr, bind, Except.bind, pure, Except.pure], by simp⟩
  | some after =>
      obtain ⟨hcons, hcur⟩ := hspec after rfl
      obtain ⟨id, hid⟩ := Option.isSome_iff_exists.mp (hcur hs)
      obtain ⟨process, hg, _⟩ := exists_deref (hcons.currentValid id hid)
      refine ⟨some after, ?_, fun _ he => Option.some.inj he ▸ hcons⟩
      simp [getNextTask, hr, currentProcess_eq hid hg, bind, Except.bind, pure, Except.pure]

-- process_exit of the last process goes on to use the iterator to it.
theorem processExit_last (h : scheduler.Consistent) {id : Nat} (hc : scheduler.current = some id)
    (hl : ¬1 < scheduler.processes.length) : scheduler.processExit = .error .danglingIterator := by
  have hm := h.currentValid id hc
  obtain ⟨process, hg, _⟩ := exists_deref hm
  obtain ⟨after, hs, ha⟩ := scheduler.processes.successor_mem hm
  have hpos := List.length_pos_of_mem hm
  rw [LinkedList.length_ids] at hpos
  obtain ⟨only, hids⟩ := List.length_eq_one_iff.mp
    (show scheduler.processes.ids.length = 1 by rw [LinkedList.length_ids]; omega)
  have hid : id = only := by simpa [hids] using hm
  have hafter : after = id := by simpa [hids, hid] using ha
  have hd := deleteProcess_current hc hg
  rw [hs, hafter] at hd
  have he : ({ scheduler with current := some id } : Scheduler).eraseProcess process.pid =
      { scheduler with
        current := some id
        processes := scheduler.processes.eraseNode id } :=
    @eraseProcess_of_get? { scheduler with current := some id } h.pids_nodup id process hg
  rw [he] at hd
  have hnil : (scheduler.processes.eraseNode id).ids = [] := by simp [hids, hid]
  have hn := @scheduleNext_of_nil
    { scheduler with current := some id, processes := scheduler.processes.eraseNode id } hnil
  have hnone : (scheduler.processes.eraseNode id).get? id = none := by
    rw [LinkedList.get?_eq_none_iff, hnil]
    exact List.not_mem_nil
  have herased := @currentProcess_of_erased
    { scheduler with current := some id, processes := scheduler.processes.eraseNode id } id rfl hnone
  simp only [processExit, currentProcess_eq hc hg, hd, getNextTask, hn, herased, bind, Except.bind]

-- No fault so far, and a state that the next call can start from.
def Good : Except Fault Scheduler → Prop
  | .error _ => False
  | .ok scheduler => scheduler.Consistent

instance : DecidablePred Good
  | .error _ => isFalse id
  | .ok scheduler => inferInstanceAs (Decidable scheduler.Consistent)

def Guarded : Except Fault Scheduler → Call → Prop
  | .error _, _ => True
  | .ok scheduler, call => scheduler.Allowed call

theorem step_good_iff (h : scheduler.Consistent) {call : Call} {next : Except Fault Scheduler}
    (hs : step (.ok scheduler) call = some next) : Good next ↔ scheduler.Allowed call := by
  cases call with
  | createProcess stackSize stack =>
      obtain rfl : .ok (scheduler.createProcess stackSize stack) = next := Option.some.inj hs
      exact consistent_createProcess h stackSize stack
  | deleteProcess pid =>
      cases hc : scheduler.current with
      | none =>
          have he : step (.ok scheduler) (.deleteProcess pid) = some (.error .endIterator) := by
            simp [step, Scheduler.call, deleteProcess, hc, deref, Except.map, bind, Except.bind]
          obtain rfl := Option.some.inj (he.symm.trans hs)
          simp [Good, Allowed, hc]
      | some id =>
          obtain ⟨process, hg, _⟩ := exists_deref (h.currentValid id hc)
          have hallowed : scheduler.Allowed (.deleteProcess pid) ↔
              (process.pid = pid → 1 < scheduler.processes.length) := by
            simp [Allowed, hc, hg]
          rw [hallowed]
          by_cases hp : process.pid = pid
          · subst hp
            simp only [step, Scheduler.call, deleteProcess_current hc hg, Except.map] at hs
            obtain rfl := Option.some.inj hs
            rw [Good, consistent_delete_current h hc hg]
            simp
          · simp only [step, Scheduler.call, deleteProcess_other hc hg (Ne.symm hp), Except.map] at hs
            obtain rfl := Option.some.inj hs
            exact iff_of_true (consistent_delete_other h hc hg (Ne.symm hp)) fun he => absurd he hp
  | processExit =>
      cases hc : scheduler.current with
      | none =>
          have he : step (.ok scheduler) .processExit = some (.ok scheduler) := by
            simp [step, Scheduler.call, processExit, currentProcess, hc, bind, Except.bind, pure,
              Except.pure]
          obtain rfl := Option.some.inj (he.symm.trans hs)
          exact iff_of_true h (Or.inl hc)
      | some id =>
          obtain ⟨process, hg, _⟩ := exists_deref (h.currentValid id hc)
          by_cases hl : 1 < scheduler.processes.length
          · refine iff_of_true ?_ (Or.inr hl)
            have hcons := (consistent_delete_current h hc hg).mpr hl
            obtain ⟨after, hafter, _⟩ := scheduler.processes.successor_mem (h.currentValid id hc)
            obtain ⟨result, hr, hspec⟩ := getNextTask_of_current hcons (by simp [hafter])
            simp only [step, Scheduler.call, processExit, currentProcess_eq hc hg,
              deleteProcess_current hc hg, hr, bind, Except.bind] at hs
            cases result with
            | none => cases hs
            | some last =>
                obtain rfl := Option.some.inj hs
                exact hspec last rfl
          · simp only [step, Scheduler.call, processExit_last h hc hl] at hs
            obtain rfl := Option.some.inj hs
            simp [Good, Allowed, hc, hl]
  | scheduleNext =>
      refine iff_of_true ?_ trivial
      obtain ⟨result, hr, hspec⟩ := scheduleNext_spec h
      simp only [step, Scheduler.call, hr] at hs
      cases result with
      | none => cases hs
      | some last =>
          obtain rfl := Option.some.inj hs
          exact (hspec last rfl).1
  | block semaphore =>
      refine iff_of_true ?_ trivial
      obtain ⟨last, hb, hcons⟩ := consistent_block h semaphore
      simp only [step, Scheduler.call, hb, Except.map] at hs
      obtain rfl := Option.some.inj hs
      exact hcons
  | unblockAll semaphore =>
      obtain rfl : .ok (scheduler.unblockAll semaphore) = next := Option.some.inj hs
      exact iff_of_true (consistent_unblockAll h semaphore) trivial

-- Whichever pid delete_process is called with next, it removes exactly the
-- process with that pid.
def DeletesExactly : Except Fault Scheduler → Prop
  | .error _ => True
  | .ok scheduler => ∀ pid next, scheduler.deleteProcess pid = .ok next →
      next.processes.values = scheduler.processes.values.filter fun process => process.pid ≠ pid

theorem deletesExactly_of_good {state : Except Fault Scheduler} (h : Good state) :
    DeletesExactly state := by
  cases state with
  | error fault => exact h.elim
  | ok scheduler =>
      intro pid next hd
      cases hc : scheduler.current with
      | none => simp [deleteProcess, hc, deref, bind, Except.bind] at hd
      | some id =>
          obtain ⟨process, hg, _⟩ := exists_deref (h.currentValid id hc)
          by_cases hp : pid = process.pid
          · rw [hp, deleteProcess_current hc hg] at hd
            obtain rfl := Except.ok.inj hd
            rw [hp]
            exact @values_eraseProcess
              { scheduler with current := scheduler.processes.successor id } h.pids_nodup process.pid
          · rw [deleteProcess_other hc hg hp] at hd
            obtain rfl := Except.ok.inj hd
            exact values_eraseProcess h.pids_nodup pid

theorem throughout_good_iff (calls : List Call) :
    Throughout step Good (.ok initial) calls ↔ Respects step Guarded (.ok initial) calls := by
  refine throughout_iff_respects Good (fun _ h => h) ?_ ?_ consistent_initial
  · intro state call next hgood hguard hs
    cases state with
    | error fault => exact hgood.elim
    | ok scheduler => exact (step_good_iff hgood hs).mpr hguard
  · intro state call next hgood hguard hs hn
    cases state with
    | error fault => exact hgood.elim
    | ok scheduler => exact hguard ((step_good_iff hgood hs).mp hn)

theorem consistent_iff_guarded (calls : List Call) :
    Throughout step (fun state => Good state ∧ DeletesExactly state) (.ok initial) calls ↔
      Respects step Guarded (.ok initial) calls := by
  rw [← throughout_good_iff]
  refine ⟨Throughout.mono fun _ h => h.1, Throughout.mono fun state h => ⟨h, ?_⟩⟩
  exact deletesExactly_of_good h

-- Deleting the only process while it is the current one leaves the iterator
-- to it behind, which process_exit then uses.
theorem delete_last_dangles :
    ¬Throughout step Good (.ok initial)
      [.createProcess 2048 0x20001000, .scheduleNext, .deleteProcess 1] ∧
    ¬Throughout step Good (.ok initial)
      [.createProcess 2048 0x20001000, .scheduleNext, .processExit] := by
  decide

end Calls

end Msos.Kernel.Scheduler
