import Msos.Kernel.Scheduler.Theorems

namespace Msos.Kernel.Scheduler

open Msos.Library Msos.Library.Machine

section Selection

variable {scheduler : Scheduler} {id : Nat}

-- The code assigns ready and blocked only.
def NoneRunning (scheduler : Scheduler) : Prop :=
  ∀ process ∈ scheduler.processes.values, process.state ≠ .running

def isReady (scheduler : Scheduler) (id : Nat) : Bool :=
  (scheduler.processes.get? id).any fun process => process.state = .ready

theorem isReady_eq {process : ArmProcess} (hg : scheduler.processes.get? id = some process) :
    scheduler.isReady id = decide (process.state = .ready) := by
  simp [isReady, hg]

theorem mem_ids_of_isReady (h : scheduler.isReady id = true) : id ∈ scheduler.processes.ids := by
  obtain ⟨process, hg, _⟩ := (Option.any_eq_true ..).mp h
  exact scheduler.processes.mem_ids_of_get? hg

-- What is left of the round is searched in its order.
theorem scheduleLoop_eq_find? (hrun : scheduler.NoneRunning) {passed left : List Nat}
    (h : scheduler.processes.turns id = passed ++ left) :
    scheduler.scheduleLoop left.length left.head? =
      .ok ((left.find? scheduler.isReady).map fun next => { scheduler with current := some next }) := by
  induction left generalizing scheduler passed with
  | nil => rfl
  | cons next left ih =>
      have hm : next ∈ scheduler.processes.ids := by
        rw [← @LinkedList.mem_turns _ scheduler.processes id, h]
        simp
      obtain ⟨process, hg, _⟩ := exists_deref hm
      have hstate := hrun process (scheduler.processes.mem_values_of_get? hg)
      rw [List.length_cons, List.head?_cons, scheduleLoop_succ _ hg,
        ite_cond_eq_false _ _ (eq_false hstate)]
      by_cases hready : process.state = .ready
      · simp [hready, isReady_eq hg]
      · rw [ite_cond_eq_false _ _ (eq_false hready), List.find?_cons_of_neg (by
          simp [isReady_eq hg, hready])]
        have hsplit : ({ scheduler with current := some next } : Scheduler).processes.turns id =
            (passed ++ [next]) ++ left := by
          rw [List.append_assoc]
          exact h
        have hloop := @ih { scheduler with current := some next } hrun _ hsplit
        cases left with
        | nil => rfl
        | cons second rest =>
            have hturns : scheduler.processes.turns next = second :: rest ++ passed ++ [next] :=
              Turns.after_of_after scheduler.processes.nodup_ids h
            rw [scheduler.processes.successor_eq_head? hm, hturns]
            exact hloop

theorem scheduleLoop_selects (hrun : scheduler.NoneRunning) {fuel : Nat} {next : Option Nat}
    {after : Scheduler} (h : scheduler.scheduleLoop fuel next = .ok (some after)) :
    ∃ id, after.current = some id ∧ after.isReady id = true := by
  induction fuel generalizing scheduler next with
  | zero => simp [scheduleLoop] at h
  | succ fuel ih =>
      cases next with
      | none => simp [scheduleLoop, deref, bind, Except.bind] at h
      | some next =>
          cases hg : scheduler.processes.get? next with
          | none => simp [scheduleLoop, deref, hg, bind, Except.bind] at h
          | some process =>
              have hstate := hrun process (scheduler.processes.mem_values_of_get? hg)
              rw [scheduleLoop_succ fuel hg, ite_cond_eq_false _ _ (eq_false hstate)] at h
              by_cases hready : process.state = .ready
              · rw [ite_cond_eq_true _ _ (eq_true hready)] at h
                obtain rfl := Option.some.inj (Except.ok.inj h)
                exact ⟨next, rfl, by simp [isReady, hg, hready]⟩
              · rw [ite_cond_eq_false _ _ (eq_false hready)] at h
                exact @ih { scheduler with current := some next } hrun _ h

-- Whenever schedule_next returns with a process in the list, a ready one is
-- current.
theorem scheduleNext_selects (hrun : scheduler.NoneRunning) {after : Scheduler}
    (h : scheduler.scheduleNext = .ok (some after)) (hne : after.processes.ids ≠ []) :
    ∃ id, after.current = some id ∧ after.isReady id = true := by
  unfold scheduleNext at h
  split at h
  · rename_i hnil
    obtain rfl := Option.some.inj (Except.ok.inj h)
    exact absurd (scheduler.processes.ids_eq_nil_iff.mpr hnil) hne
  · cases hn : scheduler.getNext with
    | error fault => simp [hn, bind, Except.bind] at h
    | ok next =>
        rw [hn] at h
        exact scheduleLoop_selects hrun h

theorem scheduleNext_eq_find? (hc : scheduler.current = some id)
    (hm : id ∈ scheduler.processes.ids) (hrun : scheduler.NoneRunning) :
    scheduler.scheduleNext =
      .ok (((scheduler.processes.turns id).find? scheduler.isReady).map fun next =>
        { scheduler with current := some next }) := by
  have hnodes : scheduler.processes.nodes ≠ [] := by
    intro h
    rw [scheduler.processes.ids_eq_nil_iff.mpr h] at hm
    exact List.not_mem_nil hm
  have hloop := @scheduleLoop_eq_find? _ id hrun _ _ (List.nil_append _).symm
  rw [scheduler.processes.length_turns, ← scheduler.processes.successor_eq_head? hm] at hloop
  simp only [scheduleNext, hnodes, ite_false, getNext_eq hc hm]
  exact hloop

theorem run_scheduleNext (hm : id ∈ scheduler.processes.ids) (hrun : scheduler.NoneRunning)
    {count next : Nat}
    (hs : Turns.selections scheduler.processes.ids scheduler.isReady count id = some next) :
    run step (.ok { scheduler with current := some id }) (List.replicate count .scheduleNext) =
      some (.ok { scheduler with current := some next }) := by
  induction count generalizing id with
  | zero =>
      obtain rfl : id = next := by simpa [Turns.selections] using hs
      rfl
  | succ count ih =>
      rw [Turns.selections, Option.bind_eq_some_iff] at hs
      obtain ⟨first, hf, hs⟩ := hs
      have hfirst : first ∈ scheduler.processes.ids :=
        scheduler.processes.mem_turns.mp (List.mem_of_find?_eq_some hf)
      have hn := @scheduleNext_eq_find? { scheduler with current := some id } id rfl hm hrun
      have hfind : (scheduler.processes.turns id).find?
          (isReady { scheduler with current := some id }) = some first := hf
      rw [hfind] at hn
      rw [List.replicate_succ, run_cons]
      simp only [step, Scheduler.call, hn, Option.map_some]
      exact ih hfirst hs

instance : Decidable scheduler.NoneRunning :=
  inferInstanceAs (Decidable (∀ process ∈ scheduler.processes.values, process.state ≠ .running))

-- The first of three processes is current.
def threeReady : Scheduler where
  processes := (((initial.createProcess 2048 0x20001000).createProcess 2048 0x20002000).createProcess
    2048 0x20003000).processes
  current := some 0
  pidCounter := 4

def secondBlocked : Scheduler :=
  { threeReady with
    processes := threeReady.processes.update 1 fun process => process.block 0x20000100 }

-- schedule_next selects the first ready process of the round that ends with
-- the current one, and repeating it goes through the ready ones in turn.
theorem scheduleNext_roundRobin (hc : scheduler.current = some id)
    (hm : id ∈ scheduler.processes.ids) (hrun : scheduler.NoneRunning)
    (hready : ∃ other, scheduler.isReady other = true) :
    (∃ next, (scheduler.processes.turns id).find? scheduler.isReady = some next ∧
      scheduler.scheduleNext = .ok (some { scheduler with current := some next })) ∧
    (scheduler.isReady id = true →
      ∃ order : List Nat, order.Perm (scheduler.processes.ids.filter scheduler.isReady) ∧
        order.getLast? = some id ∧
        ∀ count next, order[count]? = some next →
          run step (.ok scheduler) (List.replicate (count + 1) .scheduleNext) =
            some (.ok { scheduler with current := some next })) := by
  constructor
  · obtain ⟨other, ho⟩ := hready
    cases hf : (scheduler.processes.turns id).find? scheduler.isReady with
    | none =>
        have hother := (@LinkedList.mem_turns _ scheduler.processes id _).mpr (mem_ids_of_isReady ho)
        exact absurd ho (List.find?_eq_none.mp hf other hother)
    | some next =>
        refine ⟨next, rfl, ?_⟩
        rw [scheduleNext_eq_find? hc hm hrun, hf]
        rfl
  · intro hid
    refine ⟨(scheduler.processes.turns id).filter scheduler.isReady,
      (Turns.after_perm ..).filter _, ?_, fun count next hnext => ?_⟩
    · obtain ⟨others, he⟩ := Turns.exists_after hm
      simp [LinkedList.turns, he, List.filter_append, hid]
    · have hs := Turns.selections_eq scheduler.processes.nodup_ids hnext
      have hsame : scheduler = { scheduler with current := some id } := by rw [← hc]
      rw [hsame]
      exact run_scheduleNext hm hrun hs

theorem scheduleNext_passesBlocked :
    (∃ next, (secondBlocked.processes.turns 0).find? secondBlocked.isReady = some next ∧
      secondBlocked.scheduleNext = .ok (some { secondBlocked with current := some next })) ∧
    (secondBlocked.isReady 0 = true →
      ∃ order : List Nat, order.Perm (secondBlocked.processes.ids.filter secondBlocked.isReady) ∧
        order.getLast? = some 0 ∧
        ∀ count next, order[count]? = some next →
          run step (.ok secondBlocked) (List.replicate (count + 1) .scheduleNext) =
            some (.ok { secondBlocked with current := some next })) :=
  scheduleNext_roundRobin rfl (by decide) (by decide) ⟨2, by decide⟩

end Selection

section Frame

variable {scheduler : Scheduler} {process : ArmProcess}

theorem mem_values_of_eraseProcess {pid : Int}
    (hm : process ∈ (scheduler.eraseProcess pid).processes.values) :
    process ∈ scheduler.processes.values := by
  unfold eraseProcess at hm
  split at hm
  · exact scheduler.processes.mem_values_of_mem_eraseNode hm
  · exact hm

theorem mem_values_of_deleteProcess {pid : Int} {after : Scheduler}
    (hd : scheduler.deleteProcess pid = .ok after) (hm : process ∈ after.processes.values) :
    process ∈ scheduler.processes.values := by
  simp only [deleteProcess, bind, Except.bind, pure, Except.pure] at hd
  split at hd
  · simp at hd
  · split at hd
    · split at hd
      · simp at hd
      · rename_i next _
        obtain rfl := Except.ok.inj hd
        exact @mem_values_of_eraseProcess { scheduler with current := next } process pid hm
    · obtain rfl := Except.ok.inj hd
      exact mem_values_of_eraseProcess hm

theorem scheduleLoop_frame {fuel : Nat} {next : Option Nat} {after : Scheduler}
    (h : scheduler.scheduleLoop fuel next = .ok (some after)) :
    after.processes = scheduler.processes := by
  induction fuel generalizing scheduler next with
  | zero => simp [scheduleLoop] at h
  | succ fuel ih =>
      simp only [scheduleLoop, bind, Except.bind] at h
      split at h
      · simp at h
      · split at h
        · obtain rfl := Option.some.inj (Except.ok.inj h)
          rfl
        · split at h
          · obtain rfl := Option.some.inj (Except.ok.inj h)
            rfl
          · split at h
            · simp at h
            · exact @ih { scheduler with current := next } _ h

theorem scheduleNext_frame {after : Scheduler} (h : scheduler.scheduleNext = .ok (some after)) :
    after.processes = scheduler.processes := by
  unfold scheduleNext at h
  split at h
  · obtain rfl := Option.some.inj (Except.ok.inj h)
    rfl
  · simp only [bind, Except.bind] at h
    split at h
    · simp at h
    · exact scheduleLoop_frame h

theorem getNextTask_frame {after : Scheduler} (h : scheduler.getNextTask = .ok (some after)) :
    after.processes = scheduler.processes := by
  simp only [getNextTask, bind, Except.bind, pure, Except.pure] at h
  cases hn : scheduler.scheduleNext with
  | error fault => simp [hn] at h
  | ok result =>
      cases result with
      | none => simp [hn] at h
      | some selected =>
          rw [← scheduleNext_frame hn]
          cases hp : selected.currentProcess with
          | error fault => simp [hn, hp] at h
          | ok found =>
              cases found with
              | none => simp [hn, hp] at h
              | some process =>
                  simp only [hn, hp] at h
                  obtain rfl := Option.some.inj (Except.ok.inj h)
                  rfl

theorem mem_values_of_processExit {after : Scheduler}
    (h : scheduler.processExit = .ok (some after)) (hm : process ∈ after.processes.values) :
    process ∈ scheduler.processes.values := by
  cases hp : scheduler.currentProcess with
  | error fault => simp [processExit, hp, bind, Except.bind] at h
  | ok current =>
      cases current with
      | none =>
          simp only [processExit, hp, bind, Except.bind, pure, Except.pure] at h
          obtain rfl := Option.some.inj (Except.ok.inj h)
          exact hm
      | some exiting =>
          simp only [processExit, hp, bind, Except.bind] at h
          cases hd : scheduler.deleteProcess exiting.pid with
          | error fault => simp [hd] at h
          | ok next =>
              rw [hd] at h
              rw [getNextTask_frame h] at hm
              exact mem_values_of_deleteProcess hd hm

-- Only the process that the iterator points to can change its locks.
theorem mem_values_of_block {semaphore : Nat} {after : Scheduler}
    (h : scheduler.block semaphore = .ok after) (hm : process ∈ after.processes.values) :
    process ∈ scheduler.processes.values ∨
      ∃ old ∈ scheduler.processes.values, process = old.block semaphore := by
  cases hc : scheduler.current with
  | none =>
      simp only [block, hc] at h
      obtain rfl := Except.ok.inj h
      exact Or.inl hm
  | some id =>
      cases hd : scheduler.deref (some id) with
      | error fault => simp [block, hc, hd, Except.map] at h
      | ok found =>
          simp only [block, hc, hd, Except.map] at h
          obtain rfl := Except.ok.inj h
          exact scheduler.processes.mem_values_update hm

end Frame

section Exit

variable {scheduler : Scheduler} {id : Nat} {process : ArmProcess}

-- The node that delete_process removes.
def firstWith (scheduler : Scheduler) (pid : Int) : Option Nat :=
  (scheduler.processes.nodes.find? fun node => node.2.pid = pid).map Prod.fst

-- The exiting process leaves the list, and the first ready process after it
-- gets the processor.
def ExitsInOrder (scheduler : Scheduler) (id : Nat) : Prop :=
  ∃ next, ((scheduler.processes.turns id).filter (· ≠ id)).find? scheduler.isReady = some next ∧
    scheduler.processExit = .ok (some { scheduler with
      current := some next
      processes := scheduler.processes.eraseNode id })

-- No process before the exiting one has its pid, and the process right after
-- it is not ready, or is the only other ready one.
def KeepsOrder (scheduler : Scheduler) (id : Nat) (pid : Int) : Prop :=
  scheduler.firstWith pid = some id ∧
    ∀ next, scheduler.processes.successor id = some next → scheduler.isReady next = true →
      ∀ other ∈ scheduler.processes.ids, scheduler.isReady other = true → other = id ∨ other = next

theorem eraseProcess_of_firstWith {pid : Int} {erased : Nat}
    (h : scheduler.firstWith pid = some erased) :
    scheduler.eraseProcess pid =
      { scheduler with processes := scheduler.processes.eraseNode erased } := by
  obtain ⟨node, hf, rfl⟩ := Option.map_eq_some_iff.mp h
  simp only [eraseProcess, hf]

theorem exists_firstWith (hg : scheduler.processes.get? id = some process) :
    ∃ erased, scheduler.firstWith process.pid = some erased := by
  cases hf : scheduler.processes.nodes.find? fun node => node.2.pid = process.pid with
  | none =>
      have := List.find?_eq_none.mp hf _ (scheduler.processes.get?_eq_some_iff.mp hg)
      simp at this
  | some node => exact ⟨node.1, by simp [firstWith, hf]⟩

-- process_exit moves the iterator to the successor before the next task is
-- fetched from there.
theorem processExit_eq (hc : scheduler.current = some id)
    (hg : scheduler.processes.get? id = some process) {erased : Nat}
    (hf : scheduler.firstWith process.pid = some erased) :
    scheduler.processExit = getNextTask { scheduler with
      current := scheduler.processes.successor id
      processes := scheduler.processes.eraseNode erased } := by
  have he := @eraseProcess_of_firstWith
    { scheduler with current := scheduler.processes.successor id } process.pid erased hf
  simp only [processExit, currentProcess_eq hc hg, deleteProcess_current hc hg, he, bind, Except.bind]

theorem isReady_eraseNode {erased : Nat} (current : Option Nat) (hne : id ≠ erased) :
    isReady { scheduler with
      current := current
      processes := scheduler.processes.eraseNode erased } id = scheduler.isReady id := by
  simp [isReady, LinkedList.get?_eraseNode_of_ne _ hne]

theorem noneRunning_eraseNode (hrun : scheduler.NoneRunning) (current : Option Nat) (erased : Nat) :
    NoneRunning { scheduler with
      current := current
      processes := scheduler.processes.eraseNode erased } :=
  fun process hm => hrun process (scheduler.processes.mem_values_of_mem_eraseNode hm)

theorem getNextTask_eq_find? (hc : scheduler.current = some id)
    (hm : id ∈ scheduler.processes.ids) (hrun : scheduler.NoneRunning) :
    scheduler.getNextTask =
      .ok (((scheduler.processes.turns id).find? scheduler.isReady).map fun next =>
        { scheduler with current := some next }) := by
  simp only [getNextTask, scheduleNext_eq_find? hc hm hrun, bind, Except.bind, pure, Except.pure]
  cases hf : (scheduler.processes.turns id).find? scheduler.isReady with
  | none => rfl
  | some next =>
      have hnext := scheduler.processes.mem_turns.mp (List.mem_of_find?_eq_some hf)
      obtain ⟨process, hg, _⟩ := exists_deref hnext
      have hp := @currentProcess_eq { scheduler with current := some next } next process rfl hg
      simp only [Option.map_some, hp]

-- The process after the exiting one, where the search starts, is the last
-- that the search comes to.
theorem processExit_eq_find? (hc : scheduler.current = some id)
    (hg : scheduler.processes.get? id = some process) (hrun : scheduler.NoneRunning)
    (hf : scheduler.firstWith process.pid = some id) {second : Nat} {rest : List Nat}
    (ht : scheduler.processes.turns id = second :: rest ++ [id]) :
    scheduler.processExit =
      .ok (((rest ++ [second]).find? scheduler.isReady).map fun next => { scheduler with
        current := some next
        processes := scheduler.processes.eraseNode id }) := by
  have hnodup := scheduler.processes.nodup_turns id
  rw [ht] at hnodup
  have hm := scheduler.processes.mem_ids_of_get? hg
  have hsecond : second ∈ scheduler.processes.ids := by
    rw [← @LinkedList.mem_turns _ scheduler.processes id, ht]
    simp
  have hout : id ∉ second :: rest := by
    intro h
    exact (List.nodup_append.mp hnodup).2.2 id h id (by simp) rfl
  have hne : second ≠ id := fun h => hout (h ▸ List.mem_cons_self)
  have hsucc : scheduler.processes.successor id = some second := by
    rw [scheduler.processes.successor_eq_head? hm, ht]
    rfl
  have hround : (scheduler.processes.eraseNode id).turns second = rest ++ [second] := by
    have hturns : scheduler.processes.turns second = (rest ++ [id]) ++ [] ++ [second] :=
      Turns.after_of_after scheduler.processes.nodup_ids ht
    have hrest : ∀ other ∈ rest, other ≠ id := fun other ho h =>
      hout (h ▸ List.mem_cons_of_mem _ ho)
    rw [scheduler.processes.turns_eraseNode hsecond hne, hturns]
    simpa [List.filter_append, hne] using hrest
  have hvalid : second ∈ (scheduler.processes.eraseNode id).ids := by simp [hsecond, hne]
  rw [processExit_eq hc hg hf, hsucc,
    getNextTask_eq_find? rfl hvalid (noneRunning_eraseNode hrun (some second) id)]
  have hfind : (rest ++ [second]).find? (isReady { scheduler with
      current := some second
      processes := scheduler.processes.eraseNode id }) =
      (rest ++ [second]).find? scheduler.isReady := by
    rw [← List.head?_filter, ← List.head?_filter]
    congr 1
    apply List.filter_congr
    intro other ho
    apply isReady_eraseNode
    intro h
    rcases List.mem_append.mp ho with ho | ho
    · exact hout (List.mem_cons_of_mem _ (h ▸ ho))
    · exact hne (List.mem_singleton.mp ho ▸ h)
  have hturns : LinkedList.turns (scheduler.processes.eraseNode id) second = rest ++ [second] := hround
  simp only [hturns, hfind]

-- The round of a current process that has another process beside it.
theorem exists_turns (hm : id ∈ scheduler.processes.ids) {other : Nat}
    (ho : other ∈ scheduler.processes.ids) (hne : other ≠ id) :
    ∃ second rest, scheduler.processes.turns id = second :: rest ++ [id] := by
  obtain ⟨others, he⟩ := Turns.exists_after hm
  have hturns : scheduler.processes.turns id = others ++ [id] := he
  rw [← @LinkedList.mem_turns _ scheduler.processes id, hturns] at ho
  cases others with
  | nil => simp [hne] at ho
  | cons second rest => exact ⟨second, rest, hturns⟩

theorem keepsOrder_iff (hm : id ∈ scheduler.processes.ids) (pid : Int) {second : Nat}
    {rest : List Nat} (ht : scheduler.processes.turns id = second :: rest ++ [id]) :
    scheduler.KeepsOrder id pid ↔ scheduler.firstWith pid = some id ∧
      (rest ++ [second]).find? scheduler.isReady = (second :: rest).find? scheduler.isReady := by
  have hnodup := scheduler.processes.nodup_turns id
  rw [ht] at hnodup
  have hround := (List.nodup_append.mp hnodup).1
  have hsucc : scheduler.processes.successor id = some second := by
    rw [scheduler.processes.successor_eq_head? hm, ht]
    rfl
  rw [Turns.find?_concat_iff _ hround, KeepsOrder, hsucc]
  have hids : ∀ other, other ∈ scheduler.processes.ids ↔ other ∈ second :: rest ++ [id] := by
    intro other
    rw [← ht, scheduler.processes.mem_turns]
  refine and_congr_right fun _ => ⟨fun h hready other ho => ?_, fun h next hnext hready other ho hr => ?_⟩
  · by_contra hother
    rcases h second rfl hready other ((hids other).mpr (by simp [ho]))
      (by simpa using hother) with rfl | rfl
    · exact (List.nodup_append.mp hnodup).2.2 other (List.mem_cons_of_mem _ ho) other (by simp) rfl
    · exact (List.nodup_cons.mp hround).1 ho
  · obtain rfl := Option.some.inj hnext
    have hmem := (hids other).mp ho
    simp only [List.cons_append, List.mem_cons, List.mem_append, List.not_mem_nil, or_false] at hmem
    rcases hmem with rfl | hrest | rfl
    · exact Or.inr rfl
    · rw [h hready other hrest] at hr
      exact absurd hr Bool.false_ne_true
    · exact Or.inl rfl

theorem exitsInOrder_iff (hc : scheduler.current = some id)
    (hg : scheduler.processes.get? id = some process) (hrun : scheduler.NoneRunning)
    (hother : ∃ other, other ≠ id ∧ scheduler.isReady other = true) :
    scheduler.ExitsInOrder id ↔ scheduler.KeepsOrder id process.pid := by
  have hm := scheduler.processes.mem_ids_of_get? hg
  obtain ⟨other, hne, hready⟩ := hother
  obtain ⟨second, rest, ht⟩ := exists_turns hm (mem_ids_of_isReady hready) hne
  have hnodup := scheduler.processes.nodup_turns id
  have hothers : (scheduler.processes.turns id).filter (· ≠ id) = second :: rest := by
    rw [ht] at hnodup ⊢
    rw [List.filter_append, List.filter_eq_self.mpr]
    · simp
    · intro x hx
      simpa using (List.nodup_append.mp hnodup).2.2 x hx id (by simp)
  rw [keepsOrder_iff hm process.pid ht, ExitsInOrder, hothers]
  constructor
  · rintro ⟨next, hfind, hexit⟩
    obtain ⟨erased, hf⟩ := exists_firstWith hg
    have hframe := getNextTask_frame ((processExit_eq hc hg hf).symm.trans hexit)
    obtain rfl : erased = id := by
      by_contra hdiff
      have hin : id ∈ (scheduler.processes.eraseNode erased).ids := by
        simp [hm, Ne.symm hdiff]
      have hids := congrArg LinkedList.ids hframe
      simp only at hids
      rw [← hids, LinkedList.ids_eraseNode] at hin
      simp at hin
    refine ⟨hf, ?_⟩
    rw [processExit_eq_find? hc hg hrun hf ht] at hexit
    obtain ⟨found, hfound, he⟩ := Option.map_eq_some_iff.mp (Except.ok.inj hexit)
    have hcurrent : some found = some next := congrArg Scheduler.current he
    rw [hfound, hfind, hcurrent]
  · rintro ⟨hf, hsame⟩
    have hin : other ∈ second :: rest := by
      rw [← hothers]
      exact List.mem_filter.mpr ⟨scheduler.processes.mem_turns.mpr (mem_ids_of_isReady hready),
        by simpa using hne⟩
    obtain ⟨next, hfind⟩ := Option.isSome_iff_exists.mp (List.find?_isSome.mpr ⟨other, hin, hready⟩)
    refine ⟨next, hfind, ?_⟩
    rw [processExit_eq_find? hc hg hrun hf ht, hsame, hfind]
    rfl

-- Alone in the list, the exiting process leaves a dangling iterator behind.
theorem processExit_alone (hc : scheduler.current = some id)
    (hg : scheduler.processes.get? id = some process)
    (hf : scheduler.firstWith process.pid = some id)
    (ht : scheduler.processes.turns id = [id]) :
    scheduler.processExit = .error .danglingIterator := by
  have hsucc : scheduler.processes.successor id = some id := by
    rw [scheduler.processes.successor_eq_head? (scheduler.processes.mem_ids_of_get? hg), ht]
    rfl
  have honly : ∀ other ∈ scheduler.processes.ids, other = id := by
    intro other ho
    rw [← @LinkedList.mem_turns _ scheduler.processes id, ht, List.mem_singleton] at ho
    exact ho
  have hnil : (scheduler.processes.eraseNode id).ids = [] := by
    rw [LinkedList.ids_eraseNode, List.filter_eq_nil_iff]
    intro other ho
    simp [honly other ho]
  have hnone : (scheduler.processes.eraseNode id).get? id = none := by
    rw [LinkedList.get?_eq_none_iff, hnil]
    exact List.not_mem_nil
  have hn := @scheduleNext_of_nil
    { scheduler with current := some id, processes := scheduler.processes.eraseNode id } hnil
  have herased := @currentProcess_of_erased
    { scheduler with current := some id, processes := scheduler.processes.eraseNode id } id rfl hnone
  rw [processExit_eq hc hg hf, hsucc]
  simp only [getNextTask, hn, herased, bind, Except.bind]

end Exit

section Runs

-- No process that is ready before and after the step stands, in the round of
-- the old current process, before the one that gets the processor.
def InOrder : Except Fault Scheduler → Call → Except Fault Scheduler → Prop
  | .ok before, _, .ok after => ∀ id next other,
      before.current = some id → after.current = some next →
      before.isReady other = true → after.isReady other = true →
      (before.processes.turns id).idxOf next ≤ (before.processes.turns id).idxOf other
  | _, _, _ => True

-- The call is a switch, or an exit that keeps the order.
def OrderKept : Except Fault Scheduler → Call → Prop
  | .error _, _ => True
  | .ok _, .scheduleNext => True
  | .ok scheduler, .processExit => ∀ id process, scheduler.current = some id →
      scheduler.processes.get? id = some process → scheduler.KeepsOrder id process.pid
  | .ok _, _ => False

def Started : Except Fault Scheduler → Prop
  | .error _ => True
  | .ok scheduler => scheduler.CurrentValid ∧ scheduler.NoneRunning

variable {scheduler : Scheduler}

theorem scheduleNext_inOrder (hv : scheduler.CurrentValid) (hrun : scheduler.NoneRunning)
    {next : Except Fault Scheduler} (hs : step (.ok scheduler) .scheduleNext = some next) :
    Started next ∧ InOrder (.ok scheduler) .scheduleNext next := by
  cases hn : scheduler.scheduleNext with
  | error fault =>
      simp only [step, Scheduler.call, hn] at hs
      obtain rfl := Option.some.inj hs
      exact ⟨trivial, trivial⟩
  | ok result =>
      cases result with
      | none => simp [step, Scheduler.call, hn] at hs
      | some after =>
          simp only [step, Scheduler.call, hn] at hs
          obtain rfl := Option.some.inj hs
          have hframe := scheduleNext_frame hn
          refine ⟨⟨?_, by rw [NoneRunning, hframe]; exact hrun⟩, ?_⟩
          · by_cases hne : scheduler.processes.ids = []
            · rw [scheduleNext_of_nil hne] at hn
              obtain rfl := Option.some.inj (Except.ok.inj hn)
              exact hv
            · obtain ⟨result, hr, hspec⟩ := scheduleNext_of_ne_nil hv hne
              exact (hspec after (Except.ok.inj (hr.symm.trans hn))).currentValid hv
          · intro id selected other hc hsel hready _
            rw [scheduleNext_eq_find? hc (hv id hc) hrun] at hn
            obtain ⟨found, hf, rfl⟩ := Option.map_eq_some_iff.mp (Except.ok.inj hn)
            obtain rfl := Option.some.inj hsel
            exact Turns.idxOf_le_of_find? hf hready

theorem processExit_inOrder (hv : scheduler.CurrentValid) (hrun : scheduler.NoneRunning)
    (hg : OrderKept (.ok scheduler) .processExit)
    {next : Except Fault Scheduler} (hs : step (.ok scheduler) .processExit = some next) :
    Started next ∧ InOrder (.ok scheduler) .processExit next := by
  cases hc : scheduler.current with
  | none =>
      have he : step (.ok scheduler) .processExit = some (.ok scheduler) := by
        simp [step, Scheduler.call, processExit, currentProcess, hc, bind, Except.bind, pure,
          Except.pure]
      obtain rfl := Option.some.inj (he.symm.trans hs)
      exact ⟨⟨hv, hrun⟩, fun id next other hid => by simp [hc] at hid⟩
  | some id =>
      have hm := hv id hc
      obtain ⟨process, hget, _⟩ := exists_deref hm
      have hkeeps := hg id process hc hget
      obtain ⟨others, he⟩ := Turns.exists_after hm
      have hturns : scheduler.processes.turns id = others ++ [id] := he
      cases others with
      | nil =>
          simp only [step, Scheduler.call, processExit_alone hc hget hkeeps.1 hturns] at hs
          obtain rfl := Option.some.inj hs
          exact ⟨trivial, trivial⟩
      | cons second rest =>
          obtain ⟨hfirst, hsame⟩ := (keepsOrder_iff hm process.pid hturns).mp hkeeps
          have hexit := processExit_eq_find? hc hget hrun hfirst hturns
          rw [hsame] at hexit
          cases hf : (second :: rest).find? scheduler.isReady with
          | none => simp [step, Scheduler.call, hexit, hf] at hs
          | some selected =>
              rw [hf] at hexit
              simp only [step, Scheduler.call, hexit, Option.map_some] at hs
              obtain rfl := Option.some.inj hs
              have hnodup := scheduler.processes.nodup_turns id
              rw [hturns] at hnodup
              have hsel := List.mem_of_find?_eq_some hf
              have hne : selected ≠ id := (List.nodup_append.mp hnodup).2.2 selected hsel id (by simp)
              have hmem : selected ∈ scheduler.processes.ids := by
                rw [← @LinkedList.mem_turns _ scheduler.processes id, hturns]
                exact List.mem_append_left _ hsel
              refine ⟨⟨fun other ho => ?_, noneRunning_eraseNode hrun _ id⟩, ?_⟩
              · obtain rfl := Option.some.inj ho
                simp [hmem, hne]
              · intro current next other hcur hnext hready _
                obtain rfl := Option.some.inj (hc.symm.trans hcur)
                obtain rfl := Option.some.inj hnext
                have hround : (scheduler.processes.turns id).find? scheduler.isReady = some selected := by
                  rw [hturns, List.find?_append, hf]
                  rfl
                exact Turns.idxOf_le_of_find? hround hready

-- An exit hands the processor on in order exactly when it keeps the order, and
-- a run of switches and such exits passes no ready process over.
theorem exit_inOrder_iff (hv : scheduler.CurrentValid) (hrun : scheduler.NoneRunning) :
    (∀ id process, scheduler.current = some id → scheduler.processes.get? id = some process →
      (∃ other, other ≠ id ∧ scheduler.isReady other = true) →
        (scheduler.ExitsInOrder id ↔ scheduler.KeepsOrder id process.pid)) ∧
    ∀ calls, Respects step OrderKept (.ok scheduler) calls →
      Transitions step InOrder (.ok scheduler) calls := by
  refine ⟨fun id process hc hg hother => exitsInOrder_iff hc hg hrun hother, fun calls hr => ?_⟩
  refine transitions_of_respects Started (fun state call next hstarted hguard hs => ?_) ⟨hv, hrun⟩ hr
  cases state with
  | error fault => simp [step] at hs
  | ok before =>
      cases call with
      | scheduleNext => exact scheduleNext_inOrder hstarted.1 hstarted.2 hs
      | processExit => exact processExit_inOrder hstarted.1 hstarted.2 hguard hs
      | createProcess | deleteProcess | block | unblockAll => exact hguard.elim

theorem exit_inOrder_secondBlocked :
    (∀ id process, secondBlocked.current = some id →
      secondBlocked.processes.get? id = some process →
      (∃ other, other ≠ id ∧ secondBlocked.isReady other = true) →
        (secondBlocked.ExitsInOrder id ↔ secondBlocked.KeepsOrder id process.pid)) ∧
    ∀ calls, Respects step OrderKept (.ok secondBlocked) calls →
      Transitions step InOrder (.ok secondBlocked) calls :=
  exit_inOrder_iff (by decide) (by decide)

-- The first of three ready processes exits, and the third gets the processor.
theorem exit_skips_second :
    ¬threeReady.ExitsInOrder 0 ∧ ¬Transitions step InOrder (.ok threeReady) [.processExit] := by
  have hexit : threeReady.processExit.map (Option.map Scheduler.current) =
      .ok (some (some 2)) := by rfl
  constructor
  · rintro ⟨next, hfind, he⟩
    have hnext : ((threeReady.processes.turns 0).filter (· ≠ 0)).find? threeReady.isReady =
        some 1 := by decide
    rw [hfind] at hnext
    obtain rfl := Option.some.inj hnext
    rw [he] at hexit
    exact absurd hexit (by decide)
  · intro h
    have horder := (h _ rfl).1 0 2 1 rfl rfl (by decide) (by decide)
    exact absurd horder (by decide)

def NeverRunning : Except Fault Scheduler → Prop
  | .error _ => True
  | .ok scheduler => scheduler.NoneRunning

-- No call puts a process into the state running.
theorem noneRunning_call (hrun : scheduler.NoneRunning) {call : Call} {after : Scheduler}
    (h : scheduler.call call = .ok (some after)) : after.NoneRunning := by
  cases call with
  | createProcess stackSize stack =>
      obtain rfl := Option.some.inj (Except.ok.inj h)
      intro process hm
      simp only [createProcess, LinkedList.values_pushBack, List.mem_append, List.mem_singleton] at hm
      rcases hm with hm | rfl
      · exact hrun process hm
      · simp [ArmProcess.new]
  | deleteProcess pid =>
      cases hd : scheduler.deleteProcess pid with
      | error fault => simp [Scheduler.call, hd, Except.map] at h
      | ok next =>
          simp only [Scheduler.call, hd, Except.map] at h
          obtain rfl := Option.some.inj (Except.ok.inj h)
          intro process hm
          exact hrun process (mem_values_of_deleteProcess hd hm)
  | processExit =>
      intro process hm
      exact hrun process (mem_values_of_processExit h hm)
  | scheduleNext =>
      rw [NoneRunning, scheduleNext_frame h]
      exact hrun
  | block semaphore =>
      cases hb : scheduler.block semaphore with
      | error fault => simp [Scheduler.call, hb, Except.map] at h
      | ok next =>
          simp only [Scheduler.call, hb, Except.map] at h
          obtain rfl := Option.some.inj (Except.ok.inj h)
          intro process hm
          rcases mem_values_of_block hb hm with hm | ⟨old, _, rfl⟩
          · exact hrun process hm
          · simp
  | unblockAll semaphore =>
      obtain rfl := Option.some.inj (Except.ok.inj h)
      intro process hm
      simp only [unblockAll, LinkedList.values_mapValues, List.mem_map] at hm
      obtain ⟨old, ho, rfl⟩ := hm
      exact old.unblock_state_ne_running semaphore (hrun old ho)

theorem throughout_noneRunning (calls : List Call) :
    Throughout step NeverRunning (.ok initial) calls := by
  have hinit : NeverRunning (.ok initial) := by simp [NeverRunning, NoneRunning, initial]
  refine throughout_of_invariant NeverRunning (fun _ h => h) (fun state call next hinv hs => ?_)
    hinit calls
  cases state with
  | error fault => simp [step] at hs
  | ok before =>
      simp only [step] at hs
      split at hs
      · obtain rfl := Option.some.inj hs
        trivial
      · simp at hs
      · rename_i after hcall
        obtain rfl := Option.some.inj hs
        exact noneRunning_call hinv hcall

end Runs

end Msos.Kernel.Scheduler
