import Mathlib.Tactic.Linarith
import Msos.Kernel.Scheduler.RoundRobin
import Msos.Library.Fallible

namespace Msos.Kernel

open Msos.Library Msos.Library.Machine

-- The scheduler with the SysTick handler: context_switch_period and last_time,
-- which the first tick initializes, in milliseconds.
structure TimeSlice where
  scheduler : Scheduler
  period : Int
  lastTime : Option Int

namespace TimeSlice

inductive Event
  | tick (time : Int)
  | yield
  | changePeriod (period : Int)
  | call (call : Scheduler.Call)
deriving DecidableEq, Repr

-- The handler of PendSV, which has the lowest priority and runs when the one
-- that has triggered it returns.
def storeAndSwitch (state : TimeSlice) : Except Fault (Option TimeSlice) :=
  state.scheduler.getNextTask.map (Option.map fun scheduler => { state with scheduler := scheduler })

def onEvent (state : TimeSlice) : Event → Except Fault (Option TimeSlice)
  | .tick time =>
      let lastTime := state.lastTime.getD time
      if state.period ≤ time - lastTime then
        storeAndSwitch { state with lastTime := some time }
      else .ok (some { state with lastTime := some lastTime })
  | .yield => state.storeAndSwitch
  | .changePeriod period => .ok (some { state with period := period })
  | .call call =>
      (state.scheduler.call call).map
        (Option.map fun scheduler => { state with scheduler := scheduler })

def step (state : TimeSlice) (event : Event) : Option TimeSlice :=
  match state.onEvent event with
  | .ok next => next
  | .error _ => none

-- The time of the last tick
def clock : Int → List Event → Int
  | now, [] => now
  | _, .tick time :: rest => clock time rest
  | now, _ :: rest => clock now rest

-- The ticks come in order, and none is later than the gap after the one before it.
def Steady (gap : Int) : Int → List Event → Prop
  | _, [] => True
  | now, .tick time :: rest => now ≤ time ∧ time ≤ now + gap ∧ Steady gap time rest
  | now, _ :: rest => Steady gap now rest

def created : List Event → Nat
  | [] => 0
  | .call (.createProcess _ _) :: rest => created rest + 1
  | _ :: rest => created rest

-- Processes leave by exits that keep the order.
def Ordered (state : TimeSlice) : Event → Prop
  | .call .processExit => Scheduler.OrderKept (.ok state.scheduler) .processExit
  | .call (.deleteProcess _) => False
  | _ => True

-- How many turns come before the one of a process
def waiting (scheduler : Scheduler) (id : Nat) : Nat :=
  match scheduler.current with
  | some current => (scheduler.processes.turns current).idxOf id
  | none => 0

-- What a running system keeps
structure Going (scheduler : Scheduler) : Prop where
  currentValid : scheduler.CurrentValid
  noneRunning : scheduler.NoneRunning
  started : scheduler.current ≠ none

section Switches

variable {scheduler after : Scheduler} {id current : Nat}

theorem waiting_eq (hc : scheduler.current = some current) :
    waiting scheduler id = (scheduler.processes.turns current).idxOf id := by
  rw [waiting, hc]

-- A switch comes nearer to a ready process that it does not select.
theorem getNextTask_waiting (hgoing : Going scheduler) (hready : scheduler.isReady id = true)
    (h : scheduler.getNextTask = .ok (some after)) (hnot : after.current ≠ some id) :
    Going after ∧ waiting after id < waiting scheduler id := by
  obtain ⟨current, hc⟩ := Option.ne_none_iff_exists'.mp hgoing.started
  have hm := hgoing.currentValid current hc
  rw [Scheduler.getNextTask_eq_find? hc hm hgoing.noneRunning] at h
  obtain ⟨selected, hfind, rfl⟩ := Option.map_eq_some_iff.mp (Except.ok.inj h)
  have hselected := scheduler.processes.mem_turns.mp (List.mem_of_find?_eq_some hfind)
  refine ⟨⟨?_, hgoing.noneRunning, nofun⟩, ?_⟩
  · intro other hother
    exact Option.some.inj hother ▸ hselected
  · have hne : id ≠ selected := fun he => hnot (by rw [he])
    rw [waiting_eq hc, @waiting_eq { scheduler with current := some selected } id selected rfl]
    exact Turns.idxOf_after_lt scheduler.processes.nodup_ids hselected hne
      (Turns.idxOf_le_of_find? hfind hready) (Scheduler.mem_ids_of_isReady hready)

theorem scheduleNext_waiting (hgoing : Going scheduler) (hready : scheduler.isReady id = true)
    (h : scheduler.scheduleNext = .ok (some after)) (hnot : after.current ≠ some id) :
    Going after ∧ waiting after id < waiting scheduler id := by
  obtain ⟨current, hc⟩ := Option.ne_none_iff_exists'.mp hgoing.started
  have hm := hgoing.currentValid current hc
  refine getNextTask_waiting hgoing hready ?_ hnot
  rw [Scheduler.getNextTask_eq_find? hc hm hgoing.noneRunning, ← h,
    Scheduler.scheduleNext_eq_find? hc hm hgoing.noneRunning]

-- An exit that keeps the order hands the processor on as a switch does.
theorem processExit_eq (hgoing : Going scheduler) (hc : scheduler.current = some current)
    (hkept : Scheduler.OrderKept (.ok scheduler) .processExit)
    (h : scheduler.processExit = .ok (some after)) :
    ∃ selected, selected ≠ current ∧
      (scheduler.processes.turns current).find? scheduler.isReady = some selected ∧
      after = { scheduler with
        current := some selected
        processes := scheduler.processes.eraseNode current } := by
  have hm := hgoing.currentValid current hc
  obtain ⟨process, hget, -⟩ := Scheduler.exists_deref hm
  have hkeeps := hkept current process hc hget
  obtain ⟨others, he⟩ := Turns.exists_after hm
  have hturns : scheduler.processes.turns current = others ++ [current] := he
  cases others with
  | nil =>
      rw [Scheduler.processExit_alone hc hget hkeeps.1 hturns] at h
      cases h
  | cons second rest =>
      obtain ⟨hfirst, hsame⟩ := (Scheduler.keepsOrder_iff hm process.pid hturns).mp hkeeps
      rw [Scheduler.processExit_eq_find? hc hget hgoing.noneRunning hfirst hturns, hsame] at h
      obtain ⟨selected, hfind, rfl⟩ := Option.map_eq_some_iff.mp (Except.ok.inj h)
      have hnodup := scheduler.processes.nodup_turns current
      rw [hturns] at hnodup
      have hselected := List.mem_of_find?_eq_some hfind
      refine ⟨selected, (List.nodup_append.mp hnodup).2.2 selected hselected current (by simp), ?_,
        rfl⟩
      rw [hturns, List.find?_append, hfind]
      rfl

theorem processExit_waiting (hgoing : Going scheduler) (hready : scheduler.isReady id = true)
    (hid : scheduler.current ≠ some id)
    (hkept : Scheduler.OrderKept (.ok scheduler) .processExit)
    (h : scheduler.processExit = .ok (some after)) (hnot : after.current ≠ some id) :
    Going after ∧ waiting after id < waiting scheduler id := by
  obtain ⟨current, hc⟩ := Option.ne_none_iff_exists'.mp hgoing.started
  obtain ⟨selected, hne, hfind, rfl⟩ := processExit_eq hgoing hc hkept h
  have hselected := scheduler.processes.mem_turns.mp (List.mem_of_find?_eq_some hfind)
  refine ⟨⟨?_, Scheduler.noneRunning_eraseNode hgoing.noneRunning _ current, nofun⟩, ?_⟩
  · intro other hother
    obtain rfl := Option.some.inj hother
    simp [hselected, hne]
  · have hother : id ≠ current := fun he => hid (by rw [hc, he])
    have hwait : id ≠ selected := fun he => hnot (by rw [he])
    have hlt := @Turns.idxOf_after_lt _ _ scheduler.processes.ids current id selected
      scheduler.processes.nodup_ids hselected hwait (Turns.idxOf_le_of_find? hfind hready)
      (Scheduler.mem_ids_of_isReady hready)
    have hle := @Turns.idxOf_filter_le _ _ (scheduler.processes.turns selected) id (· ≠ current)
      (by simpa using hother)
    rw [waiting_eq hc, @waiting_eq { scheduler with
      current := some selected
      processes := scheduler.processes.eraseNode current } id selected rfl,
      scheduler.processes.turns_eraseNode hselected hne]
    exact hle.trans_lt hlt

-- A call that leaves the nodes and the iterator lets everyone wait as before.
theorem waiting_of_same (hids : after.processes.ids = scheduler.processes.ids)
    (hc : after.current = scheduler.current) : waiting after id = waiting scheduler id := by
  rw [waiting, waiting, hc]
  cases scheduler.current with
  | none => rfl
  | some current => simp only [LinkedList.turns, hids]

theorem going_of_same (hgoing : Going scheduler) (hrun : after.NoneRunning)
    (hids : after.processes.ids = scheduler.processes.ids)
    (hc : after.current = scheduler.current) : Going after where
  currentValid := fun current h => by
    rw [hids]
    exact hgoing.currentValid current (hc ▸ h)
  noneRunning := hrun
  started := hc ▸ hgoing.started

theorem block_same {semaphore : Nat} (h : scheduler.block semaphore = .ok after) :
    after.processes.ids = scheduler.processes.ids ∧ after.current = scheduler.current := by
  unfold Scheduler.block at h
  split at h
  · obtain rfl := Except.ok.inj h
    exact ⟨rfl, rfl⟩
  · rename_i current hc
    cases hd : scheduler.deref (some current) with
    | error fault =>
        rw [hd] at h
        cases h
    | ok process =>
        rw [hd] at h
        obtain rfl := Except.ok.inj h
        exact ⟨LinkedList.ids_update .., rfl⟩

theorem call_waiting (hgoing : Going scheduler) (hready : scheduler.isReady id = true)
    (hid : scheduler.current ≠ some id) {call : Scheduler.Call}
    (hdelete : ∀ pid, call ≠ .deleteProcess pid)
    (hkept : call = .processExit → Scheduler.OrderKept (.ok scheduler) .processExit)
    (h : scheduler.call call = .ok (some after)) (hnot : after.current ≠ some id) :
    Going after ∧ waiting after id ≤ waiting scheduler id + created [.call call] := by
  have hrun := Scheduler.noneRunning_call hgoing.noneRunning h
  cases call with
  | createProcess stackSize stack =>
      obtain rfl := Option.some.inj (Except.ok.inj h)
      obtain ⟨current, hc⟩ := Option.ne_none_iff_exists'.mp hgoing.started
      have hm := hgoing.currentValid current hc
      refine ⟨⟨?_, hrun, hgoing.started⟩, ?_⟩
      · intro other hother
        simp only [Scheduler.createProcess, LinkedList.ids_pushBack, List.mem_append]
        exact Or.inl (hgoing.currentValid other hother)
      · rw [waiting_eq hc, @waiting_eq (scheduler.createProcess stackSize stack) id current hc]
        have hle := @Turns.idxOf_after_concat_le _ _ _ _ _ scheduler.processes.allocated hm
          (Scheduler.mem_ids_of_isReady hready)
        simpa [Scheduler.createProcess, LinkedList.turns, created] using hle
  | deleteProcess pid => exact absurd rfl (hdelete pid)
  | processExit =>
      obtain ⟨hafter, hlt⟩ := processExit_waiting hgoing hready hid (hkept rfl) h hnot
      exact ⟨hafter, by omega⟩
  | scheduleNext =>
      obtain ⟨hafter, hlt⟩ := scheduleNext_waiting hgoing hready h hnot
      exact ⟨hafter, by omega⟩
  | block semaphore =>
      obtain ⟨blocked, hb, hafter⟩ := Fallible.map_eq_ok.mp h
      obtain rfl := Option.some.inj hafter
      obtain ⟨hids, hc⟩ := block_same hb
      exact ⟨going_of_same hgoing hrun hids hc, (waiting_of_same hids hc).le⟩
  | unblockAll semaphore =>
      obtain rfl := Option.some.inj (Except.ok.inj h)
      have hids : (scheduler.unblockAll semaphore).processes.ids = scheduler.processes.ids :=
        LinkedList.ids_mapValues ..
      exact ⟨going_of_same hgoing hrun hids rfl, (waiting_of_same hids rfl).le⟩

end Switches

section Runs

variable {state next last : TimeSlice} {event : Event} {events : List Event} {id : Nat}
  {bound gap since now : Int}

theorem step_eq_some (h : state.step event = some next) : state.onEvent event = .ok (some next) := by
  unfold step at h
  split at h
  · rename_i result hresult
    rw [hresult, h]
  · cases h

theorem storeAndSwitch_eq_ok (h : state.storeAndSwitch = .ok (some next)) :
    ∃ scheduler, state.scheduler.getNextTask = .ok (some scheduler) ∧
      next = { state with scheduler := scheduler } := by
  obtain ⟨result, hresult, h⟩ := Fallible.map_eq_ok.mp h
  obtain ⟨scheduler, rfl, rfl⟩ := Option.map_eq_some_iff.mp h
  exact ⟨scheduler, hresult, rfl⟩

-- While a ready process is passed over, the time since the last switch stays
-- below the bound, and each turn that comes costs at most one slice.
structure Passed (bound : Int) (id : Nat) (since now : Int) (state : TimeSlice) : Prop where
  going : Going state.scheduler
  ready : state.scheduler.isReady id = true
  other : state.scheduler.current ≠ some id
  lastTime : state.lastTime = some since
  since_le : since ≤ now
  recent : now < since + bound
  period_le : state.period ≤ bound

-- The slices that are left for the processes before one that waits
def budget (bound gap since : Int) (turns : Nat) : Int := since + (turns + 1) * (bound + gap)

theorem budget_mono (hnonneg : 0 ≤ bound + gap) {turns more : Nat} (h : turns ≤ more) :
    budget bound gap since turns ≤ budget bound gap since more := by
  have hle : ((turns : Int) + 1) * (bound + gap) ≤ (more + 1) * (bound + gap) :=
    Int.mul_le_mul_of_nonneg_right (by omega) hnonneg
  unfold budget
  omega

-- A slice that ends pays for itself with the turn that it gives away.
theorem budget_slice (hnonneg : 0 ≤ bound + gap) {time : Int} {turns more : Nat}
    (htime : time ≤ since + bound + gap) (h : turns < more) :
    budget bound gap time turns ≤ budget bound gap since more := by
  have hle : ((turns : Int) + 1 + 1) * (bound + gap) ≤ (more + 1) * (bound + gap) :=
    Int.mul_le_mul_of_nonneg_right (by omega) hnonneg
  unfold budget
  linarith

theorem step_passed (hpassed : Passed bound id since now state) (hnonneg : 0 ≤ bound + gap)
    (hsteady : Steady gap now [event]) (hperiod : ∀ period, event = .changePeriod period →
      period ≤ bound)
    (hordered : state.Ordered event) (h : state.step event = some next)
    (hready : next.scheduler.isReady id = true) (hother : next.scheduler.current ≠ some id) :
    ∃ later, Passed bound id later (clock now [event]) next ∧
      budget bound gap later (waiting next.scheduler id) ≤
        budget bound gap since (waiting state.scheduler id + created [event]) := by
  have hevent := step_eq_some h
  cases event with
  | tick time =>
      obtain ⟨hnow, htime, -⟩ := hsteady
      rw [onEvent, hpassed.lastTime] at hevent
      simp only [Option.getD_some] at hevent
      split at hevent
      · rename_i hdue
        obtain ⟨scheduler, hnext, rfl⟩ := storeAndSwitch_eq_ok hevent
        obtain ⟨hgoing, hlt⟩ := getNextTask_waiting hpassed.going hpassed.ready hnext hother
        have hrecent := hpassed.recent
        have hsince := hpassed.since_le
        refine ⟨time, ⟨hgoing, hready, hother, rfl, le_refl _, ?_, hpassed.period_le⟩, ?_⟩
        · change time < time + bound
          omega
        · exact budget_slice hnonneg (by omega) hlt
      · rename_i hearly
        obtain rfl := Option.some.inj (Except.ok.inj hevent)
        have hle := hpassed.period_le
        refine ⟨since, ⟨hpassed.going, hready, hother, rfl, hpassed.since_le.trans hnow, ?_, hle⟩,
          le_refl _⟩
        change time < since + bound
        omega
  | yield =>
      obtain ⟨scheduler, hnext, rfl⟩ := storeAndSwitch_eq_ok hevent
      obtain ⟨hgoing, hlt⟩ := getNextTask_waiting hpassed.going hpassed.ready hnext hother
      exact ⟨since, ⟨hgoing, hready, hother, hpassed.lastTime, hpassed.since_le, hpassed.recent,
        hpassed.period_le⟩, budget_mono hnonneg hlt.le⟩
  | changePeriod period =>
      obtain rfl := Option.some.inj (Except.ok.inj hevent)
      exact ⟨since, ⟨hpassed.going, hready, hother, hpassed.lastTime, hpassed.since_le,
        hpassed.recent, hperiod period rfl⟩, le_refl _⟩
  | call call =>
      obtain ⟨result, hresult, hevent⟩ := Fallible.map_eq_ok.mp hevent
      obtain ⟨scheduler, rfl, rfl⟩ := Option.map_eq_some_iff.mp hevent
      obtain ⟨hgoing, hle⟩ := call_waiting hpassed.going hpassed.ready hpassed.other
        (fun pid he => by rw [he] at hordered; exact hordered)
        (fun he => by rw [he] at hordered; exact hordered) hresult hother
      exact ⟨since, ⟨hgoing, hready, hother, hpassed.lastTime, hpassed.since_le, hpassed.recent,
        hpassed.period_le⟩, budget_mono hnonneg hle⟩

theorem clock_cons (event : Event) (rest : List Event) :
    clock now (event :: rest) = clock (clock now [event]) rest := by
  cases event <;> rfl

theorem created_cons (event : Event) (rest : List Event) :
    created (event :: rest) = created [event] + created rest := by
  cases event with
  | call call =>
      cases call with
      | createProcess stackSize stack => exact Nat.add_comm ..
      | _ => exact (Nat.zero_add _).symm
  | _ => exact (Nat.zero_add _).symm

theorem steady_cons {rest : List Event} (h : Steady gap now (event :: rest)) :
    Steady gap now [event] ∧ Steady gap (clock now [event]) rest := by
  cases event with
  | tick time => exact ⟨⟨h.1, h.2.1, trivial⟩, h.2.2⟩
  | yield => exact ⟨trivial, h⟩
  | changePeriod period => exact ⟨trivial, h⟩
  | call call => exact ⟨trivial, h⟩

-- A ready process that is passed over all the time has not waited for long.
theorem clock_lt_budget (hpassed : Passed bound id since now state) (hgap : 0 ≤ gap)
    (hsteady : Steady gap now events)
    (hperiods : ∀ period, .changePeriod period ∈ events → period ≤ bound)
    (hready : Throughout step (fun state => state.scheduler.isReady id = true) state events)
    (hother : Throughout step (fun state => state.scheduler.current ≠ some id) state events)
    (hordered : Respects step Ordered state events) (hr : run step state events = some last) :
    clock now events < budget bound gap since (waiting state.scheduler id + created events) := by
  have hrecent := hpassed.recent
  have hsince := hpassed.since_le
  have hnonneg : 0 ≤ bound + gap := by omega
  induction events generalizing state since now with
  | nil =>
      have hone : budget bound gap since 0 ≤
          budget bound gap since (waiting state.scheduler id + created []) :=
        budget_mono hnonneg (Nat.zero_le _)
      have hslice : budget bound gap since 0 = since + (bound + gap) := by simp [budget]
      change now < _
      omega
  | cons event rest ih =>
      rw [run_cons, Option.bind_eq_some_iff] at hr
      obtain ⟨next, hs, hr⟩ := hr
      obtain ⟨hevent, hrest⟩ := steady_cons hsteady
      obtain ⟨hguard, hordered⟩ := hordered next hs
      have hreadyNext := hready.2 next hs
      have hotherNext := hother.2 next hs
      obtain ⟨later, hnext, hbudget⟩ := step_passed hpassed hnonneg hevent
        (fun period he => hperiods period (he ▸ List.mem_cons_self)) hguard hs
        hreadyNext.initial hotherNext.initial
      have hlt := ih hnext hrest (fun period hm => hperiods period (List.mem_cons_of_mem _ hm))
        hreadyNext hotherNext hordered hr hnext.recent hnext.since_le
      have hmore : budget bound gap later (waiting next.scheduler id + created rest) ≤
          budget bound gap since
            (waiting state.scheduler id + created [event] + created rest) := by
        unfold budget at hbudget ⊢
        push_cast at hbudget ⊢
        linarith
      rw [clock_cons, created_cons, ← Nat.add_assoc]
      exact hlt.trans_le hmore

-- A process that stays ready gets the processor within one slice, of the
-- longest period and the gap between two ticks, for itself and for each one
-- whose turn comes before, those that are created on the way included.
theorem selected_within (hgoing : Going state.scheduler) (hlast : state.lastTime = some since)
    (hsince : since ≤ now) (hrecent : now < since + bound) (hperiod : state.period ≤ bound)
    (hgap : 0 ≤ gap) (hsteady : Steady gap now events)
    (hperiods : ∀ period, .changePeriod period ∈ events → period ≤ bound)
    (hready : Throughout step (fun state => state.scheduler.isReady id = true) state events)
    (hordered : Respects step Ordered state events) (hr : run step state events = some last)
    (hlong : since + (waiting state.scheduler id + created events + 1) * (bound + gap) ≤
      clock now events) :
    ∃ first selected, first <+: events ∧ run step state first = some selected ∧
      selected.scheduler.current = some id := by
  by_contra hnever
  have hother : Throughout step (fun state => state.scheduler.current ≠ some id) state events := by
    rw [throughout_iff_prefixes]
    exact fun first hp selected hrun hc => hnever ⟨first, selected, hp, hrun, hc⟩
  have hpassed : Passed bound id since now state :=
    ⟨hgoing, hready.initial, hother.initial, hlast, hsince, hrecent, hperiod⟩
  have hlt := clock_lt_budget hpassed hgap hsteady hperiods hready hother hordered hr
  unfold budget at hlt
  push_cast at hlt
  omega

-- Three ready processes, and ticks that come as late as the slices are long.
def threeSliced : TimeSlice := ⟨Scheduler.threeReady, 20, some 0⟩

def lateTicks : List Event := [.tick 20, .tick 40, .yield, .tick 60, .tick 80]

theorem selected_within_lateTicks :
    ∃ first selected, first <+: lateTicks ∧ run step threeSliced first = some selected ∧
      selected.scheduler.current = some 2 := by
  have hready : Throughout step (fun state => state.scheduler.isReady 2 = true) threeSliced
      lateTicks := by decide
  have hordered : Respects step Ordered threeSliced lateTicks := fun _ _ => ⟨trivial, fun _ _ =>
    ⟨trivial, fun _ _ => ⟨trivial, fun _ _ => ⟨trivial, fun _ _ => ⟨trivial, trivial⟩⟩⟩⟩⟩
  have hgoing : Going threeSliced.scheduler := ⟨by decide, by decide, by decide⟩
  exact @selected_within threeSliced _ lateTicks 2 20 20 0 0 hgoing rfl (by decide) (by decide)
    (by decide) (by decide) (by simp [lateTicks, Steady]) (by simp [lateTicks]) hready hordered rfl
    (by decide)

end Runs

end TimeSlice

end Msos.Kernel
