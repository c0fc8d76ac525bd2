import Msos.Kernel.ContextSwitch

namespace Msos.DynamicLinker.CallExternal

open Msos.Kernel Msos.Library Msos.Library.Memory

-- The registers of the running process, with psp as sp, and the memory.
structure Cpu where
  registers : Registers
  memory : Memory

namespace Cpu

variable (cpu : Cpu)

def push (words : List Word) : Cpu where
  registers := { cpu.registers with psp := cpu.registers.psp - 4 * words.length }
  memory := cpu.memory.storeWords (cpu.registers.psp - 4 * words.length) words

-- pop {r9, pc}
def popR9Pc : Cpu :=
  let words := cpu.memory.loadWords cpu.registers.psp 2
  { cpu with registers := { cpu.registers with
      r9 := words.getD 0 0
      pc := words.getD 1 0
      psp := cpu.registers.psp + 8 } }

-- blx, with the address behind it
def branch (target behind : Word) : Cpu :=
  { cpu with registers := { cpu.registers with lr := behind, pc := target } }

end Cpu

inductive Routine
  | callExternal
  | callExternalWithArgs
deriving DecidableEq, Repr

namespace Routine

def lot : Routine → Registers → Word
  | .callExternal, registers => registers.r1
  | .callExternalWithArgs, registers => registers.r3

def address : Routine → Registers → Word
  | .callExternal, registers => registers.r0
  | .callExternalWithArgs, registers => registers.r2

-- push {r9, lr}; mov r9, lot; blx address
def enter (routine : Routine) (behind : Word) (cpu : Cpu) : Cpu :=
  let cpu := cpu.push [cpu.registers.r9, cpu.registers.lr]
  let cpu := { cpu with registers := { cpu.registers with r9 := routine.lot cpu.registers } }
  cpu.branch (routine.address cpu.registers) behind

theorem r9_enter (routine : Routine) (behind : Word) (cpu : Cpu) :
    (routine.enter behind cpu).registers.r9 = routine.lot cpu.registers := by
  cases routine
  · rfl
  · rfl

end Routine

-- Code of the system, or of a module with the address of its lookup table
inductive Code
  | host
  | module (lot : Word)
deriving DecidableEq, Repr

def calleeSaved (registers : Registers) : List Word :=
  [registers.r4, registers.r5, registers.r6, registers.r7, registers.r8, registers.r10,
    registers.r11]

-- What instructions of a function that was entered with a stack pointer do: they
-- leave the frames of its callers alone, and in a module they do not write r9.
structure Computes (bottom : Nat) (code : Code) (entry : Nat) (before after : Cpu) : Prop where
  frames : ∀ address, entry ≤ address → address < bottom →
    after.memory address = before.memory address
  psp : after.registers.psp ≤ entry
  r9 : code ≠ .host → after.registers.r9 = before.registers.r9

-- What a function does when it returns: code of the system has saved r9.
structure Returns (code : Code) (entry before after : Cpu) : Prop where
  pc : after.registers.pc = entry.registers.lr
  psp : after.registers.psp = entry.registers.psp
  saved : calleeSaved after.registers = calleeSaved entry.registers
  r9 : after.registers.r9 = if code = .host then entry.registers.r9 else before.registers.r9
  memory : after.memory = before.memory

-- A function has come from its entry to a state, on a stack that ends at a
-- bottom; the log has r9 behind each stretch of instructions.
inductive Runs (bottom : Nat) : Code → Cpu → Cpu → List (Code × Word) → Prop
  | entered (code : Code) (cpu : Cpu) : Runs bottom code cpu cpu []
  | compute {code : Code} {entry before after : Cpu} {log : List (Code × Word)}
      (h : Runs bottom code entry before log)
      (hcompute : Computes bottom code entry.registers.psp before after) :
      Runs bottom code entry after (log ++ [(code, after.registers.r9)])
  -- A module calls the system through its table, and its own functions.
  | call {code callee : Code} {entry before inside after : Cpu} {log inner : List (Code × Word)}
      {target behind : Word} (hcallee : callee = .host ∨ callee = code)
      (h : Runs bottom code entry before log)
      (hinside : Runs bottom callee (before.branch target behind) inside inner)
      (hreturn : Returns callee (before.branch target behind) inside after) :
      Runs bottom code entry after (log ++ inner)
  -- The system executes a module.
  | exec {entry before inside after : Cpu} {log inner : List (Code × Word)} {routine : Routine}
      {behind : Word} (hroom : 8 ≤ before.registers.psp) (h : Runs bottom .host entry before log)
      (hinside : Runs bottom (.module (routine.lot before.registers)) (routine.enter behind before) inside
        inner)
      (hreturn : Returns (.module (routine.lot before.registers)) (routine.enter behind before) inside
        after) :
      Runs bottom .host entry after.popR9Pc (log ++ inner)

section Frames

variable {bottom : Nat} {code : Code} {entry before inside after cpu : Cpu} {routine : Routine}
  {log inner : List (Code × Word)} {behind : Word}

-- What a function keeps on its way
structure Kept (bottom : Nat) (code : Code) (entry cpu : Cpu) : Prop where
  psp : cpu.registers.psp ≤ entry.registers.psp
  frames : ∀ address, entry.registers.psp ≤ address → address < bottom →
    cpu.memory address = entry.memory address
  r9 : code ≠ .host → cpu.registers.r9 = entry.registers.r9

theorem enter_outside (hroom : 8 ≤ before.registers.psp) {address : Nat}
    (h : before.registers.psp ≤ address) :
    (routine.enter behind before).memory address = before.memory address := by
  apply storeWords_outside
  right
  simp only [List.length_cons, List.length_nil]
  omega

-- Behind a module the words that the routine has pushed are where they were.
theorem popR9Pc_of_kept (hroom : 8 ≤ before.registers.psp)
    (hbottom : before.registers.psp ≤ bottom)
    (hkept : Kept bottom (.module (routine.lot before.registers)) (routine.enter behind before) inside)
    (hreturn : Returns (.module (routine.lot before.registers)) (routine.enter behind before) inside
      after) :
    after.popR9Pc.registers.r9 = before.registers.r9 ∧
      after.popR9Pc.registers.pc = before.registers.lr ∧
      after.popR9Pc.registers.psp = before.registers.psp := by
  have hpsp : after.registers.psp = before.registers.psp - 8 := hreturn.psp
  have hwords : after.memory.loadWords after.registers.psp 2 =
      [before.registers.r9, before.registers.lr] := by
    rw [hpsp, hreturn.memory]
    refine loadWords_eq before.memory [before.registers.r9, before.registers.lr] fun i hi => ?_
    simp only [List.length_cons, List.length_nil] at hi
    exact hkept.frames _ (Nat.le_add_right _ i) (by omega)
  refine ⟨?_, ?_, ?_⟩
  · rw [Cpu.popR9Pc, hwords]
    rfl
  · rw [Cpu.popR9Pc, hwords]
    rfl
  · rw [Cpu.popR9Pc]
    simp only
    omega

theorem Runs.kept (h : Runs bottom code entry cpu log) (hbottom : entry.registers.psp ≤ bottom) :
    Kept bottom code entry cpu := by
  induction h with
  | entered code cpu => exact ⟨Nat.le_refl _, fun _ _ _ => rfl, fun _ => rfl⟩
  | compute _ hcompute ih =>
      have hkept := ih hbottom
      exact ⟨hcompute.psp, fun address hl hb =>
        (hcompute.frames address hl hb).trans (hkept.frames address hl hb), fun hcode =>
        (hcompute.r9 hcode).trans (hkept.r9 hcode)⟩
  | call hcallee _ _ hreturn ih ihinside =>
      have hkept := ih hbottom
      have hinside := ihinside (hkept.psp.trans hbottom)
      refine ⟨?_, ?_, ?_⟩
      · rw [hreturn.psp]
        exact hkept.psp
      · intro address hl hb
        rw [hreturn.memory, hinside.frames address (hkept.psp.trans hl) hb]
        exact hkept.frames address hl hb
      · intro hcode
        rw [hreturn.r9]
        split
        · exact hkept.r9 hcode
        · rename_i hne
          exact (hinside.r9 hne).trans (hkept.r9 hcode)
  | @exec entry before inside after _ _ routine behind hroom _ _ hreturn ih ihinside =>
      have hkept := ih hbottom
      have hbelow : before.registers.psp ≤ bottom := hkept.psp.trans hbottom
      have hinside := ihinside ((Nat.sub_le _ _).trans hbelow)
      obtain ⟨-, -, hpsp⟩ := popR9Pc_of_kept hroom hbelow hinside hreturn
      refine ⟨hpsp.trans_le hkept.psp, ?_, fun hne => absurd rfl hne⟩
      intro address hl hb
      have houter : before.registers.psp ≤ address := hkept.psp.trans hl
      have hframe : inside.memory address = (routine.enter behind before).memory address :=
        hinside.frames address ((Nat.sub_le _ _).trans houter) hb
      rw [Cpu.popR9Pc, hreturn.memory, hframe, enter_outside hroom houter]
      exact hkept.frames address hl hb

-- Every module finds the address of its own lookup table in r9, however deep
-- the system and modules call each other.
theorem Runs.proper (h : Runs bottom code entry cpu log)
    (hbottom : entry.registers.psp ≤ bottom)
    (hentry : ∀ lot, code = .module lot → entry.registers.r9 = lot) :
    ∀ item ∈ log, ∀ lot, item.1 = .module lot → item.2 = lot := by
  induction h with
  | entered code cpu => exact nofun
  | @compute code entry before after log h hcompute ih =>
      intro item hm lot hlot
      rcases List.mem_append.mp hm with hm | hm
      · exact ih hbottom hentry item hm lot hlot
      · obtain rfl := List.mem_singleton.mp hm
        have hcode : code ≠ .host := by
          rintro rfl
          cases hlot
        have hkept := h.kept hbottom
        exact ((hcompute.r9 hcode).trans (hkept.r9 hcode)).trans (hentry lot hlot)
  | @call code callee entry before inside after log inner target behind hcallee h _ _ ih ihinside =>
      intro item hm lot hlot
      have hkept := h.kept hbottom
      rcases List.mem_append.mp hm with hm | hm
      · exact ih hbottom hentry item hm lot hlot
      · refine ihinside (hkept.psp.trans hbottom) ?_ item hm lot hlot
        intro other hother
        rcases hcallee with rfl | rfl
        · cases hother
        · have hne : callee ≠ .host := by
            rintro rfl
            cases hother
          exact (hkept.r9 hne).trans (hentry other hother)
  | @exec entry before inside after log inner routine behind _ h _ _ ih ihinside =>
      intro item hm lot hlot
      rcases List.mem_append.mp hm with hm | hm
      · exact ih hbottom hentry item hm lot hlot
      · have hbelow := (h.kept hbottom).psp.trans hbottom
        refine ihinside ((Nat.sub_le _ _).trans hbelow) ?_ item hm lot hlot
        intro other hother
        exact (routine.r9_enter behind before).trans (Code.module.inj hother)

end Frames

section Executions

variable {bottom : Nat} {entry before inside after cpu : Cpu} {routine : Routine}
  {log inner : List (Code × Word)} {behind : Word}

-- In every nest of executions the instructions of a module run with the address
-- of its own lookup table in r9; and an execution that the system starts comes
-- back to the caller with r9, the stack pointer and the saved registers of the
-- call, and with the result of the module.
theorem executes_with_lot (hbottom : entry.registers.psp ≤ bottom)
    (hroom : 8 ≤ before.registers.psp) (h : Runs bottom .host entry before log)
    (hinside : Runs bottom (.module (routine.lot before.registers)) (routine.enter behind before) inside
      inner)
    (hreturn : Returns (.module (routine.lot before.registers)) (routine.enter behind before) inside
      after) :
    (∀ item ∈ log ++ inner, ∀ lot, item.1 = .module lot → item.2 = lot) ∧
      after.popR9Pc.registers.r9 = before.registers.r9 ∧
      after.popR9Pc.registers.pc = before.registers.lr ∧
      after.popR9Pc.registers.psp = before.registers.psp ∧
      calleeSaved after.popR9Pc.registers = calleeSaved before.registers ∧
      after.popR9Pc.registers.r0 = after.registers.r0 ∧
      ∀ address, before.registers.psp ≤ address → address < bottom →
        after.popR9Pc.memory address = before.memory address := by
  have hbelow : before.registers.psp ≤ bottom := (h.kept hbottom).psp.trans hbottom
  have hkept := hinside.kept ((Nat.sub_le _ _).trans hbelow)
  obtain ⟨hr9, hpc, hpsp⟩ := popR9Pc_of_kept hroom hbelow hkept hreturn
  refine ⟨?_, hr9, hpc, hpsp, hreturn.saved, rfl, ?_⟩
  · exact (Runs.exec hroom h hinside hreturn).proper hbottom nofun
  · intro address hl hb
    have hframe := hkept.frames address ((Nat.sub_le _ _).trans hl) hb
    rw [Cpu.popR9Pc, hreturn.memory, hframe, enter_outside hroom hl]

-- A module calls the system, which executes a second one with arguments.
def caller : Cpu where
  registers := ⟨0x2001, 0x500, 0, 0, 4, 5, 6, 7, 8, 9, 10, 11, 12, 0x101, 0, 0, 0x1000⟩
  memory := fun _ => 0

def returned (entry before : Cpu) : Cpu :=
  { before with registers := { before.registers with pc := entry.registers.lr } }

def first : Cpu := Routine.callExternal.enter 0x111 caller

def called : Cpu := first.branch 0x4001 0x223

def prepared : Cpu :=
  { called with registers := { called.registers with r2 := 0x3001, r3 := 0x600 } }

def second : Cpu := Routine.callExternalWithArgs.enter 0x333 prepared

def resumed : Cpu := returned called (returned second second).popR9Pc

theorem executes_with_lot_nested :
    (∀ item ∈ [] ++ [(Code.module 0x500, first.registers.r9), (.host, prepared.registers.r9),
        (.module 0x600, second.registers.r9), (.module 0x500, resumed.registers.r9)],
      ∀ lot, item.1 = Code.module lot → item.2 = lot) ∧
      (returned first resumed).popR9Pc.registers.r9 = caller.registers.r9 ∧
      (returned first resumed).popR9Pc.registers.pc = caller.registers.lr ∧
      (returned first resumed).popR9Pc.registers.psp = caller.registers.psp ∧
      calleeSaved (returned first resumed).popR9Pc.registers = calleeSaved caller.registers ∧
      (returned first resumed).popR9Pc.registers.r0 = (returned first resumed).registers.r0 ∧
      ∀ address, caller.registers.psp ≤ address → address < 0x1000 →
        (returned first resumed).popR9Pc.memory address = caller.memory address := by
  have hstill : ∀ code cpu, Computes 0x1000 code cpu.registers.psp cpu cpu := fun _ _ =>
    ⟨fun _ _ _ => rfl, Nat.le_refl _, fun _ => rfl⟩
  have hfirst : Runs 0x1000 (.module 0x500) first first [(.module 0x500, first.registers.r9)] :=
    (Runs.entered (.module 0x500) first).compute (hstill _ first)
  have hprepared : Runs 0x1000 .host called prepared [(.host, prepared.registers.r9)] :=
    (Runs.entered .host called).compute ⟨fun _ _ _ => rfl, Nat.le_refl _, fun h => absurd rfl h⟩
  have hsecond : Runs 0x1000 (.module 0x600) second second
      [(.module 0x600, second.registers.r9)] :=
    (Runs.entered (.module 0x600) second).compute (hstill _ second)
  have hcalled : Runs 0x1000 .host called (returned second second).popR9Pc
      [(.host, prepared.registers.r9), (.module 0x600, second.registers.r9)] :=
    @Runs.exec 0x1000 called prepared second _ _ _ .callExternalWithArgs 0x333 (by decide)
      hprepared hsecond ⟨rfl, rfl, rfl, rfl, rfl⟩
  have hreturns : Returns .host called (returned second second).popR9Pc resumed :=
    ⟨rfl, by decide, rfl, by decide, rfl⟩
  have hresumed : Runs 0x1000 (.module 0x500) first resumed
      [(.module 0x500, first.registers.r9), (.host, prepared.registers.r9),
        (.module 0x600, second.registers.r9), (.module 0x500, resumed.registers.r9)] :=
    (Runs.call (Or.inl rfl) hfirst hcalled hreturns).compute
      ⟨fun _ _ _ => rfl, by decide, fun _ => rfl⟩
  exact @executes_with_lot 0x1000 caller caller resumed (returned first resumed) .callExternal []
    _ 0x111 (by decide) (by decide) (Runs.entered .host caller) hresumed
    ⟨rfl, by decide, rfl, rfl, rfl⟩

end Executions

end Msos.DynamicLinker.CallExternal
