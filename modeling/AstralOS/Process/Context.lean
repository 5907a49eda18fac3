import AstralOS.Lib.X86
import AstralOS.Process.Table

/-!
# Switching to a process

The model of `process/context.rs` on the machine of `AstralOS.X86`: `context_switch` as its instructions, and
`switch_to_process` with its two ways into the new process, the `ret` at the end of `context_switch` when there is an
old process to save and an `iretq` frame when there is none.  Only the second loads the code segment of the new process
(`switch_privilege_iff`).
-/

namespace AstralOS.Proc

open X86 (Machine Reg Instr DescriptorTable)

/-- The segment selectors of `gdt.rs`. -/
def kernelCodeSelector : BitVec 16 := 0x08
def kernelDataSelector : BitVec 16 := 0x10
def userDataSelector : BitVec 16 := 0x18 ||| 3
def userCodeSelector : BitVec 16 := 0x20 ||| 3

/-- The access bytes of the global descriptor table of `gdt.rs`: null, kernel code and data, user data and code, and
the two halves of the task state descriptor. -/
def gdt : DescriptorTable
  | 0 => some 0x00
  | 1 => some 0x9A
  | 2 => some 0x92
  | 3 => some 0xF2
  | 4 => some 0xFA
  | 5 => some 0x89
  | 6 => some 0x00
  | _ => none

/-! ### Saved registers in memory -/

def storeRegs (m : ByteMem) (a : BitVec 64) (r : Registers) : ByteMem :=
  [r.r15, r.r14, r.r13, r.r12, r.rbx, r.rbp, r.r11, r.r10, r.r9, r.r8, r.rsi, r.rdi, r.rdx, r.rcx, r.rax, r.rip, r.cs,
    r.rflags, r.rsp, r.ss].zipIdx.foldl (fun m (v, i) => m.write64 (a + BitVec.ofNat 64 (8 * i)) v) m

def loadRegs (m : ByteMem) (a : BitVec 64) : Registers :=
  { r15 := m.read64 a, r14 := m.read64 (a + 0x08), r13 := m.read64 (a + 0x10), r12 := m.read64 (a + 0x18),
    rbx := m.read64 (a + 0x20), rbp := m.read64 (a + 0x28), r11 := m.read64 (a + 0x30), r10 := m.read64 (a + 0x38),
    r9 := m.read64 (a + 0x40), r8 := m.read64 (a + 0x48), rsi := m.read64 (a + 0x50), rdi := m.read64 (a + 0x58),
    rdx := m.read64 (a + 0x60), rcx := m.read64 (a + 0x68), rax := m.read64 (a + 0x70), rip := m.read64 (a + 0x78),
    cs := m.read64 (a + 0x80), rflags := m.read64 (a + 0x88), rsp := m.read64 (a + 0x90), ss := m.read64 (a + 0x98) }

def contextSwitch : List Instr :=
  [ -- save the old context
    .store .rdi 0x00 .r15, .store .rdi 0x08 .r14, .store .rdi 0x10 .r13, .store .rdi 0x18 .r12, .store .rdi 0x20 .rbx,
    .store .rdi 0x28 .rbp, .store .rdi 0x30 .r11, .store .rdi 0x38 .r10, .store .rdi 0x40 .r9, .store .rdi 0x48 .r8,
    .store .rdi 0x50 .rsi, .store .rdi 0x60 .rdx, .store .rdi 0x68 .rcx, .store .rdi 0x70 .rax,
    -- the return address, the stack pointer and the flags
    .load .rax .rsp 0, .store .rdi 0x78 .rax,
    .lea .rax .rsp 8, .store .rdi 0x90 .rax,
    .pushfq, .pop .rax, .store .rdi 0x88 .rax,
    .store .rdi 0x58 .rdi,
    -- restore the new context
    .load .r15 .rsi 0x00, .load .r14 .rsi 0x08, .load .r13 .rsi 0x10, .load .r12 .rsi 0x18, .load .rbx .rsi 0x20,
    .load .rbp .rsi 0x28, .load .r11 .rsi 0x30, .load .r10 .rsi 0x38, .load .r9 .rsi 0x40, .load .r8 .rsi 0x48,
    .load .rdi .rsi 0x58, .load .rdx .rsi 0x60, .load .rcx .rsi 0x68, .load .rax .rsi 0x70,
    .load .rsp .rsi 0x90,
    .pushMem .rsi 0x78, .pushMem .rsi 0x88, .popfq,
    .load .rsi .rsi 0x50, .ret ]

def firstSwitch (r : Registers) : List Instr :=
  [.movValue .rsp r.rsp, .pushValue r.ss, .pushValue r.rsp, .pushValue r.rflags, .pushValue r.cs, .pushValue r.rip,
    .movValue .rax r.rax, .iretq]

/-! ### The switch -/

/-- The state a switch works on: the process table, the current pid and the CPU. -/
structure Kernel where
  table : ProcessTable
  currentPid : Pid
  machine : Machine

/-- What becomes of a call of `switch_to_process`. -/
inductive SwitchResult
  /-- The process was current already and the call returned. -/
  | returned (k : Kernel)
  /-- Control has gone to the instruction pointer of the new process. -/
  | transferred (k : Kernel)
  /-- The process was not in the table. -/
  | panicked
  /-- The last instruction faulted. -/
  | faulted

def SwitchResult.machine : SwitchResult → Option Machine
  | .transferred k => some k.machine
  | _ => none

namespace Kernel

def getCurrentPid (k : Kernel) : Option Pid := if k.currentPid = 0 then none else some k.currentPid

/-- Enter the process from the old one: the records of both lie in memory, at `oldPtr` and `newPtr`, and
`context_switch` is called with their addresses. -/
def callContextSwitch (m : Machine) (oldPtr newPtr : BitVec 64) (old new : Registers) : Option Machine :=
  let m := { m with mem := storeRegs (storeRegs m.mem oldPtr old) newPtr new }
  let m := (m.setReg .rdi oldPtr).setReg .rsi newPtr
  X86.execAll gdt (m.push m.rip) contextSwitch

def loadPageTable (m : Machine) (pageTable : BitVec 64) : Machine :=
  if pageTable = 0 then m else { m with cr3 := pageTable }

def oldRegisters (k : Kernel) : Option (Pid × Registers) :=
  k.getCurrentPid.bind fun pid => (k.table.get pid).map fun proc => (pid, proc.registers)

/-- The end of `switch_to_process`, after the table is updated: load the page table, set the current pid and enter the
process, through `context_switch` if there is an old process and directly if not. -/
def enter (ptr : Nat → BitVec 64) (m : Machine) (table : ProcessTable) (new : Pid) (proc : Process) :
    Option (Pid × Registers) → SwitchResult
  | some (pid, registers) =>
    let oldPtr := ptr ((slotIndex pid table.processes).getD 0)
    let newPtr := ptr ((slotIndex new table.processes).getD 0)
    match callContextSwitch (loadPageTable m proc.pageTable) oldPtr newPtr registers proc.registers with
    | some m' => .transferred ⟨table.modify pid fun p => { p with registers := loadRegs m'.mem oldPtr }, new, m'⟩
    | none => .faulted
  | none =>
    match X86.execAll gdt (loadPageTable m proc.pageTable) (firstSwitch proc.registers) with
    | some m' => .transferred ⟨table, new, m'⟩
    | none => .faulted

/-- Switch to a process (`switch_to_process`); `ptr` gives the address of the registers in each slot of the table. -/
def switchToProcess (ptr : Nat → BitVec 64) (k : Kernel) (new : Pid) : SwitchResult :=
  if k.getCurrentPid = some new then .returned k
  else
    let table := k.table.leave k.getCurrentPid
    match table.get new with
    | some proc => enter ptr k.machine (table.setState new .running) new proc k.oldRegisters
    | none => .panicked

variable (ptr : Nat → BitVec 64) {k : Kernel} {p : Pid} {proc : Process}

@[simp] theorem cs_loadPageTable (m : Machine) (pageTable : BitVec 64) : (loadPageTable m pageTable).cs = m.cs := by
  unfold loadPageTable
  by_cases h : pageTable = 0
  · rw [if_pos h]
  · rw [if_neg h]

theorem callContextSwitch_cs (m : Machine) (oldPtr newPtr : BitVec 64) (old new : Registers) :
    ∃ m', callContextSwitch m oldPtr newPtr old new = some m' ∧ m'.cs = m.cs := by
  have hnot : Instr.iretq ∉ contextSwitch := by decide
  exact X86.execAll_of_not_mem_iretq gdt _ hnot

/-- The `iretq` of the first switch accepts the selectors of the record. -/
def iretLoads (cs : BitVec 16) (r : Registers) : Bool :=
  X86.codeLoadable gdt (X86.level cs) (r.cs.setWidth 16) &&
    X86.stackLoadable gdt (X86.level (r.cs.setWidth 16)) (r.ss.setWidth 16)

theorem execAll_firstSwitch (m : Machine) (r : Registers) :
    (iretLoads m.cs r = true ∧
      ∃ m', X86.execAll gdt m (firstSwitch r) = some m' ∧ m'.cs = r.cs.setWidth 16 ∧ m'.rip = r.rip) ∨
    (iretLoads m.cs r = false ∧ X86.execAll gdt m (firstSwitch r) = none) := by
  let m0 := m.setReg .rsp r.rsp
  let m1 := (((((m0.push r.ss).push r.rsp).push r.rflags).push r.cs).push r.rip).setReg .rax r.rax
  have hret := X86.exec_iretq_push gdt m0 m1 r.rip r.cs r.rflags r.rsp r.ss rfl rfl
  have hexec : X86.execAll gdt m (firstSwitch r) = (X86.exec gdt m1 .iretq).bind some := rfl
  rw [hexec, hret]
  have hcs : m1.cs = m.cs := rfl
  rw [hcs]
  by_cases hl : iretLoads m.cs r = true
  · simp [iretLoads]
  · simp [iretLoads]

section

variable (hget : k.table.get p = some proc)
include hget

theorem switchToProcess_eq (hne : k.getCurrentPid ≠ some p) :
    ∃ table, k.switchToProcess ptr p = enter ptr k.machine table p proc k.oldRegisters := by
  simpa [switchToProcess, hne, ProcessTable.get_leave_of_ne hne, hget] using ⟨_, rfl⟩

theorem switchToProcess_of_old (hne : k.getCurrentPid ≠ some p) {old : Process}
    (hold : k.getCurrentPid.bind k.table.get = some old) :
    ∃ k', k.switchToProcess ptr p = .transferred k' ∧ k'.machine.cs = k.machine.cs := by
  obtain ⟨pid, hpid, hpold⟩ := Option.bind_eq_some_iff.1 hold
  have hregs : k.oldRegisters = some (pid, old.registers) := by
    grind [oldRegisters, Option.bind_some]
  obtain ⟨table, heq⟩ := switchToProcess_eq ptr hget hne
  obtain ⟨m', hm', hcs⟩ := callContextSwitch_cs (loadPageTable k.machine proc.pageTable)
    (ptr ((slotIndex pid table.processes).getD 0)) (ptr ((slotIndex p table.processes).getD 0)) old.registers
    proc.registers
  simp_all [enter]

theorem switchToProcess_of_first (hne : k.getCurrentPid ≠ some p)
    (hold : k.getCurrentPid.bind k.table.get = none) :
    (iretLoads k.machine.cs proc.registers = true ∧
      ∃ k', k.switchToProcess ptr p = .transferred k' ∧ k'.machine.cs = proc.registers.cs.setWidth 16) ∨
    (iretLoads k.machine.cs proc.registers = false ∧ k.switchToProcess ptr p = .faulted) := by
  have hregs : k.oldRegisters = none := by
    unfold oldRegisters
    cases hcur : k.getCurrentPid with
    | none => rfl
    | some pid =>
      simp_all [Option.bind_some]
  obtain ⟨table, heq⟩ := switchToProcess_eq ptr hget hne
  rw [heq, hregs]
  simp only [enter]
  rcases execAll_firstSwitch (loadPageTable k.machine proc.pageTable) proc.registers with
    ⟨hl, m', hm', hcs, -⟩ | ⟨hl, hm'⟩
  · simp_all [cs_loadPageTable]
  · simp_all [cs_loadPageTable]

end

/-- Whenever a switch to the process transfers control, the CPU runs in the code segment of its record. -/
def RunsInOwnSegment (ptr : Nat → BitVec 64) (k : Kernel) (p : Pid) (proc : Process) : Prop :=
  ∀ k', k.switchToProcess ptr p = .transferred k' → k'.machine.cs.setWidth 64 = proc.registers.cs

/-- With a process to switch away from, the record must hold the code segment the CPU is in already; on the first
switch, a selector of 16 bits is enough. -/
def SegmentSuits (k : Kernel) (proc : Process) : Prop :=
  match k.getCurrentPid.bind k.table.get with
  | some _ => proc.registers.cs = k.machine.cs.setWidth 64
  | none => proc.registers.cs.toNat < 2 ^ 16 ∨ iretLoads k.machine.cs proc.registers = false

theorem setWidth_setWidth_iff (x : BitVec 64) : (x.setWidth 16).setWidth 64 = x ↔ x.toNat < 2 ^ 16 := by
  rw [← BitVec.toNat_inj, BitVec.toNat_setWidth, BitVec.toNat_setWidth]
  omega

/-- A switch runs the process in its own code segment exactly if the segment suits. -/
theorem switch_privilege_iff (ptr : Nat → BitVec 64) (k : Kernel) (p : Pid) (proc : Process)
    (hget : k.table.get p = some proc) (hne : k.getCurrentPid ≠ some p) :
    RunsInOwnSegment ptr k p proc ↔ SegmentSuits k proc := by
  unfold RunsInOwnSegment SegmentSuits
  cases hold : k.getCurrentPid.bind k.table.get with
  | some old =>
    obtain ⟨k', hk', hcs⟩ := switchToProcess_of_old ptr hget hne hold
    constructor
    · intro h
      rw [← h k' hk', hcs]
    · grind
  | none =>
    rcases switchToProcess_of_first ptr hget hne hold with ⟨hl, k', hk', hcs⟩ | ⟨hl, hk'⟩
    · simp [hcs, setWidth_setWidth_iff, hk', hl]
    · constructor
      · intro _
        exact Or.inr hl
      · simp [hk']

/-- A user process as `spawn_user_process` sets it up. -/
def userProcess : Process :=
  { Process.new 2 with
    registers := { Registers.new with
      rip := 0x401000, rsp := 0x7FFFFFE10000, cs := userCodeSelector.setWidth 64, ss := userDataSelector.setWidth 64 }
    isUserProcess := true }

def twoProcesses : ProcessTable :=
  ⟨some (.new 1) :: some userProcess :: List.replicate 254 none, 2, by
    rw [List.length_cons, List.length_cons, List.length_replicate]; rfl⟩

def kernelMachine : Machine :=
  { regs := fun r => if r = .rsp then 0xFFFFFFFF80200000 else 0, rip := 0xFFFFFFFF80100000, rflags := 0x202,
    cs := kernelCodeSelector, ss := kernelDataSelector, cr3 := 0, mem := fun _ => 0 }

/-- A kernel thread is current, on a CPU in the kernel's code segment. -/
def kernelThread : Kernel := ⟨twoProcesses, 1, kernelMachine⟩

def slotPtr (slot : Nat) : BitVec 64 := 0xFFFFFFFF80300000 + BitVec.ofNat 64 (512 * slot)

/-- Before any process has run, the user process is entered in its own segment. -/
theorem switch_privilege_iff_first :
    (⟨twoProcesses, 0, kernelMachine⟩ : Kernel).table.get 2 = some userProcess ∧
      RunsInOwnSegment slotPtr ⟨twoProcesses, 0, kernelMachine⟩ 2 userProcess := by
  have hget : (⟨twoProcesses, 0, kernelMachine⟩ : Kernel).table.get 2 = some userProcess := by decide +kernel
  refine ⟨hget, (switch_privilege_iff slotPtr ⟨twoProcesses, 0, kernelMachine⟩ 2 userProcess hget (by decide)).2 ?_⟩
  exact Or.inl (by decide)

/-- Switched to from the kernel thread, the user process starts at its entry point in the kernel's code segment. -/
theorem switch_enters_user_in_ring0 :
    kernelThread.table.get 2 = some userProcess ∧ kernelThread.getCurrentPid ≠ some 2 ∧
      ∃ k', kernelThread.switchToProcess slotPtr 2 = .transferred k' ∧ k'.machine.rip = userProcess.registers.rip ∧
        k'.machine.cs.setWidth 64 ≠ userProcess.registers.cs := by
  have hget : kernelThread.table.get 2 = some userProcess := by decide +kernel
  have hrip : (kernelThread.switchToProcess slotPtr 2).machine.map (fun m => (m.rip, m.cs)) =
      some (0x401000, kernelCodeSelector) := by decide +kernel
  refine ⟨hget, by decide, ?_⟩
  cases hres : kernelThread.switchToProcess slotPtr 2 with
  | transferred k' =>
    rw [hres] at hrip
    simp only [SwitchResult.machine, Option.map_some, Option.some.injEq, Prod.mk.injEq] at hrip
    refine ⟨k', rfl, hrip.1, ?_⟩
    rw [hrip.2]
    decide
  | returned _ | panicked | faulted =>
    rw [hres] at hrip
    cases hrip

end Kernel

end AstralOS.Proc
