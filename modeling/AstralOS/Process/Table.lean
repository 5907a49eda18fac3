import Mathlib.Data.BitVec

/-!
# Processes and the process table

The model of `process/mod.rs`: the process record with its saved registers, and the table of at most
`MAX_PROCESSES` processes, searched from the first slot on.  `get_modify` says what an update of one process through
`get_mut` does to the lookups of all of them.
-/

namespace AstralOS.Proc

/-- A process number (`Pid`); `0` stands for none where a plain number is stored. -/
abbrev Pid := BitVec 64

instance : LawfulBEq Pid := inferInstance

inductive ProcessState
  | ready
  | running
  | blocked
  | zombie
  deriving DecidableEq

/-- The states in which a process may be given the CPU. -/
def ProcessState.Runnable (s : ProcessState) : Prop := s ≠ .blocked ∧ s ≠ .zombie

instance (s : ProcessState) : Decidable s.Runnable := inferInstanceAs (Decidable (_ ∧ _))

/-- The saved registers of a process, in the order of the record (`Registers`). -/
structure Registers where
  r15 : BitVec 64
  r14 : BitVec 64
  r13 : BitVec 64
  r12 : BitVec 64
  rbx : BitVec 64
  rbp : BitVec 64
  r11 : BitVec 64
  r10 : BitVec 64
  r9 : BitVec 64
  r8 : BitVec 64
  rsi : BitVec 64
  rdi : BitVec 64
  rdx : BitVec 64
  rcx : BitVec 64
  rax : BitVec 64
  rip : BitVec 64
  cs : BitVec 64
  rflags : BitVec 64
  rsp : BitVec 64
  ss : BitVec 64
  deriving DecidableEq

def Registers.new : Registers :=
  { r15 := 0, r14 := 0, r13 := 0, r12 := 0, rbx := 0, rbp := 0, r11 := 0, r10 := 0, r9 := 0, r8 := 0, rsi := 0,
    rdi := 0, rdx := 0, rcx := 0, rax := 0, rip := 0, cs := 0x08, rflags := 0x202, rsp := 0, ss := 0x10 }

/-- The priority classes, highest first (`PriorityClass`). -/
inductive PriorityClass
  | realTime
  | interactive
  | normal
  | background
  | dream
  deriving DecidableEq

instance neZero_five : NeZero 5 := ⟨by decide⟩

/-- The index of a priority class in the run queues (`priority as usize`). -/
def PriorityClass.index : PriorityClass → Fin 5
  | .realTime => 0
  | .interactive => 1
  | .normal => 2
  | .background => 3
  | .dream => 4

inductive ProcessIntent
  | none
  | compute
  | ioWait
  | memoryIntensive
  | network
  | graphics
  | fileSystem
  | realityBranch
  | interactive
  deriving DecidableEq

structure Process where
  pid : Pid
  uid : BitVec 32
  state : ProcessState
  registers : Registers
  pageTable : BitVec 64
  kernelStack : BitVec 64
  userStack : BitVec 64
  isUserProcess : Bool
  heapStart : BitVec 64
  heapEnd : BitVec 64
  mmapBase : BitVec 64
  priority : PriorityClass
  intent : ProcessIntent
  cpuAffinity : BitVec 64
  timeSlice : BitVec 64
  waitReason : BitVec 64
  deriving DecidableEq

def Process.new (pid : Pid) : Process :=
  { pid, uid := 0, state := .ready, registers := .new, pageTable := 0, kernelStack := 0, userStack := 0,
    isUserProcess := false, heapStart := 0, heapEnd := 0, mmapBase := 0, priority := .normal, intent := .none,
    cpuAffinity := 0, timeSlice := 10, waitReason := 0 }

def maxProcesses : Nat := 256

/-! ### Slots -/

def findSlot (pid : Pid) : List (Option Process) → Option Process
  | [] => none
  | none :: ss => findSlot pid ss
  | some p :: ss => if p.pid = pid then some p else findSlot pid ss

def slotIndex (pid : Pid) : List (Option Process) → Option Nat
  | [] => none
  | none :: ss => (slotIndex pid ss).map (· + 1)
  | some p :: ss => if p.pid = pid then some 0 else (slotIndex pid ss).map (· + 1)

def modifySlot (pid : Pid) (f : Process → Process) : List (Option Process) → List (Option Process)
  | [] => []
  | none :: ss => none :: modifySlot pid f ss
  | some p :: ss => if p.pid = pid then some (f p) :: ss else some p :: modifySlot pid f ss

def fillSlot (process : Process) : List (Option Process) → Option (List (Option Process))
  | [] => none
  | none :: ss => some (some process :: ss)
  | some p :: ss => (fillSlot process ss).map (some p :: ·)

theorem length_modifySlot (pid : Pid) (f : Process → Process) (ss : List (Option Process)) :
    (modifySlot pid f ss).length = ss.length := by
  induction ss with
  | nil => rfl
  | cons s ss ih =>
    cases s with
    | none => simp [modifySlot, ih]
    | some p => by_cases h : p.pid = pid <;> simp [modifySlot, h, ih]

theorem length_fillSlot {process : Process} {ss ss' : List (Option Process)} (h : fillSlot process ss = some ss') :
    ss'.length = ss.length := by
  induction ss generalizing ss' with
  | nil => cases h
  | cons s ss ih =>
    cases s with
    | none =>
      cases h
      rfl
    | some p =>
      grind [fillSlot, Option.map_eq_some_iff]

theorem findSlot_modifySlot {pid : Pid} {f : Process → Process} (hf : ∀ p, (f p).pid = p.pid)
    (ss : List (Option Process)) (q : Pid) :
    findSlot q (modifySlot pid f ss) = if q = pid then (findSlot q ss).map f else findSlot q ss := by
  induction ss with
  | nil => by_cases hq : q = pid <;> simp [modifySlot, findSlot, hq]
  | cons s ss ih =>
    cases s with
    | none => exact ih
    | some p =>
      by_cases hp : p.pid = pid
      · -- the first process with the number: it is the one changed and the one found
        have hfp : (f p).pid = pid := (hf p).trans hp
        rw [modifySlot, if_pos hp, findSlot, findSlot, hfp, hp]
        by_cases hq : pid = q
        · grind
        · rw [if_neg hq, if_neg hq, if_neg fun h => hq h.symm]
      · rw [modifySlot, if_neg hp, findSlot, findSlot]
        by_cases hpq : p.pid = q
        · rw [if_pos hpq, if_pos hpq, if_neg fun h => hp (hpq.trans h)]
        · simp [hpq]
          omega

/-! ### The table -/

structure ProcessTable where
  processes : List (Option Process)
  count : Nat
  length_eq : processes.length = maxProcesses

namespace ProcessTable

def new : ProcessTable := ⟨List.replicate maxProcesses none, 0, List.length_replicate⟩

def get (t : ProcessTable) (pid : Pid) : Option Process := findSlot pid t.processes

def modify (t : ProcessTable) (pid : Pid) (f : Process → Process) : ProcessTable :=
  { t with
    processes := modifySlot pid f t.processes
    length_eq := (length_modifySlot pid f t.processes).trans t.length_eq }

def add (t : ProcessTable) (process : Process) : Except String ProcessTable :=
  match h : fillSlot process t.processes with
  | some ss => .ok ⟨ss, t.count + 1, (length_fillSlot h).trans t.length_eq⟩
  | none => .error "Process table full"

theorem get_modify {t : ProcessTable} {pid : Pid} {f : Process → Process} (hf : ∀ p, (f p).pid = p.pid) (q : Pid) :
    (t.modify pid f).get q = if q = pid then (t.get q).map f else t.get q :=
  findSlot_modifySlot hf t.processes q

def setState (t : ProcessTable) (pid : Pid) (state : ProcessState) : ProcessTable :=
  t.modify pid fun p => { p with state }

def leave (t : ProcessTable) : Option Pid → ProcessTable
  | some current => t.setState current .ready
  | none => t

theorem get_leave_of_ne {t : ProcessTable} {current : Option Pid} {pid : Pid} (h : current ≠ some pid) :
    (t.leave current).get pid = t.get pid := by
  cases current with
  | none => rfl
  | some cur =>
    have hne : pid ≠ cur := fun heq => h (by rw [heq])
    unfold leave setState
    rw [get_modify (by intro _; rfl), if_neg hne]

end ProcessTable

end AstralOS.Proc
