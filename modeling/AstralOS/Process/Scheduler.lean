import AstralOS.Process.Table

/-!
# The scheduler

The model of `process/scheduler.rs` and of the calls that change what it may pick: `switch_to_process`, `exit_process`
and the wait queues of `ipc/mod.rs`.  A call in progress is a `Task`, the place it has reached with its local values;
one step of a task is one section under a lock (the outermost one, where locks nest) or one access to the global
current pid.  `Sys.step` interleaves the calls in progress in any order.
-/

open Function

namespace AstralOS.Proc

/-! ### Run queues -/

structure PriorityQueue where
  queue : List Pid
  active : Bool
  deriving DecidableEq

namespace PriorityQueue

def new : PriorityQueue := ⟨[], false⟩

/-- Append a pid that is not in the queue yet (`push`). -/
def push (q : PriorityQueue) (pid : Pid) : PriorityQueue :=
  if pid ∈ q.queue then q else ⟨q.queue ++ [pid], true⟩

def pop (q : PriorityQueue) : Option Pid × PriorityQueue :=
  let rest := q.queue.tail
  (q.queue.head?, ⟨rest, if rest.isEmpty then false else q.active⟩)

def remove (q : PriorityQueue) (pid : Pid) : PriorityQueue :=
  let rest := q.queue.filter (· != pid)
  ⟨rest, if rest.isEmpty then false else q.active⟩

end PriorityQueue

structure CpuScheduler where
  queues : Fin 5 → PriorityQueue
  activeBitmap : BitVec 8
  current : Option Pid
  timeSlice : BitVec 64
  contextSwitches : Nat
  idleTicks : Nat

def trailingZeros (b : BitVec 8) : Nat := ((List.range 8).find? fun i => b.getLsbD i).getD 8

namespace CpuScheduler

def new : CpuScheduler :=
  { queues := fun _ => .new, activeBitmap := 0, current := none, timeSlice := 0, contextSwitches := 0, idleTicks := 0 }

def enqueue (s : CpuScheduler) (pid : Pid) (priority : PriorityClass) : CpuScheduler :=
  { s with
    queues := update s.queues priority.index ((s.queues priority.index).push pid)
    activeBitmap := s.activeBitmap ||| (1#8 <<< priority.index.val) }

/-- Remove a process from one queue: the body of the loop of `dequeue`. -/
def dequeueAt (pid : Pid) (s : CpuScheduler) (idx : Fin 5) : CpuScheduler :=
  let queue := (s.queues idx).remove pid
  { s with
    queues := update s.queues idx queue
    activeBitmap := if queue.queue.isEmpty then s.activeBitmap &&& ~~~(1#8 <<< idx.val) else s.activeBitmap }

def dequeue (s : CpuScheduler) (pid : Pid) : CpuScheduler := (List.finRange 5).foldl (dequeueAt pid) s

/-- Take the first process of the highest class that has one (`pick_next`); the dream class only when the system is
idle. -/
def pickNext (s : CpuScheduler) (systemIdle : Bool) : Option Pid × CpuScheduler :=
  if s.activeBitmap = 0 then (none, s)
  else if h : trailingZeros s.activeBitmap < 5 then
    let highest : Fin 5 := ⟨trailingZeros s.activeBitmap, h⟩
    if highest = PriorityClass.dream.index ∧ systemIdle = false then (none, s)
    else
      let (pid, queue) := (s.queues highest).pop
      match pid with
      | some pid =>
        (some pid,
          { s with
            queues := update s.queues highest queue
            activeBitmap := if queue.queue.isEmpty then s.activeBitmap &&& ~~~(1#8 <<< highest.val) else s.activeBitmap })
      | none => (none, { s with queues := update s.queues highest queue })
  else (none, s)

def totalLoad (s : CpuScheduler) : Nat := ((List.finRange 5).map fun i => (s.queues i).queue.length).sum

end CpuScheduler

/-! ### Calls in progress -/

/-- A call in progress: the section it takes next, with its local values. -/
inductive Task
  /-- `switch_to_process`, before it reads the current pid. -/
  | switchLoad (new : Pid)
  /-- `switch_to_process`, before it locks the table. -/
  | switchMark (current : Option Pid) (new : Pid)
  /-- `switch_to_process`, before it stores the current pid. -/
  | switchSet (new : Pid)
  /-- `yield_cpu`, before it reads the current pid. -/
  | yieldLoad (cpu : Nat)
  /-- `yield_cpu`, before it locks the scheduler. -/
  | yieldEnqueue (cpu : Nat) (pid : Pid)
  /-- `exit_process`, before it reads the current pid. -/
  | exitLoad (cpu : Nat)
  /-- `exit_process`, before it locks the table. -/
  | exitMark (cpu : Nat) (pid : Pid)
  /-- `WaitQueue::wait`, before it locks the waiters. -/
  | waitPush (cpu : Nat) (queue : Nat) (pid : Pid)
  /-- `WaitQueue::wait`, before it locks the table. -/
  | waitBlock (cpu : Nat) (pid : Pid)
  /-- `WaitQueue::wake_one`, before it locks the waiters. -/
  | wakePop (queue : Nat)
  /-- `WaitQueue::wake_all`, before it locks the waiters. -/
  | wakeDrain (queue : Nat)
  /-- `wake_one` or `wake_all`, before it locks the table. -/
  | wakeReady (pids : List Pid)
  /-- `add_to_scheduler`, before it reads the load of `cpu`. -/
  | addLoad (pid : Pid) (priority : PriorityClass) (cpu minLoad target : Nat)
  /-- `add_to_scheduler`, before it reads the affinity. -/
  | addAffinity (pid : Pid) (priority : PriorityClass) (target : Nat)
  /-- `add_to_scheduler`, before it locks the chosen scheduler. -/
  | addEnqueue (pid : Pid) (priority : PriorityClass) (target : Nat)
  /-- `remove_from_scheduler`, before it locks the scheduler of `cpu`. -/
  | removeFrom (pid : Pid) (cpu : Nat)
  deriving DecidableEq

/-- The global state the calls share, and the calls in progress. -/
structure Sys where
  table : ProcessTable
  currentPid : Pid
  sched : Nat → CpuScheduler
  cpuCount : Nat
  idleTicks : Nat
  systemIdle : Bool
  waiters : Nat → List Pid
  tasks : List Task
  panicked : Bool

def waitReasonIpcRecv : BitVec 64 := 2

namespace Sys

/-- The system at boot: a process table, empty run queues and wait queues, no call in progress. -/
def boot (table : ProcessTable) (cpuCount : Nat) : Sys :=
  { table, currentPid := 0, sched := fun _ => .new, cpuCount, idleTicks := 0, systemIdle := false,
    waiters := fun _ => [], tasks := [], panicked := false }

def getCurrentPid (s : Sys) : Option Pid := if s.currentPid = 0 then none else some s.currentPid

def setSched (s : Sys) (cpu : Nat) (sched : CpuScheduler) : Sys := { s with sched := update s.sched cpu sched }

def requeueCurrent (table : ProcessTable) (sched : CpuScheduler) : CpuScheduler :=
  match sched.current with
  | some current =>
    match table.get current with
    | some proc =>
      if proc.state = ProcessState.running ∨ proc.state = ProcessState.ready then sched.enqueue current proc.priority
      else sched
    | none => sched
  | none => sched

/-- The part of `schedule` after the time slice has run out: queue the current process again and pick the next. -/
def reschedule (s : Sys) (cpu : Nat) (sched : CpuScheduler) : Option Pid × Sys :=
  let (next, sched) := (requeueCurrent s.table sched).pickNext s.systemIdle
  match next.bind s.table.get with
  | some proc =>
    let sched :=
      { sched with current := next, timeSlice := proc.timeSlice, contextSwitches := sched.contextSwitches + 1 }
    (next, { s.setSched cpu sched with idleTicks := 0, systemIdle := false })
  | none =>
    let sched := { sched with idleTicks := sched.idleTicks + 1, current := none }
    (none,
      { s.setSched cpu sched with
        idleTicks := s.idleTicks + 1
        systemIdle := if s.idleTicks > 100 then true else s.systemIdle })

def schedule (s : Sys) (cpu : Nat) : Option Pid × Sys :=
  let sched := s.sched cpu
  if sched.timeSlice > 0 then
    let sched := { sched with timeSlice := sched.timeSlice - 1 }
    match sched.current.bind s.table.get with
    | some proc =>
      if sched.timeSlice > 0 ∧ proc.state = .running then (sched.current, s.setSched cpu sched)
      else s.reschedule cpu sched
    | none => s.reschedule cpu sched
  else s.reschedule cpu sched

def dequeueAll (s : Sys) (pid : Pid) : Sys :=
  (List.range s.cpuCount).foldl (fun s cpu => s.setSched cpu ((s.sched cpu).dequeue pid)) s

/-- The CPU `add_to_scheduler` chooses for a process with an affinity mask. -/
def affinityCpu (s : Sys) (affinity : BitVec 64) : Option Nat :=
  (List.range s.cpuCount).find? fun cpu => affinity &&& (1#64 <<< (cpu % 64)) != 0#64

/-- One section of a call in progress, with what is left of the call. -/
def advance (s : Sys) : Task → Sys × Option Task
  | .switchLoad new =>
    if s.getCurrentPid = some new then (s, none) else (s, some (.switchMark s.getCurrentPid new))
  | .switchMark current new =>
    let table := s.table.leave current
    match table.get new with
    | some _ => ({ s with table := table.setState new .running }, some (.switchSet new))
    | none => ({ s with table, panicked := true }, none)
  | .switchSet new => ({ s with currentPid := new }, none)
  | .yieldLoad cpu =>
    match s.getCurrentPid with
    | some pid => (s, some (.yieldEnqueue cpu pid))
    | none => (s, none)
  | .yieldEnqueue cpu pid =>
    let sched := { s.sched cpu with timeSlice := 0 }
    match s.table.get pid with
    | some proc => (s.setSched cpu (sched.enqueue pid proc.priority), none)
    | none => (s.setSched cpu sched, none)
  | .exitLoad cpu =>
    match s.getCurrentPid with
    | some pid => (s, some (.exitMark cpu pid))
    | none => (s, none)
  | .exitMark cpu pid =>
    match s.table.get pid with
    | some _ => ({ s with table := s.table.setState pid .zombie }.dequeueAll pid, some (.yieldLoad cpu))
    | none => (s, some (.yieldLoad cpu))
  | .waitPush cpu queue pid =>
    ({ s with waiters := update s.waiters queue (s.waiters queue ++ [pid]) }, some (.waitBlock cpu pid))
  | .waitBlock cpu pid =>
    ({ s with table := s.table.modify pid fun p => { p with state := .blocked, waitReason := waitReasonIpcRecv } },
      some (.yieldLoad cpu))
  | .wakePop queue =>
    match s.waiters queue with
    | [] => (s, none)
    | pid :: rest => ({ s with waiters := update s.waiters queue rest }, some (.wakeReady [pid]))
  | .wakeDrain queue =>
    ({ s with waiters := update s.waiters queue [] }, some (.wakeReady (s.waiters queue)))
  | .wakeReady pids =>
    ({ s with
        table := pids.foldl (fun t pid => t.modify pid fun p => { p with state := .ready, waitReason := 0 }) s.table },
      none)
  | .addLoad pid priority cpu minLoad target =>
    if cpu < s.cpuCount then
      let load := (s.sched cpu).totalLoad
      if load < minLoad then (s, some (.addLoad pid priority (cpu + 1) load cpu))
      else (s, some (.addLoad pid priority (cpu + 1) minLoad target))
    else (s, some (.addAffinity pid priority target))
  | .addAffinity pid priority target =>
    match s.table.get pid with
    | some proc =>
      if proc.cpuAffinity = 0 then (s, some (.addEnqueue pid priority target))
      else (s, some (.addEnqueue pid priority ((s.affinityCpu proc.cpuAffinity).getD target)))
    | none => (s, some (.addEnqueue pid priority target))
  | .addEnqueue pid priority target => (s.setSched target ((s.sched target).enqueue pid priority), none)
  | .removeFrom pid cpu =>
    if cpu < s.cpuCount then (s.setSched cpu ((s.sched cpu).dequeue pid), some (.removeFrom pid (cpu + 1)))
    else (s, none)

end Sys

/-- A step of the interleaving: `schedule`, the start of a call, or the next section of a call in progress. -/
inductive Action
  | schedule (cpu : Nat)
  | yieldCpu (cpu : Nat)
  | exitProcess (cpu : Nat)
  | wait (cpu : Nat) (queue : Nat) (pid : Pid)
  | wakeOne (queue : Nat)
  | wakeAll (queue : Nat)
  | addToScheduler (pid : Pid)
  | removeFromScheduler (pid : Pid)
  | advance (i : Nat)
  deriving DecidableEq

namespace Sys

def start (s : Sys) (t : Task) : Sys := { s with tasks := s.tasks ++ [t] }

def advanceAt (s : Sys) (i : Nat) : Sys :=
  match s.tasks[i]? with
  | none => s
  | some t =>
    match s.advance t with
    | (s', some t') => { s' with tasks := s.tasks.set i t' }
    | (s', none) => { s' with tasks := s.tasks.eraseIdx i }

/-- One step; after a panic nothing happens any more.  The result of `schedule` is handed to `switch_to_process`. -/
def step (s : Sys) (a : Action) : Sys :=
  if s.panicked then s
  else
    match a with
    | .schedule cpu =>
      match s.schedule cpu with
      | (some pid, s') => s'.start (.switchLoad pid)
      | (none, s') => s'
    | .yieldCpu cpu => s.start (.yieldLoad cpu)
    | .exitProcess cpu => s.start (.exitLoad cpu)
    | .wait cpu queue pid => s.start (.waitPush cpu queue pid)
    | .wakeOne queue => s.start (.wakePop queue)
    | .wakeAll queue => s.start (.wakeDrain queue)
    | .addToScheduler pid => s.start (.addLoad pid .normal 0 (2 ^ 64 - 1) 0)
    | .removeFromScheduler pid => s.start (.removeFrom pid 0)
    | .advance i => s.advanceAt i

end Sys

end AstralOS.Proc
