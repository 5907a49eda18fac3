import AstralOS.Lib.Locking
import AstralOS.Process.RunQueues

/-!
# The locks of the scheduler

The calls of the scheduler with their lock operations as steps: `schedule`, `yield_cpu`, `exit_process`,
`set_priority`, `add_to_scheduler_with_priority` and `balance_load` on any number of CPUs, over the lock of the process
table and one lock per CPU's scheduler.  A place is named after the operation that comes next; what the code does
between two operations happens together with the first of them, under the locks held then.
-/

namespace AstralOS.Proc

open Locking

/-- The process table's lock and the schedulers' locks. -/
inductive Lock
  | table
  | sched (cpu : Nat)
  deriving DecidableEq

/-- The local values of `balance_load` while it relieves a CPU. -/
structure Sweep where
  cpu : Nat
  avg : Nat
  load : Nat
  idx : Fin 5
  deriving DecidableEq

/-- The best CPU found so far with its load; at first there is none, for no load reaches `usize::MAX`. -/
abbrev Best := Option (Nat × Nat)

/-- A place in a call: the lock operation that comes next, and the local values still needed. -/
inductive Place
  /-- `schedule` locks its scheduler. -/
  | scheduleLock
  /-- `schedule` locks the table to see whether the current process is still running. -/
  | scheduleCheck (current : Pid)
  | scheduleChecked (running : Bool)
  /-- `schedule` locks the table to queue the current process again. -/
  | scheduleRequeue
  | scheduleRequeued
  /-- `schedule` locks the table to look up the process it has picked. -/
  | scheduleNext (pid : Pid)
  | scheduleLooked (found : Bool)
  | scheduleUnlock
  /-- `yield_cpu` reads the current pid. -/
  | yieldLoad
  | yieldLock (pid : Pid)
  | yieldTable (pid : Pid)
  | yieldTableUnlock
  | yieldUnlock
  /-- `exit_process` reads the current pid. -/
  | exitLoad
  | exitTable (pid : Pid)
  /-- `remove_from_scheduler` inside `exit_process` locks a scheduler. -/
  | exitRemove (pid : Pid) (cpu : Nat)
  | exitRemoved (pid : Pid) (cpu : Nat)
  | exitTableUnlock
  /-- `remove_from_scheduler` inside `set_priority` locks a scheduler. -/
  | priorityRemove (pid : Pid) (priority : PriorityClass) (cpu : Nat)
  | priorityRemoved (pid : Pid) (priority : PriorityClass) (cpu : Nat)
  | priorityTable (pid : Pid) (priority : PriorityClass)
  | priorityTableUnlock (pid : Pid) (priority : PriorityClass)
  /-- `add_to_scheduler_with_priority` locks a scheduler to read its load. -/
  | addLoad (pid : Pid) (priority : PriorityClass) (cpu : Nat) (best : Best)
  | addLoaded (pid : Pid) (priority : PriorityClass) (cpu : Nat) (best : Best)
  | addTable (pid : Pid) (priority : PriorityClass) (target : Nat)
  | addTableUnlock (pid : Pid) (priority : PriorityClass) (target : Nat)
  | addLock (pid : Pid) (priority : PriorityClass) (target : Nat)
  | addUnlock (target : Nat)
  /-- `balance_load` locks a scheduler to add up the loads. -/
  | balanceSum (cpu total : Nat)
  | balanceSummed (cpu total : Nat)
  /-- `balance_load` locks a scheduler to read its load again. -/
  | balanceRead (cpu avg : Nat)
  | balanceReadUnlock (cpu avg load : Nat)
  /-- `balance_load` locks the scheduler of an overloaded CPU. -/
  | balanceLock (w : Sweep)
  /-- `balance_load` has popped a process and drops the lock. -/
  | balanceDrop (w : Sweep) (pid : Pid)
  | balanceOther (w : Sweep) (pid : Pid) (other : Nat) (best : Best)
  | balanceOtherUnlock (w : Sweep) (pid : Pid) (other : Nat) (best : Best)
  | balanceTarget (w : Sweep) (pid : Pid) (target : Nat)
  /-- `balance_load` locks the overloaded CPU's scheduler again, with the target's scheduler still locked. -/
  | balanceRelock (w : Sweep) (target : Nat)
  | balanceTargetUnlock (w : Sweep) (target : Nat)
  | balanceUnlock (cpu avg : Nat)
  deriving DecidableEq

namespace Place

/-- The lock operation at a place, on a CPU. -/
def op (cpu : Nat) : Place → LockOp Lock
  | scheduleLock | yieldLock _ => .acquire (.sched cpu)
  | scheduleCheck _ | scheduleRequeue | scheduleNext _ | yieldTable _ | exitTable _ | priorityTable _ _ | addTable _ _ _ =>
    .acquire .table
  | scheduleChecked _ | scheduleRequeued | scheduleLooked _ | yieldTableUnlock | exitTableUnlock
  | priorityTableUnlock _ _ | addTableUnlock _ _ _ => .release .table
  | scheduleUnlock | yieldUnlock => .release (.sched cpu)
  | yieldLoad | exitLoad => .access
  | exitRemove _ c | priorityRemove _ _ c | addLoad _ _ c _ | addLock _ _ c | balanceSum c _ | balanceRead c _
  | balanceOther _ _ c _ | balanceTarget _ _ c => .acquire (.sched c)
  | exitRemoved _ c | priorityRemoved _ _ c | addLoaded _ _ c _ | addUnlock c | balanceSummed c _
  | balanceReadUnlock c _ _ | balanceOtherUnlock _ _ c _ | balanceTargetUnlock _ c | balanceUnlock c _ =>
    .release (.sched c)
  | balanceLock w | balanceRelock w _ => .acquire (.sched w.cpu)
  | balanceDrop w _ => .release (.sched w.cpu)

end Place

/-! ### What the code does between two lock operations -/

namespace Sys

section

variable (s : Sys)

/-- `schedule` finds nothing to run. -/
def goIdle (cpu : Nat) : Sys :=
  let sched := s.sched cpu
  { s.setSched cpu { sched with idleTicks := sched.idleTicks + 1, current := none } with
    idleTicks := s.idleTicks + 1
    systemIdle := if s.idleTicks > 100 then true else s.systemIdle }

/-- `schedule` picks the next process. -/
def pickAt (cpu : Nat) : Sys × Option Place :=
  let (next, sched) := (s.sched cpu).pickNext s.systemIdle
  let s := s.setSched cpu sched
  match next with
  | some pid => (s, some (.scheduleNext pid))
  | none => (s.goIdle cpu, some .scheduleUnlock)

def requeueAt (cpu : Nat) : Sys × Option Place :=
  match (s.sched cpu).current with
  | some _ => (s, some .scheduleRequeue)
  | none => s.pickAt cpu

/-- The loop of `remove_from_scheduler` inside `exit_process`. -/
def exitRemoveAt (pid : Pid) (cpu : Nat) : Place :=
  if cpu < s.cpuCount then .exitRemove pid cpu else .exitTableUnlock

/-- The loop of `remove_from_scheduler` inside `set_priority`. -/
def priorityRemoveAt (pid : Pid) (priority : PriorityClass) (cpu : Nat) : Place :=
  if cpu < s.cpuCount then .priorityRemove pid priority cpu else .priorityTable pid priority

/-- The loop over the loads in `add_to_scheduler_with_priority`. -/
def addLoadAt (pid : Pid) (priority : PriorityClass) (cpu : Nat) (best : Best) : Place :=
  if cpu < s.cpuCount then .addLoad pid priority cpu best else .addTable pid priority (best.elim 0 (·.2))

def better (cpu : Nat) (best : Best) : Best :=
  let load := (s.sched cpu).totalLoad
  match best with
  | some (minLoad, target) => if load < minLoad then some (load, cpu) else some (minLoad, target)
  | none => some (load, cpu)

/-- The outer loop of `balance_load`. -/
def balanceReadAt (cpu avg : Nat) : Option Place :=
  if cpu < s.cpuCount then some (.balanceRead cpu avg) else none

/-- The two inner loops of `balance_load`, from a class down: pop a process from the next queue that has one. -/
def balanceScan (w : Sweep) : Sys × Option Place :=
  let queues := (s.sched w.cpu).queues
  match ((List.finRange 5).reverse.filter (· ≤ w.idx)).find? fun i => (queues i).queue.length > 0 ∧ w.load > w.avg with
  | some i =>
    match (queues i).pop with
    | (some pid, queue) => (s.setSched w.cpu (popped (s.sched w.cpu) i queue), some (.balanceDrop { w with idx := i } pid))
    | (none, _) => (s, some (.balanceUnlock w.cpu w.avg))
  | none => (s, some (.balanceUnlock w.cpu w.avg))

/-- The loop over the other CPUs in `balance_load`. -/
def balanceOtherAt (w : Sweep) (pid : Pid) (other : Nat) (best : Best) : Place :=
  let other := if other = w.cpu then other + 1 else other
  if other < s.cpuCount then .balanceOther w pid other best else .balanceTarget w pid (best.elim 0 (·.2))

/-- What the code does at a place, from its lock operation to the next. -/
def after (cpu : Nat) : Place → Sys × Option Place
  | .scheduleLock =>
    let sched := s.sched cpu
    if sched.timeSlice > 0 then
      let sched := { sched with timeSlice := sched.timeSlice - 1 }
      let s := s.setSched cpu sched
      if sched.timeSlice > 0 then
        match sched.current with
        | some current => (s, some (.scheduleCheck current))
        | none => s.requeueAt cpu
      else s.requeueAt cpu
    else s.requeueAt cpu
  | .scheduleCheck current =>
    let running :=
      match s.table.get current with
      | some proc => proc.state = .running
      | none => false
    (s, some (.scheduleChecked running))
  | .scheduleChecked running => if running then (s, some .scheduleUnlock) else s.requeueAt cpu
  | .scheduleRequeue => (s.setSched cpu (requeueCurrent s.table (s.sched cpu)), some .scheduleRequeued)
  | .scheduleRequeued => s.pickAt cpu
  | .scheduleNext pid =>
    match s.table.get pid with
    | some proc =>
      let sched := s.sched cpu
      let sched :=
        { sched with current := some pid, timeSlice := proc.timeSlice, contextSwitches := sched.contextSwitches + 1 }
      ({ s.setSched cpu sched with idleTicks := 0, systemIdle := false }, some (.scheduleLooked true))
    | none => (s, some (.scheduleLooked false))
  | .scheduleLooked found => if found then (s, some .scheduleUnlock) else (s.goIdle cpu, some .scheduleUnlock)
  | .scheduleUnlock => (s, none)
  | .yieldLoad => (s, s.getCurrentPid.map .yieldLock)
  | .yieldLock pid => (s.setSched cpu { s.sched cpu with timeSlice := 0 }, some (.yieldTable pid))
  | .yieldTable pid =>
    match s.table.get pid with
    | some proc => (s.setSched cpu ((s.sched cpu).enqueue pid proc.priority), some .yieldTableUnlock)
    | none => (s, some .yieldTableUnlock)
  | .yieldTableUnlock => (s, some .yieldUnlock)
  | .yieldUnlock => (s, none)
  | .exitLoad => (s, s.getCurrentPid.map .exitTable)
  | .exitTable pid =>
    match s.table.get pid with
    | some _ => ({ s with table := s.table.setState pid .zombie }, some (s.exitRemoveAt pid 0))
    | none => (s, some .exitTableUnlock)
  | .exitRemove pid c => (s.setSched c ((s.sched c).dequeue pid), some (.exitRemoved pid c))
  | .exitRemoved pid c => (s, some (s.exitRemoveAt pid (c + 1)))
  | .exitTableUnlock => (s, some .yieldLoad)
  | .priorityRemove pid priority c => (s.setSched c ((s.sched c).dequeue pid), some (.priorityRemoved pid priority c))
  | .priorityRemoved pid priority c => (s, some (s.priorityRemoveAt pid priority (c + 1)))
  | .priorityTable pid priority =>
    ({ s with table := s.table.modify pid fun p => { p with priority, timeSlice := priority.timeSlice } },
      some (.priorityTableUnlock pid priority))
  | .priorityTableUnlock pid priority => (s, some (s.addLoadAt pid priority 0 none))
  | .addLoad pid priority c best => (s, some (.addLoaded pid priority c (s.better c best)))
  | .addLoaded pid priority c best => (s, some (s.addLoadAt pid priority (c + 1) best))
  | .addTable pid priority target => (s, some (.addTableUnlock pid priority (s.preferredCpu pid target)))
  | .addTableUnlock pid priority target => (s, some (.addLock pid priority target))
  | .addLock pid priority target =>
    (s.setSched target ((s.sched target).enqueue pid priority), some (.addUnlock target))
  | .addUnlock _ => (s, none)
  | .balanceSum c total => (s, some (.balanceSummed c (total + (s.sched c).totalLoad)))
  | .balanceSummed c total =>
    if c + 1 < s.cpuCount then (s, some (.balanceSum (c + 1) total))
    else if total = 0 then (s, none)
    else (s, s.balanceReadAt 0 (total / s.cpuCount))
  | .balanceRead c avg => (s, some (.balanceReadUnlock c avg (s.sched c).totalLoad))
  | .balanceReadUnlock c avg load =>
    if load > avg + 1 then (s, some (.balanceLock ⟨c, avg, load, 4⟩)) else (s, s.balanceReadAt (c + 1) avg)
  | .balanceLock w => s.balanceScan w
  | .balanceDrop w pid => (s, some (s.balanceOtherAt w pid 0 none))
  | .balanceOther w pid other best => (s, some (.balanceOtherUnlock w pid other (s.better other best)))
  | .balanceOtherUnlock w pid other best => (s, some (s.balanceOtherAt w pid (other + 1) best))
  | .balanceTarget w pid target =>
    (s.setSched target ((s.sched target).enqueue pid (.ofIndex w.idx)), some (.balanceRelock w target))
  | .balanceRelock w target => (s, some (.balanceTargetUnlock w target))
  | .balanceTargetUnlock w _ => s.balanceScan w
  | .balanceUnlock c avg => (s, s.balanceReadAt (c + 1) avg)

end

end Sys

def kernel : Program Nat Lock Place Sys := ⟨fun cpu p => p.op cpu, Sys.after⟩

/-! ### The CPUs -/

/-- The system with the owners of the locks and the places of the CPUs. -/
abbrev Smp := State Nat Lock Place Sys

/-- A call that a CPU starts. -/
inductive Entry
  | schedule
  | yieldCpu
  | exitProcess
  | setPriority (pid : Pid) (priority : PriorityClass)
  | addToSchedulerWithPriority (pid : Pid) (priority : PriorityClass)
  | balanceLoad
  deriving DecidableEq

def Entry.place (s : Sys) : Entry → Option Place
  | .schedule => some .scheduleLock
  | .yieldCpu => some .yieldLoad
  | .exitProcess => some .exitLoad
  | .setPriority pid priority => some (s.priorityRemoveAt pid priority 0)
  | .addToSchedulerWithPriority pid priority => some (s.addLoadAt pid priority 0 none)
  | .balanceLoad => if s.cpuCount ≤ 1 then none else some (.balanceSum 0 0)

/-- A CPU starts a call or does its next lock operation. -/
inductive SmpAction
  | call (cpu : Nat) (entry : Entry)
  | advance (cpu : Nat)
  deriving DecidableEq

namespace Smp

def idle (s : Sys) : Smp := ⟨s, fun _ => none, fun _ => none⟩

/-- One step; a CPU starts a call only when it has none in progress. -/
def step (m : Smp) : SmpAction → Smp
  | .call cpu entry =>
    if cpu < m.data.cpuCount ∧ m.pc cpu = none then
      { m with pc := Function.update m.pc cpu (entry.place m.data) }
    else m
  | .advance cpu => kernel.advance m cpu

end Smp

end AstralOS.Proc
