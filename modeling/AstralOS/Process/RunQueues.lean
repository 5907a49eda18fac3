import AstralOS.Lib.Once
import AstralOS.Process.Runnable

/-!
# Run queues and who is in them

The calls of the scheduler taken one after the other, on any number of CPUs, with `set_priority`, `set_intent` and
`balance_load` besides those of `Sys`.

A process should be in at most one run queue, and not in that of one CPU while it is the current process of another.
`queued_once_of_meets` says which states the calls have to find for that.  The checks for duplicates look at one queue
only, so a change of the class by `set_intent` between two calls of `yield_cpu` is enough to queue a process twice
(`queued_twice`).
-/

open Function List

namespace AstralOS.Proc

def PriorityClass.ofIndex : Fin 5 → PriorityClass
  | 0 => .realTime
  | 1 => .interactive
  | 2 => .normal
  | 3 => .background
  | 4 => .dream

def PriorityClass.timeSlice : PriorityClass → BitVec 64
  | .realTime => 20
  | .interactive => 5
  | .normal => 10
  | .background => 15
  | .dream => 50

/-- Declare what the process is doing; who serves a user is raised to the interactive class (`Process::set_intent`). -/
def Process.setIntent (p : Process) (intent : ProcessIntent) : Process :=
  let p := { p with intent }
  match intent with
  | .graphics | .interactive =>
    if p.priority.index > PriorityClass.interactive.index then { p with priority := .interactive } else p
  | _ => p

namespace Sys

/-! ### Whole calls -/

/-- One turn of the search for the CPU with the fewest queued processes, with the load and the number of the best so
far. -/
def lighter (s : Sys) (best : Nat × Nat) (cpu : Nat) : Nat × Nat :=
  let load := (s.sched cpu).totalLoad
  if load < best.1 then (load, cpu) else best

def leastLoaded (s : Sys) (cpus : List Nat) : Nat := (cpus.foldl s.lighter (2 ^ 64 - 1, 0)).2

/-- The CPU that the affinity of a process asks for, or else the target. -/
def preferredCpu (s : Sys) (pid : Pid) (target : Nat) : Nat :=
  match s.table.get pid with
  | some proc => if proc.cpuAffinity = 0 then target else (s.affinityCpu proc.cpuAffinity).getD target
  | none => target

def addToSchedulerWithPriority (s : Sys) (pid : Pid) (priority : PriorityClass) : Sys :=
  let target := s.preferredCpu pid (s.leastLoaded (List.range s.cpuCount))
  s.setSched target ((s.sched target).enqueue pid priority)

def switchToProcess (s : Sys) (new : Pid) : Sys :=
  if s.getCurrentPid = some new then s
  else
    let table := s.table.leave s.getCurrentPid
    match table.get new with
    | some _ => { s with table := table.setState new .running, currentPid := new }
    | none => { s with table, panicked := true }

def yieldCpu (s : Sys) (cpu : Nat) : Sys :=
  match s.getCurrentPid with
  | some pid =>
    let sched := { s.sched cpu with timeSlice := 0 }
    match s.table.get pid with
    | some proc => s.setSched cpu (sched.enqueue pid proc.priority)
    | none => s.setSched cpu sched
  | none => s

def setPriority (s : Sys) (pid : Pid) (priority : PriorityClass) : Sys :=
  let s := s.dequeueAll pid
  let s := { s with table := s.table.modify pid fun p => { p with priority, timeSlice := priority.timeSlice } }
  s.addToSchedulerWithPriority pid priority

def setIntent (s : Sys) (pid : Pid) (intent : ProcessIntent) : Sys :=
  { s with table := s.table.modify pid (·.setIntent intent) }

def popped (sched : CpuScheduler) (idx : Fin 5) (queue : PriorityQueue) : CpuScheduler :=
  { sched with
    queues := update sched.queues idx queue
    activeBitmap := if queue.queue.isEmpty then sched.activeBitmap &&& ~~~(1#8 <<< idx.val) else sched.activeBitmap }

/-- The body of the inner loop of `balance_load`: a process that has been popped goes to the other CPU with the least
load. -/
def migrateOne (s : Sys) (cpu : Nat) (idx : Fin 5) (pid : Pid) (queue : PriorityQueue) : Sys :=
  let s := s.setSched cpu (popped (s.sched cpu) idx queue)
  let target := s.leastLoaded ((List.range s.cpuCount).filter (· ≠ cpu))
  s.setSched target ((s.sched target).enqueue pid (.ofIndex idx))

/-- The inner loop of `balance_load`: move the processes of one queue.  Every turn shortens the queue, and `fuel` is its
length. -/
def migrate (cpu : Nat) (idx : Fin 5) (load avg : Nat) : Nat → Sys → Sys
  | 0, s => s
  | fuel + 1, s =>
    if ((s.sched cpu).queues idx).queue.length > 0 ∧ load > avg then
      match ((s.sched cpu).queues idx).pop with
      | (some pid, queue) => migrate cpu idx load avg fuel (s.migrateOne cpu idx pid queue)
      | (none, _) => s
    else s

/-- The body of the outer loop of `balance_load`, from the lowest class up. -/
def relieve (avg : Nat) (s : Sys) (cpu : Nat) : Sys :=
  let load := (s.sched cpu).totalLoad
  if load > avg + 1 then
    (List.finRange 5).reverse.foldl
      (fun s idx => migrate cpu idx load avg ((s.sched cpu).queues idx).queue.length s) s
  else s

def balanceLoad (s : Sys) : Sys :=
  if s.cpuCount ≤ 1 then s
  else
    let total := ((List.range s.cpuCount).map fun cpu => (s.sched cpu).totalLoad).sum
    if total = 0 then s else (List.range s.cpuCount).foldl (relieve (total / s.cpuCount)) s

/-! ### The places of the processes -/

def place (s : Sys) (k : Nat × Fin 5) : List Pid := ((s.sched k.1).queues k.2).queue

/-- Every process is queued at most once, and not on another CPU than the one whose current process it is. -/
structure QueuedOnce (s : Sys) : Prop where
  once : Once s.place
  elsewhere : ∀ ⦃cpu k pid⦄, (s.sched cpu).current = some pid → pid ∈ s.place k → k.1 = cpu

/-- What holds between the calls of a careful run on the CPUs `0, …, n`. -/
structure QueueInv (n : Nat) (s : Sys) : Prop extends QueuedOnce s where
  cpus : s.cpuCount = n + 1
  queued_le : ∀ ⦃k pid⦄, pid ∈ s.place k → k.1 ≤ n
  current_le : ∀ ⦃cpu pid⦄, (s.sched cpu).current = some pid → cpu ≤ n
  distinct : ∀ ⦃cpu cpu' pid⦄, (s.sched cpu).current = some pid → (s.sched cpu').current = some pid → cpu = cpu'

section
variable {n : Nat} {s : Sys} {pid : Pid} {cpu : Nat}

theorem queueInv_boot (table : ProcessTable) (n : Nat) : QueueInv n (boot table (n + 1)) where
  once := by
    intro k k' m m' a ha
    simp [place, boot, CpuScheduler.new, PriorityQueue.new] at ha
  elsewhere := by simp [boot, CpuScheduler.new]
  cpus := rfl
  queued_le := by simp [place, boot, CpuScheduler.new, PriorityQueue.new]
  current_le := by simp [boot, CpuScheduler.new]
  distinct := by simp [boot, CpuScheduler.new]

theorem place_setSched (sched : CpuScheduler) (k : Nat × Fin 5) :
    (s.setSched cpu sched).place k = if k.1 = cpu then (sched.queues k.2).queue else s.place k := by
  unfold place setSched
  grind

variable {sched : CpuScheduler}

theorem current_setSched (hc : sched.current = (s.sched cpu).current) (c : Nat) :
    ((s.setSched cpu sched).sched c).current = (s.sched c).current := by
  unfold setSched
  grind

theorem QueueInv.of_sublist (h : QueueInv n s) {s' : Sys} (hpl : ∀ k, (s'.place k).Sublist (s.place k))
    (hcur : ∀ c, (s'.sched c).current = (s.sched c).current) (hcpus : s'.cpuCount = s.cpuCount) : QueueInv n s' where
  once := h.once.of_sublist hpl
  elsewhere := fun c k _ hc hp => h.elsewhere (hcur c ▸ hc) ((hpl k).subset hp)
  cpus := hcpus.trans h.cpus
  queued_le := fun k _ hp => h.queued_le ((hpl k).subset hp)
  current_le := fun c _ hc => h.current_le (hcur c ▸ hc)
  distinct := fun c c' _ hc hc' => h.distinct (hcur c ▸ hc) (hcur c' ▸ hc')

theorem place_enqueue (hq : sched.queues = (s.sched cpu).queues) (priority : PriorityClass) :
    (s.setSched cpu (sched.enqueue pid priority)).place =
      update s.place (cpu, priority.index)
        (if pid ∈ s.place (cpu, priority.index) then s.place (cpu, priority.index)
        else s.place (cpu, priority.index) ++ [pid]) := by
  funext k
  rw [place_setSched]
  by_cases hk : k = (cpu, priority.index)
  · subst hk
    simp only [if_true, CpuScheduler.enqueue, update_self, hq, PriorityQueue.push, place]
    exact apply_ite PriorityQueue.queue _ _ _
  · rw [update_of_ne hk]
    by_cases hcpu : k.1 = cpu
    · have hidx : k.2 ≠ priority.index := fun heq => hk (Prod.ext hcpu heq)
      rw [if_pos hcpu]
      simp only [CpuScheduler.enqueue, update_of_ne hidx, hq, place, hcpu]
    · rw [if_neg hcpu]

theorem mem_place_enqueue (hq : sched.queues = (s.sched cpu).queues)
    {priority : PriorityClass} {k : Nat × Fin 5} {q : Pid}
    (h : q ∈ (s.setSched cpu (sched.enqueue pid priority)).place k) :
    q ∈ s.place k ∨ k = (cpu, priority.index) ∧ q = pid := by
  rw [place_enqueue hq] at h
  grind

theorem QueueInv.enqueue (h : QueueInv n s) (hcpu : cpu ≤ n)
    (hq : sched.queues = (s.sched cpu).queues) (hc : sched.current = (s.sched cpu).current) {priority : PriorityClass}
    (hp : ∀ k, pid ∈ s.place k → k = (cpu, priority.index))
    (hcur : ∀ c, (s.sched c).current = some pid → c = cpu) :
    QueueInv n (s.setSched cpu (sched.enqueue pid priority)) := by
  have hcu : ∀ c, ((s.setSched cpu (sched.enqueue pid priority)).sched c).current = (s.sched c).current :=
    current_setSched hc
  refine ⟨⟨?_, fun c k q hcq hk => ?_⟩, h.cpus, fun k q hk => ?_, fun c q hcq => ?_, fun c c' q hcq hcq' => ?_⟩
  · rw [place_enqueue hq]
    exact h.once.push hp
  · rw [hcu] at hcq
    rcases mem_place_enqueue hq hk with hold | ⟨rfl, rfl⟩
    · exact h.elsewhere hcq hold
    · exact (hcur c hcq).symm
  · rcases mem_place_enqueue hq hk with hold | ⟨rfl, -⟩
    · exact h.queued_le hold
    · exact hcpu
  · exact h.current_le (hcu c ▸ hcq)
  · exact h.distinct (hcu c ▸ hcq) (hcu c' ▸ hcq')

/-! ### Taking processes out of the queues -/

theorem sublist_foldl_dequeueAt (sched : CpuScheduler) (is : List (Fin 5)) (i : Fin 5) :
    ((is.foldl (CpuScheduler.dequeueAt pid) sched).queues i).queue.Sublist (sched.queues i).queue ∧
      (is.foldl (CpuScheduler.dequeueAt pid) sched).current = sched.current := by
  induction is generalizing sched with
  | nil => exact ⟨List.Sublist.refl _, rfl⟩
  | cons j is ih =>
    obtain ⟨hsub, hcur⟩ := ih (CpuScheduler.dequeueAt pid sched j)
    refine ⟨hsub.trans ?_, hcur⟩
    simp only [CpuScheduler.dequeueAt]
    by_cases hij : i = j
    · subst hij
      rw [update_self]
      exact filter_sublist
    · rw [update_of_ne hij]

theorem current_dequeueAll (pid : Pid) (c : Nat) : ((s.dequeueAll pid).sched c).current = (s.sched c).current := by
  unfold Sys.dequeueAll
  generalize range s.cpuCount = cpus
  induction cpus generalizing s with
  | nil => rfl
  | cons cpu cpus ih =>
    rw [foldl_cons, ih]
    exact current_setSched (sublist_foldl_dequeueAt (s.sched cpu) (finRange 5) 0).2 c

theorem QueueInv.dequeueAll (h : QueueInv n s) (pid : Pid) :
    QueueInv n (s.dequeueAll pid) ∧ ∀ k, pid ∉ (s.dequeueAll pid).place k := by
  have hfold : ∀ (cpus : List Nat) (s : Sys), QueueInv n s →
      QueueInv n (cpus.foldl (fun s c => s.setSched c ((s.sched c).dequeue pid)) s) := by
    intro cpus
    induction cpus with
    | nil => exact fun s hs => hs
    | cons c cpus ih =>
      intro s hs
      refine ih _ (hs.of_sublist (fun k => ?_) ?_ rfl)
      · rw [place_setSched]
        split
        case isTrue hk =>
          subst hk
          exact (sublist_foldl_dequeueAt (s.sched k.1) (finRange 5) k.2).1
        case isFalse => exact List.Sublist.refl _
      · exact current_setSched (sublist_foldl_dequeueAt (s.sched c) (finRange 5) 0).2
  have hinv : QueueInv n (s.dequeueAll pid) := hfold _ s h
  refine ⟨hinv, fun k hk => ?_⟩
  obtain ⟨-, hq⟩ := dequeueAll_spec s pid
  have hle := hinv.queued_le hk
  exact (hq k.1 pid ⟨k.2, hk⟩).2 (by rw [h.cpus]; omega) rfl

theorem sublist_pickNext (sched : CpuScheduler) (idle : Bool) (i : Fin 5) :
    ((sched.pickNext idle).2.queues i).queue.Sublist (sched.queues i).queue := by
  have hsub : ∀ i j, (update sched.queues j (sched.queues j).pop.2 i).queue.Sublist (sched.queues i).queue := by
    intro i j
    by_cases hij : i = j
    · subst hij
      rw [update_self]
      exact tail_sublist _
    · rw [update_of_ne hij]
  unfold CpuScheduler.pickNext
  split
  · exact List.Sublist.refl _
  split
  · dsimp only
    split
    · exact List.Sublist.refl _
    · split <;> exact hsub i _
  · exact List.Sublist.refl _

theorem QueueInv.pick (h : QueueInv n s) (hcpu : cpu ≤ n)
    (hq : ∀ i, (sched.queues i).queue.Sublist ((s.sched cpu).queues i).queue)
    (hc : ∀ q, sched.current = some q → ∃ i, q ∈ s.place (cpu, i)) : QueueInv n (s.setSched cpu sched) := by
  have hsub : ∀ k, ((s.setSched cpu sched).place k).Sublist (s.place k) := by
    intro k
    rw [place_setSched]
    split
    case isTrue hk =>
      subst hk
      exact hq k.2
    case isFalse => exact List.Sublist.refl _
  -- who is current now was so before on the same CPU, or comes from the queues of this one
  have hcur : ∀ c q, ((s.setSched cpu sched).sched c).current = some q →
      (s.sched c).current = some q ∧ c ≠ cpu ∨ c = cpu ∧ ∃ i, q ∈ s.place (cpu, i) := by
    intro c q hcq
    unfold setSched at hcq
    by_cases hcc : c = cpu
    · simp_all
    · exact .inl ⟨by simpa [hcc] using hcq, hcc⟩
  refine ⟨⟨h.once.of_sublist hsub, fun c k q hcq hk => ?_⟩, h.cpus, fun k q hk => h.queued_le ((hsub k).subset hk),
    fun c q hcq => ?_, fun c c' q hcq hcq' => ?_⟩
  · rcases hcur c q hcq with ⟨hold, -⟩ | ⟨rfl, i, hi⟩
    · exact h.elsewhere hold ((hsub k).subset hk)
    · rw [h.once.eq ((hsub k).subset hk) hi]
  · rcases hcur c q hcq with ⟨hold, -⟩ | ⟨rfl, -⟩
    · exact h.current_le hold
    · exact hcpu
  · rcases hcur c q hcq with ⟨hold, hne⟩ | ⟨rfl, i, hi⟩ <;> rcases hcur c' q hcq' with ⟨hold', hne'⟩ | ⟨rfl, i', hi'⟩
    · exact h.distinct hold hold'
    · exact absurd (h.elsewhere hold hi').symm hne
    · exact absurd (h.elsewhere hold' hi).symm hne'
    · rfl

/-! ### Scheduling -/

def OnlyAt (s : Sys) (pid : Pid) (k : Nat × Fin 5) : Prop := ∀ c < s.cpuCount, ∀ i, pid ∈ s.place (c, i) → (c, i) = k

def NotQueued (s : Sys) (pid : Pid) : Prop := ∀ c < s.cpuCount, ∀ i, pid ∉ s.place (c, i)

def NotCurrent (s : Sys) (pid : Pid) : Prop := ∀ c < s.cpuCount, (s.sched c).current ≠ some pid

section

variable (h : QueueInv n s)
include h

theorem QueueInv.onlyAt {k : Nat × Fin 5} (hk : OnlyAt s pid k) (k' : Nat × Fin 5)
    (hmem : pid ∈ s.place k') : k' = k :=
  hk k'.1 (by have := h.queued_le hmem; have := h.cpus; omega) k'.2 hmem

theorem QueueInv.notCurrent (hnot : NotCurrent s pid) (c : Nat) :
    (s.sched c).current ≠ some pid := fun hc =>
  hnot c (by have := h.current_le hc; have := h.cpus; omega) hc

theorem QueueInv.congr {s' : Sys} (hs : s'.sched = s.sched) (hc : s'.cpuCount = s.cpuCount) :
    QueueInv n s' :=
  h.of_sublist (fun k => by unfold place; rw [hs]) (fun c => by rw [hs]) hc

theorem QueueInv.same (hq : sched.queues = (s.sched cpu).queues)
    (hc : sched.current = (s.sched cpu).current) : QueueInv n (s.setSched cpu sched) := by
  refine h.of_sublist (fun k => ?_) (current_setSched hc) rfl
  rw [place_setSched]
  split
  case isTrue hk =>
    subst hk
    rw [hq]
    exact List.Sublist.refl _
  case isFalse => exact List.Sublist.refl _

theorem QueueInv.requeue (hcpu : cpu ≤ n)
    (hq : sched.queues = (s.sched cpu).queues) (hc : sched.current = (s.sched cpu).current)
    (hat : ∀ pid ∈ (s.sched cpu).current, ∀ proc ∈ s.table.get pid, OnlyAt s pid (cpu, proc.priority.index)) :
    QueueInv n (s.setSched cpu (requeueCurrent s.table sched)) := by
  have hsame := h.same hq hc
  unfold requeueCurrent
  cases hcur : sched.current with
  | none => exact hsame
  | some current =>
    dsimp only
    cases hget : s.table.get current with
    | none => exact hsame
    | some proc =>
      dsimp only
      split
      · have hcu : (s.sched cpu).current = some current := hc.symm.trans hcur
        exact h.enqueue hcpu hq hc (h.onlyAt (hat current hcu proc hget)) fun c hcc => h.distinct hcc hcu
      · exact hsame

theorem QueueInv.reschedule (hcpu : cpu ≤ n)
    (hq : sched.queues = (s.sched cpu).queues) (hc : sched.current = (s.sched cpu).current)
    (hat : ∀ pid ∈ (s.sched cpu).current, ∀ proc ∈ s.table.get pid, OnlyAt s pid (cpu, proc.priority.index)) :
    QueueInv n (s.reschedule cpu sched).2 := by
  have hre := h.requeue hcpu hq hc hat
  set again := requeueCurrent s.table sched with ha
  have hp : ∀ sched', sched'.queues = (again.pickNext s.systemIdle).2.queues →
      (∀ q, sched'.current = some q → (again.pickNext s.systemIdle).1 = some q) →
      QueueInv n (s.setSched cpu sched') := by
    intro sched' hq' hc'
    have hself : (s.setSched cpu again).sched cpu = again := by simp [setSched]
    have hset : (s.setSched cpu again).setSched cpu sched' = s.setSched cpu sched' := by simp [setSched]
    rw [← hset]
    refine hre.pick hcpu (fun i => ?_) fun q hq => ?_
    · rw [hself, hq']
      exact sublist_pickNext again s.systemIdle i
    · obtain ⟨i, hi⟩ := (again.pickNext_spec s.systemIdle).1 q (hc' q hq)
      exact ⟨i, by rwa [place, hself]⟩
  unfold Sys.reschedule
  dsimp only
  generalize hnext : again.pickNext s.systemIdle = r at hp
  obtain ⟨next, rest⟩ := r
  split
  case h_1 proc _ =>
    exact (hp { rest with
      current := next, timeSlice := proc.timeSlice, contextSwitches := rest.contextSwitches + 1 } rfl
      fun q hq => hq).congr rfl rfl
  case h_2 =>
    exact (hp { rest with idleTicks := rest.idleTicks + 1, current := none } rfl
      fun q hq => by cases hq).congr rfl rfl

theorem QueueInv.schedule (hcpu : cpu ≤ n)
    (hat : ∀ pid ∈ (s.sched cpu).current, ∀ proc ∈ s.table.get pid, OnlyAt s pid (cpu, proc.priority.index)) :
    QueueInv n (s.schedule cpu).2 := by
  unfold Sys.schedule
  dsimp only
  split
  · split
    · split
      · exact h.same rfl rfl
      · exact h.reschedule hcpu rfl rfl hat
    · exact h.reschedule hcpu rfl rfl hat
  · exact h.reschedule hcpu rfl rfl hat

end

/-! ### Balancing -/

theorem foldl_lighter (cpus : List Nat) (best : Nat × Nat) :
    (cpus.foldl s.lighter best = best ∨ ∃ c ∈ cpus, cpus.foldl s.lighter best = ((s.sched c).totalLoad, c)) ∧
      (cpus.foldl s.lighter best).1 ≤ best.1 ∧ ∀ c ∈ cpus, (cpus.foldl s.lighter best).1 ≤ (s.sched c).totalLoad := by
  induction cpus generalizing best with
  | nil => exact ⟨.inl rfl, Nat.le_refl _, by simp⟩
  | cons c cpus ih =>
    obtain ⟨hfrom, hbest, hall⟩ := ih (s.lighter best c)
    have hle : (s.lighter best c).1 ≤ best.1 ∧ (s.lighter best c).1 ≤ (s.sched c).totalLoad := by
      simp only [lighter]
      split <;> omega
    refine ⟨?_, Nat.le_trans hbest hle.1, fun c' hc' => ?_⟩
    · grind [foldl_cons, lighter, mem_cons_self, mem_cons_of_mem]
    · grind

theorem leastLoaded_le {cpus : List Nat} (h : ∀ c ∈ cpus, c ≤ n) : s.leastLoaded cpus ≤ n := by
  rw [leastLoaded]
  obtain ⟨heq | ⟨c, hc, heq⟩, -⟩ := foldl_lighter (s := s) cpus (2 ^ 64 - 1, 0)
  · rw [heq]
    exact Nat.zero_le n
  · rw [heq]
    exact h c hc

def Apart (s : Sys) : Prop := ∀ c < s.cpuCount, ∀ pid ∈ (s.sched c).current, NotQueued s pid

theorem QueueInv.apart (h : QueueInv n s) (ha : Apart s) {c : Nat} (hc : (s.sched c).current = some pid)
    (k : Nat × Fin 5) : pid ∉ s.place k := fun hk =>
  ha c (by have := h.current_le hc; have := h.cpus; omega) pid hc k.1
    (by have := h.queued_le hk; have := h.cpus; omega) k.2 hk

variable {idx : Fin 5} {queue : PriorityQueue}

theorem place_of_pop
    (hpop : ((s.sched cpu).queues idx).pop = (some pid, queue)) : s.place (cpu, idx) = pid :: queue.queue := by
  have h1 := congrArg Prod.fst hpop
  have h2 := congrArg Prod.snd hpop
  simp only [PriorityQueue.pop] at h1 h2
  rw [← h2]
  exact (cons_head?_tail h1).symm

theorem place_popped (idx : Fin 5) (queue : PriorityQueue) :
    (s.setSched cpu (popped (s.sched cpu) idx queue)).place = update s.place (cpu, idx) queue.queue := by
  funext k
  rw [place_setSched]
  simp only [popped]
  by_cases hk : k = (cpu, idx)
  · subst hk
    simp
  · grind [place]

theorem place_popped_sublist (hpop : ((s.sched cpu).queues idx).pop = (some pid, queue)) (k : Nat × Fin 5) :
    ((s.setSched cpu (popped (s.sched cpu) idx queue)).place k).Sublist (s.place k) := by
  rw [place_popped]
  by_cases hk : k = (cpu, idx)
  · simp_all [update_self, place_of_pop hpop]
  · rw [update_of_ne hk]

theorem notMem_popped (h : Once s.place)
    (hpop : ((s.sched cpu).queues idx).pop = (some pid, queue)) (k : Nat × Fin 5) :
    pid ∉ (s.setSched cpu (popped (s.sched cpu) idx queue)).place k := by
  intro hk
  have hhead := place_of_pop hpop
  have hkeq : k = (cpu, idx) :=
    h.eq ((place_popped_sublist hpop k).subset hk) (hhead ▸ mem_cons_self)
  rw [place_popped, hkeq, update_self] at hk
  have hn := (once_iff.1 h).1 (cpu, idx)
  simp_all

theorem QueueInv.migrateOne (h : QueueInv n s) (ha : Apart s)
    (hpop : ((s.sched cpu).queues idx).pop = (some pid, queue)) :
    QueueInv n (s.migrateOne cpu idx pid queue) ∧ Apart (s.migrateOne cpu idx pid queue) := by
  have hsub := place_popped_sublist hpop
  have hnone := notMem_popped h.once hpop
  have hcur1 : ∀ c, ((s.setSched cpu (popped (s.sched cpu) idx queue)).sched c).current = (s.sched c).current :=
    current_setSched rfl
  have h1 := h.of_sublist hsub hcur1 rfl
  have hn : ∀ c, (s.sched c).current ≠ some pid := fun c hcc =>
    h.apart ha hcc (cpu, idx) (place_of_pop hpop ▸ mem_cons_self)
  unfold Sys.migrateOne
  generalize s.setSched cpu (popped (s.sched cpu) idx queue) = s1 at hsub hnone hcur1 h1 ⊢
  have ht : s1.leastLoaded ((range s1.cpuCount).filter (· ≠ cpu)) ≤ n := by
    refine leastLoaded_le fun c hc => ?_
    have hlt : c < s1.cpuCount := mem_range.1 (mem_filter.1 hc).1
    have := h1.cpus
    omega
  dsimp only
  generalize s1.leastLoaded ((range s1.cpuCount).filter (· ≠ cpu)) = target at ht ⊢
  refine ⟨h1.enqueue ht rfl rfl (fun k hk => absurd hk (hnone k)) fun c hcc => absurd (hcur1 c ▸ hcc) (hn c), ?_⟩
  intro c _ q hcq c' _ i hmem
  have hcq' : (s.sched c).current = some q := by
    rw [← hcur1 c, ← hcq]
    exact (current_setSched (by rfl) c).symm
  rcases mem_place_enqueue (k := (c', i)) (by rfl) hmem with hold | ⟨-, rfl⟩
  · exact h.apart ha hcq' _ ((hsub _).subset hold)
  · exact hn c hcq'

theorem migrate_induction {P : Sys → Prop}
    (hone : ∀ ⦃s : Sys⦄ ⦃cpu : Nat⦄ ⦃idx : Fin 5⦄ ⦃pid : Pid⦄ ⦃queue : PriorityQueue⦄, P s →
      ((s.sched cpu).queues idx).pop = (some pid, queue) → P (s.migrateOne cpu idx pid queue))
    (cpu : Nat) (idx : Fin 5) (load avg fuel : Nat) (h : P s) : P (migrate cpu idx load avg fuel s) := by
  induction fuel generalizing s with
  | zero => exact h
  | succ fuel ih =>
    unfold Sys.migrate
    split
    · split
      · exact ih (hone h ‹_›)
      · exact h
    · exact h

/-- What every single move of a process keeps, `balance_load` keeps. -/
theorem balanceLoad_induction {P : Sys → Prop}
    (hone : ∀ ⦃s : Sys⦄ ⦃cpu : Nat⦄ ⦃idx : Fin 5⦄ ⦃pid : Pid⦄ ⦃queue : PriorityQueue⦄, P s →
      ((s.sched cpu).queues idx).pop = (some pid, queue) → P (s.migrateOne cpu idx pid queue)) (h : P s) :
    P s.balanceLoad := by
  unfold Sys.balanceLoad
  dsimp only
  split_ifs
  · exact h
  · exact h
  refine foldlRecOn _ _ h fun s hs cpu _ => ?_
  unfold relieve
  dsimp only
  split_ifs
  · exact foldlRecOn _ _ hs fun s hs idx _ => migrate_induction hone cpu idx _ _ _ hs
  · exact hs

theorem QueueInv.balanceLoad (h : QueueInv n s) (ha : Apart s) : QueueInv n s.balanceLoad :=
  (balanceLoad_induction (P := fun s => QueueInv n s ∧ Apart s) (fun _ _ _ _ _ hs hpop => hs.1.migrateOne hs.2 hpop)
    ⟨h, ha⟩).1

end

/-! ### Runs -/

/-- A call of the scheduler on one of the CPUs `0, …, n`. -/
inductive SchedCall (n : Nat)
  | addToSchedulerWithPriority (pid : Pid) (priority : PriorityClass)
  | removeFromScheduler (pid : Pid)
  | schedule (cpu : Fin (n + 1))
  | switchToProcess (pid : Pid)
  | yieldCpu (cpu : Fin (n + 1))
  | setPriority (pid : Pid) (priority : PriorityClass)
  | setIntent (pid : Pid) (intent : ProcessIntent)
  | balanceLoad
  deriving DecidableEq

variable {n : Nat}

def call (s : Sys) (c : SchedCall n) : Sys :=
  if s.panicked then s
  else
    match c with
    | .addToSchedulerWithPriority pid priority => s.addToSchedulerWithPriority pid priority
    | .removeFromScheduler pid => s.dequeueAll pid
    | .schedule cpu => (s.schedule cpu).2
    | .switchToProcess pid => s.switchToProcess pid
    | .yieldCpu cpu => s.yieldCpu cpu
    | .setPriority pid priority => s.setPriority pid priority
    | .setIntent pid intent => s.setIntent pid intent
    | .balanceLoad => s.balanceLoad

def added : List (SchedCall n) → List Pid :=
  List.filterMap fun | .addToSchedulerWithPriority pid _ => some pid | _ => none

/-- A call that queues a process finds it in no other queue than the one it goes to, and the process is not the current
one of another CPU; nothing is balanced while a current process is queued. -/
def Orderly (s : Sys) : SchedCall n → Prop
  | .addToSchedulerWithPriority pid _ => NotQueued s pid ∧ (n = 0 ∨ NotCurrent s pid)
  | .setPriority pid _ => n = 0 ∨ NotCurrent s pid
  | .schedule cpu =>
    ∀ pid ∈ (s.sched cpu).current, ∀ proc ∈ s.table.get pid, OnlyAt s pid (cpu, proc.priority.index)
  | .yieldCpu cpu =>
    ∀ pid ∈ s.getCurrentPid, ∀ proc ∈ s.table.get pid,
      OnlyAt s pid (cpu, proc.priority.index) ∧ ∀ c < s.cpuCount, (s.sched c).current = some pid → c = cpu
  | .balanceLoad => Apart s
  | .removeFromScheduler _ | .switchToProcess _ | .setIntent _ _ => True

instance (s : Sys) (pid : Pid) (k : Nat × Fin 5) : Decidable (OnlyAt s pid k) :=
  inferInstanceAs (Decidable (∀ _ < _, ∀ _, _ → _))

instance (s : Sys) (pid : Pid) : Decidable (NotQueued s pid) := inferInstanceAs (Decidable (∀ _ < _, ∀ _, _))

instance (s : Sys) (pid : Pid) : Decidable (NotCurrent s pid) := inferInstanceAs (Decidable (∀ _ < _, _))

instance (s : Sys) : Decidable (Apart s) := @Nat.decidableBallLT _ _ fun _ _ => Option.decidableForallMem _

instance (s : Sys) (c : SchedCall n) : Decidable (Orderly s c) :=
  match c with
  | .addToSchedulerWithPriority _ _ => inferInstanceAs (Decidable (NotQueued _ _ ∧ (_ ∨ NotCurrent _ _)))
  | .setPriority _ _ => inferInstanceAs (Decidable (_ ∨ NotCurrent _ _))
  | .schedule _ | .yieldCpu _ => Option.decidableForallMem _
  | .balanceLoad => inferInstanceAs (Decidable (Apart _))
  | .removeFromScheduler _ | .switchToProcess _ | .setIntent _ _ => isTrue trivial

variable {s : Sys} {pid : Pid}

theorem QueueInv.add (h : QueueInv n s) (hp : ∀ k, pid ∉ s.place k) (hcur : n = 0 ∨ NotCurrent s pid)
    (priority : PriorityClass) : QueueInv n (s.addToSchedulerWithPriority pid priority) := by
  have hcpus := h.cpus
  have hle : ∀ target ≤ n, s.preferredCpu pid target ≤ n := by
    intro target ht
    unfold preferredCpu
    split
    · split
      · exact ht
      · cases haff : s.affinityCpu _ with
        | none => exact ht
        | some c =>
          have hlt : c < s.cpuCount := mem_range.1 (mem_of_find?_eq_some haff)
          simp only [Option.getD_some]
          omega
    · exact ht
  have hl : s.leastLoaded (range s.cpuCount) ≤ n :=
    leastLoaded_le fun c hc => by have := mem_range.1 hc; omega
  refine h.enqueue (hle _ hl) rfl rfl (fun k hk => absurd hk (hp k)) fun c hc => ?_
  rcases hcur with rfl | hnot
  · have := h.current_le hc
    have := hle _ hl
    omega
  · exact absurd hc (h.notCurrent hnot c)

theorem QueueInv.call (h : QueueInv n s) {c : SchedCall n} (hc : Orderly s c) : QueueInv n (s.call c) := by
  unfold Sys.call
  split
  · exact h
  cases c with
  | addToSchedulerWithPriority pid priority =>
    refine h.add (fun k hk => ?_) hc.2 priority
    have hle := h.queued_le hk
    exact hc.1 k.1 (by rw [h.cpus]; omega) k.2 hk
  | removeFromScheduler pid => exact (h.dequeueAll pid).1
  | schedule cpu => exact h.schedule (Nat.le_of_lt_succ cpu.isLt) hc
  | switchToProcess pid =>
    dsimp only [switchToProcess]
    split
    · exact h
    · split <;> exact h.congr rfl rfl
  | yieldCpu cpu =>
    dsimp only [yieldCpu]
    split
    · split
      case h_1 pid hpid _ proc hget =>
        obtain ⟨hat, hcur⟩ := hc pid hpid proc hget
        refine h.enqueue (Nat.le_of_lt_succ cpu.isLt) (by rfl) (by rfl) (h.onlyAt hat) fun c' hc' => hcur c' ?_ hc'
        have := h.current_le hc'
        have := h.cpus
        omega
      case h_2 => exact h.same (by rfl) (by rfl)
    · exact h
  | setPriority pid priority =>
    obtain ⟨hinv, hnone⟩ := h.dequeueAll pid
    have hnot : n = 0 ∨ NotCurrent (s.dequeueAll pid) pid := hc.imp_right fun hnot c _ hcur =>
      h.notCurrent hnot c ((current_dequeueAll pid c).symm.trans hcur)
    have hm : QueueInv n { s.dequeueAll pid with
        table := (s.dequeueAll pid).table.modify pid fun p => { p with priority, timeSlice := priority.timeSlice } } :=
      hinv.congr rfl rfl
    exact hm.add hnone hnot priority
  | setIntent pid intent => exact h.congr rfl rfl
  | balanceLoad => exact h.balanceLoad hc

/-- In every sequence of calls that find the processes they queue in order, each process is in at most one run queue,
and the current process of a CPU is not queued on another. -/
theorem queued_once_of_meets (n : Nat) (table : ProcessTable) (calls : List (SchedCall n))
    (h : Meets call Orderly (boot table (n + 1)) calls) : Always call QueuedOnce (boot table (n + 1)) calls :=
  always_of_meets (I := QueueInv n) (R := fun _ => True) (fun _ hi => hi.toQueuedOnce) (fun _ _ _ hi hc => hi.call hc)
    (queueInv_boot table n) (fun _ _ => trivial) h

/-- A process is added, runs and gives up the CPU; another is added and balanced over two CPUs. -/
def runOrderly : List (SchedCall 1) :=
  [.addToSchedulerWithPriority 1 .normal, .schedule 0, .switchToProcess 1, .yieldCpu 0, .schedule 0,
    .addToSchedulerWithPriority 2 .background, .addToSchedulerWithPriority 3 .dream, .setPriority 2 .interactive,
    .setIntent 1 .graphics, .balanceLoad, .schedule 1]

theorem queued_once_of_meets_runOrderly :
    Meets call Orderly (boot oneProcess 2) runOrderly ∧ Always call QueuedOnce (boot oneProcess 2) runOrderly := by
  have hm : Meets call Orderly (boot oneProcess 2) runOrderly := by decide +kernel
  exact ⟨hm, queued_once_of_meets 1 oneProcess runOrderly hm⟩

/-- A process gives up the CPU twice, and between the two calls declares that it serves a user. -/
def runTwice : List (SchedCall 0) :=
  [.addToSchedulerWithPriority 1 .normal, .schedule 0, .switchToProcess 1, .yieldCpu 0, .setIntent 1 .interactive,
    .yieldCpu 0]

theorem queued_twice :
    ¬ ∀ (n : Nat) (table : ProcessTable) (calls : List (SchedCall n)), (added calls).Nodup →
      Always call QueuedOnce (boot table (n + 1)) calls := by
  intro h
  have honce := (h 0 oneProcess runTwice (by decide)).run.once
  have hn : (run call (boot oneProcess 1) runTwice).place (0, 2) = [1] := by decide +kernel
  have hi : (run call (boot oneProcess 1) runTwice).place (0, 1) = [1] := by decide +kernel
  have heq := honce.eq (a := 1) (by rw [hn]; simp) (by rw [hi]; simp)
  exact absurd heq (by decide)

end Sys

end AstralOS.Proc
