import AstralOS.Lib.Run
import AstralOS.Process.Scheduler

/-!
# The scheduler and the states of processes

`schedule` hands out what it finds in the run queues and looks at no state.  So it picks runnable processes as long
as the queues hold no others (`Sys.Sound`).  Three kinds of sections can break that: putting a process on a queue that
is blocked or a zombie, blocking a process that is on a queue, and an exit that cannot take the process off a queue.
Every run without such sections schedules runnable processes only (`schedule_runnable_of_meets`); `exit_process` and
`WaitQueue::wait` both end in a `yield_cpu` that is such a section, and `schedule_returns_zombie` is a run with one.
-/

open Function

namespace AstralOS.Proc

/-! ### What is queued -/

def CpuScheduler.Queued (s : CpuScheduler) (pid : Pid) : Prop := ∃ i, pid ∈ (s.queues i).queue

namespace CpuScheduler

variable {s : CpuScheduler} {p q : Pid}

theorem mem_push (queue : PriorityQueue) : q ∈ (queue.push p).queue ↔ q ∈ queue.queue ∨ q = p := by
  unfold PriorityQueue.push
  by_cases h : p ∈ queue.queue
  · rw [if_pos h]
    constructor
    · exact Or.inl
    · intro hq
      rcases hq with hq | rfl
      · exact hq
      · exact h
  · rw [if_neg h]
    simp

theorem queued_enqueue (priority : PriorityClass) : (s.enqueue p priority).Queued q ↔ s.Queued q ∨ q = p := by
  unfold Queued enqueue
  dsimp only
  constructor
  · intro h
    obtain ⟨i, hi⟩ := h
    by_cases hidx : i = priority.index
    · subst hidx
      rw [update_self, mem_push] at hi
      rcases hi with hi | rfl
      · exact Or.inl ⟨_, hi⟩
      · exact Or.inr rfl
    · grind
  · intro h
    rcases h with ⟨i, hi⟩ | rfl
    · refine ⟨i, ?_⟩
      by_cases hidx : i = priority.index
      · simp_all [update_self, mem_push]
      · grind
    · refine ⟨priority.index, ?_⟩
      rw [update_self, mem_push]
      exact Or.inr rfl

theorem mem_dequeueAt (i j : Fin 5) :
    q ∈ ((dequeueAt p s i).queues j).queue ↔ q ∈ (s.queues j).queue ∧ (j = i → q ≠ p) := by
  unfold dequeueAt
  dsimp only
  by_cases h : j = i
  · subst h
    simp [PriorityQueue.remove]
  · simp [h]

theorem mem_foldl_dequeueAt (is : List (Fin 5)) (j : Fin 5) :
    q ∈ ((is.foldl (dequeueAt p) s).queues j).queue ↔ q ∈ (s.queues j).queue ∧ (j ∈ is → q ≠ p) := by
  induction is generalizing s with
  | nil => simp
  | cons i is ih =>
    rw [List.foldl_cons, ih, mem_dequeueAt, List.mem_cons]
    tauto

theorem queued_dequeue : (s.dequeue p).Queued q ↔ s.Queued q ∧ q ≠ p := by
  simp [Queued, dequeue, mem_foldl_dequeueAt, List.mem_finRange]

theorem pickNext_spec (s : CpuScheduler) (idle : Bool) :
    (∀ p, (s.pickNext idle).1 = some p → s.Queued p) ∧ ∀ q, (s.pickNext idle).2.Queued q → s.Queued q := by
  have hpop : ∀ i q, q ∈ ((s.queues i).pop).2.queue → q ∈ (s.queues i).queue := fun i q h => List.mem_of_mem_tail h
  have hupd : ∀ i j q, q ∈ (update s.queues i ((s.queues i).pop).2 j).queue → q ∈ (s.queues j).queue := by
    intro i j q hq
    by_cases hj : j = i
    · simp_all [update_self]
    · rwa [update_of_ne hj] at hq
  unfold pickNext
  by_cases h0 : s.activeBitmap = 0
  · simp [h0]
  rw [if_neg h0]
  by_cases h5 : trailingZeros s.activeBitmap < 5
  · rw [dif_pos h5]
    dsimp only
    by_cases hd : (⟨_, h5⟩ : Fin 5) = PriorityClass.dream.index ∧ idle = false
    · simp [hd]
    · rw [if_neg hd]
      cases hpid : ((s.queues ⟨_, h5⟩).pop).1 with
      | none =>
        refine ⟨(fun p hp => by cases hp), fun q hq => ?_⟩
        obtain ⟨j, hj⟩ := hq
        exact ⟨j, hupd _ j q hj⟩
      | some pid =>
        refine ⟨fun p hp => ?_, fun q hq => ?_⟩
        · cases hp
          exact ⟨_, List.mem_of_mem_head? hpid⟩
        · obtain ⟨j, hj⟩ := hq
          exact ⟨j, hupd _ j q hj⟩
  · simp [h5]

theorem queued_congr {s' : CpuScheduler} (h : s'.queues = s.queues) : s'.Queued q ↔ s.Queued q := by
  unfold Queued
  rw [h]

end CpuScheduler

/-! ### The invariant -/

namespace Sys

def RunnablePid (table : ProcessTable) (pid : Pid) : Prop :=
  ∀ proc, table.get pid = some proc → proc.state.Runnable

def Sound (s : Sys) : Prop := ∀ cpu pid, (s.sched cpu).Queued pid → RunnablePid s.table pid

/-- Whatever `schedule` returns now, on any CPU, is a process that may run. -/
def SchedulesRunnable (s : Sys) : Prop :=
  ∀ cpu pid, (s.schedule cpu).1 = some pid → RunnablePid (s.schedule cpu).2.table pid

def Careful (s : Sys) : Task → Prop
  | .yieldEnqueue _ pid => RunnablePid s.table pid
  | .addEnqueue pid _ _ => RunnablePid s.table pid
  | .waitBlock _ pid => ∀ cpu, ¬ (s.sched cpu).Queued pid
  | .exitMark _ pid => ∀ cpu, s.cpuCount ≤ cpu → ¬ (s.sched cpu).Queued pid
  | _ => True

/-- The next section of the call that advances is careful; other steps only start calls or schedule. -/
def CarefulStep (s : Sys) : Action → Prop
  | .advance i => ∀ t, s.tasks[i]? = some t → s.Careful t
  | _ => True

variable {s : Sys}

theorem sound_boot (table : ProcessTable) (cpuCount : Nat) : Sound (boot table cpuCount) := by
  intro cpu pid h
  obtain ⟨i, hi⟩ := h
  exact (List.not_mem_nil hi).elim

variable {sched : CpuScheduler}

theorem Sound.setSched (h : Sound s) {cpu : Nat}
    (hq : ∀ pid, sched.Queued pid → (s.sched cpu).Queued pid ∨ RunnablePid s.table pid) :
    Sound (s.setSched cpu sched) := by
  intro c pid hc
  unfold Sys.setSched at hc ⊢
  dsimp only at hc ⊢
  by_cases hcc : c = cpu
  · subst hcc
    rw [update_self] at hc
    rcases hq pid hc with hold | hrun
    · exact h c pid hold
    · exact hrun
  · rw [update_of_ne hcc] at hc
    exact h c pid hc

variable {table : ProcessTable}

theorem Sound.setTable (h : Sound s)
    (ht : ∀ cpu pid, (s.sched cpu).Queued pid → RunnablePid s.table pid → RunnablePid table pid) :
    Sound { s with table } := by
  intro cpu pid hq
  exact ht cpu pid hq (h cpu pid hq)

variable {pid q : Pid}

theorem runnablePid_modify {f : Process → Process}
    (hf : ∀ p, (f p).pid = p.pid) (hrun : ∀ p, (f p).state.Runnable) (h : RunnablePid table q) :
    RunnablePid (table.modify pid f) q := by
  intro proc hp
  rw [ProcessTable.get_modify hf] at hp
  by_cases hq : q = pid
  · grind [Option.map_eq_some_iff]
  · rw [if_neg hq] at hp
    exact h proc hp

theorem runnablePid_modify_ne {f : Process → Process}
    (hf : ∀ p, (f p).pid = p.pid) (hne : q ≠ pid) (h : RunnablePid table q) : RunnablePid (table.modify pid f) q := by
  intro proc hp
  rw [ProcessTable.get_modify hf, if_neg hne] at hp
  exact h proc hp

theorem runnablePid_setState {state : ProcessState}
    (hrun : state.Runnable) (h : RunnablePid table q) : RunnablePid (table.setState pid state) q :=
  runnablePid_modify (fun _ => rfl) (fun _ => hrun) h

theorem runnable_ready : ProcessState.ready.Runnable := by decide

theorem runnable_running : ProcessState.running.Runnable := by decide

theorem runnablePid_of_get {proc : Process} (hget : table.get pid = some proc)
    (hrun : proc.state.Runnable) : RunnablePid table pid := by
  intro p hp
  rw [hget] at hp
  cases hp
  exact hrun

/-! ### Scheduling -/

theorem queued_requeueCurrent
    (h : (requeueCurrent table sched).Queued pid) : sched.Queued pid ∨ RunnablePid table pid := by
  unfold requeueCurrent at h
  cases hcur : sched.current with
  | none =>
    rw [hcur] at h
    exact Or.inl h
  | some current =>
    rw [hcur] at h
    dsimp only at h
    cases hget : table.get current with
    | none =>
      rw [hget] at h
      exact Or.inl h
    | some proc =>
      rw [hget] at h
      dsimp only at h
      by_cases hst : proc.state = ProcessState.running ∨ proc.state = ProcessState.ready
      · rw [if_pos hst, CpuScheduler.queued_enqueue] at h
        rcases h with h | rfl
        · exact Or.inl h
        · refine Or.inr (runnablePid_of_get hget ?_)
          rcases hst with hst | hst
          · rw [hst]
            exact runnable_running
          · rw [hst]
            exact runnable_ready
      · rw [if_neg hst] at h
        exact Or.inl h

theorem reschedule_spec (h : Sound s) {cpu : Nat} (hq : sched.queues = (s.sched cpu).queues) :
    (∀ pid, (s.reschedule cpu sched).1 = some pid → RunnablePid s.table pid) ∧
      (s.reschedule cpu sched).2.table = s.table ∧ Sound (s.reschedule cpu sched).2 := by
  obtain ⟨hpick, hrest⟩ := (requeueCurrent s.table sched).pickNext_spec s.systemIdle
  have hold : ∀ pid, (requeueCurrent s.table sched).Queued pid → (s.sched cpu).Queued pid ∨ RunnablePid s.table pid := by
    intro pid hp
    rcases queued_requeueCurrent hp with hp | hp
    · exact Or.inl ((CpuScheduler.queued_congr hq).1 hp)
    · exact Or.inr hp
  unfold reschedule
  dsimp only
  cases hnext : ((requeueCurrent s.table sched).pickNext s.systemIdle).1.bind s.table.get with
  | none =>
    refine ⟨(fun pid hp => by cases hp), rfl, ?_⟩
    exact Sound.setSched h fun pid hp => hold pid (hrest pid hp)
  | some proc =>
    refine ⟨fun pid hp => ?_, rfl, ?_⟩
    · rcases hold pid (hpick pid hp) with hp | hp
      · exact h cpu pid hp
      · exact hp
    · exact Sound.setSched h fun pid hp => hold pid (hrest pid hp)

theorem schedule_spec (h : Sound s) (cpu : Nat) :
    (∀ pid, (s.schedule cpu).1 = some pid → RunnablePid s.table pid) ∧
      (s.schedule cpu).2.table = s.table ∧ Sound (s.schedule cpu).2 := by
  unfold schedule
  dsimp only
  by_cases hts : (s.sched cpu).timeSlice > 0
  · rw [if_pos hts]
    cases hget : (s.sched cpu).current.bind s.table.get with
    | none => exact reschedule_spec h rfl
    | some proc =>
      dsimp only
      by_cases hrun : (s.sched cpu).timeSlice - 1 > 0 ∧ proc.state = ProcessState.running
      · rw [if_pos hrun]
        refine ⟨fun pid hp => ?_, rfl, h.setSched fun pid hp => Or.inl hp⟩
        dsimp only at hp
        rw [hp, Option.bind_some] at hget
        refine runnablePid_of_get hget ?_
        rw [hrun.2]
        exact runnable_running
      · rw [if_neg hrun]
        exact reschedule_spec h rfl
  · rw [if_neg hts]
    exact reschedule_spec h rfl

theorem Sound.schedulesRunnable (h : Sound s) : SchedulesRunnable s := by
  intro cpu pid hp
  obtain ⟨hrun, ht, -⟩ := schedule_spec h cpu
  rw [ht]
  exact hrun pid hp

/-! ### The sections of the other calls -/

theorem queued_dequeue_foldl (pid : Pid) (cpus : List Nat) :
    (cpus.foldl (fun s c => s.setSched c ((s.sched c).dequeue pid)) s).table = s.table ∧
      ∀ cpu q, ((cpus.foldl (fun s c => s.setSched c ((s.sched c).dequeue pid)) s).sched cpu).Queued q →
        (s.sched cpu).Queued q ∧ (cpu ∈ cpus → q ≠ pid) := by
  induction cpus generalizing s with
  | nil => exact ⟨rfl, fun cpu q h => ⟨h, by simp⟩⟩
  | cons c cpus ih =>
    obtain ⟨ht, hq⟩ := ih (s := s.setSched c ((s.sched c).dequeue pid))
    refine ⟨ht, fun cpu q h => ?_⟩
    obtain ⟨hold, hne⟩ := hq cpu q h
    unfold Sys.setSched at hold
    by_cases hcpu : cpu = c
    · simp_all [update_self, CpuScheduler.queued_dequeue]
    · simp_all

theorem dequeueAll_spec (s : Sys) (pid : Pid) :
    (s.dequeueAll pid).table = s.table ∧
      ∀ cpu q, ((s.dequeueAll pid).sched cpu).Queued q → (s.sched cpu).Queued q ∧ (cpu < s.cpuCount → q ≠ pid) := by
  obtain ⟨ht, hq⟩ := queued_dequeue_foldl (s := s) pid (List.range s.cpuCount)
  refine ⟨ht, fun cpu q h => ?_⟩
  obtain ⟨hold, hne⟩ := hq cpu q h
  exact ⟨hold, fun hlt => hne (List.mem_range.2 hlt)⟩

theorem Sound.exitMark (h : Sound s) (hc : ∀ cpu, s.cpuCount ≤ cpu → ¬ (s.sched cpu).Queued pid) :
    Sound ({ s with table := s.table.setState pid .zombie }.dequeueAll pid) := by
  obtain ⟨ht, hq⟩ := dequeueAll_spec { s with table := s.table.setState pid .zombie } pid
  intro cpu q hqu
  obtain ⟨hold, hlt⟩ := hq cpu q hqu
  have hne : q ≠ pid := by
    by_cases hcpu : cpu < s.cpuCount
    · exact hlt hcpu
    · grind
  rw [ht]
  exact runnablePid_modify_ne (fun _ => rfl) hne (h cpu q hold)

theorem runnablePid_wake (pids : List Pid) (h : RunnablePid table q) : RunnablePid
      (pids.foldl (fun t pid => t.modify pid fun p => { p with state := .ready, waitReason := 0 }) table) q := by
  induction pids generalizing table with
  | nil => exact h
  | cons pid pids ih => exact ih (runnablePid_modify (fun _ => rfl) (fun _ => runnable_ready) h)

theorem runnablePid_leave (current : Option Pid) (h : RunnablePid table q) :
    RunnablePid (table.leave current) q := by
  cases current with
  | none => exact h
  | some cur => exact runnablePid_setState runnable_ready h

theorem Sound.congr {s' : Sys} (h : Sound s) (hs : s'.sched = s.sched) (ht : s'.table = s.table) : Sound s' := by
  intro cpu pid hq
  rw [hs] at hq
  rw [ht]
  exact h cpu pid hq

theorem Sound.enqueue (h : Sound s) {cpu : Nat} {priority : PriorityClass}
    (hs : ∀ q, sched.Queued q → (s.sched cpu).Queued q) (hrun : RunnablePid s.table pid) :
    Sound (s.setSched cpu (sched.enqueue pid priority)) := by
  refine h.setSched fun q hq => ?_
  rcases (CpuScheduler.queued_enqueue _).1 hq with hq | rfl
  · exact Or.inl (hs q hq)
  · exact Or.inr hrun

theorem Sound.advance (h : Sound s) {t : Task} (hc : s.Careful t) : Sound (s.advance t).1 := by
  cases t with
  | switchLoad _ | yieldLoad _ | exitLoad _ | wakePop _ | addLoad _ _ _ _ _ | addAffinity _ _ _ =>
    -- none of these changes the queues or the table
    simp only [Sys.advance]
    repeat' split
    all_goals exact h
  | switchSet _ | waitPush _ _ _ | wakeDrain _ => exact h
  | switchMark current new =>
    simp only [Sys.advance]
    have hl : Sound { s with table := s.table.leave current } :=
      h.setTable fun cpu pid _ hrun => runnablePid_leave current hrun
    cases (s.table.leave current).get new with
    | none => exact hl.congr rfl rfl
    | some p => exact hl.setTable fun cpu pid _ hrun => runnablePid_setState runnable_running hrun
  | yieldEnqueue cpu pid =>
    simp only [Sys.advance]
    cases s.table.get pid with
    | none => exact h.setSched fun q hq => Or.inl hq
    | some proc => exact h.enqueue (fun _ hq => hq) hc
  | exitMark cpu pid =>
    simp only [Sys.advance]
    cases s.table.get pid with
    | none => exact h
    | some proc => exact h.exitMark hc
  | waitBlock cpu pid =>
    refine h.setTable fun c q hq hrun => runnablePid_modify_ne (fun _ => rfl) ?_ hrun
    intro heq
    subst heq
    exact hc c hq
  | wakeReady pids => exact h.setTable fun _ _ _ hrun => runnablePid_wake pids hrun
  | addEnqueue pid priority target => exact h.enqueue (fun _ hq => hq) hc
  | removeFrom pid cpu =>
    simp only [Sys.advance]
    by_cases hcpu : cpu < s.cpuCount
    · rw [if_pos hcpu]
      exact h.setSched fun q hq => Or.inl (CpuScheduler.queued_dequeue.1 hq).1
    · rw [if_neg hcpu]
      exact h

theorem Sound.step (h : Sound s) {a : Action} (ha : s.CarefulStep a) : Sound (s.step a) := by
  unfold Sys.step
  by_cases hp : s.panicked = true
  · rw [if_pos hp]
    exact h
  rw [if_neg hp]
  cases a with
  | schedule cpu =>
    obtain ⟨-, -, hs⟩ := schedule_spec h cpu
    dsimp only
    revert hs
    generalize s.schedule cpu = r
    intro hs
    obtain ⟨next, s'⟩ := r
    cases next with
    | none => exact hs
    | some pid => exact hs.congr rfl rfl
  | advance i =>
    dsimp only
    unfold Sys.advanceAt
    cases ht : s.tasks[i]? with
    | none => exact h
    | some t =>
      have hs := h.advance (ha t ht)
      dsimp only
      revert hs
      generalize s.advance t = r
      intro hs
      obtain ⟨s', next⟩ := r
      cases next with
      | none => exact hs.congr rfl rfl
      | some t' => exact hs.congr rfl rfl
  | yieldCpu _ | exitProcess _ | wait _ _ _ | wakeOne _ | wakeAll _ | addToScheduler _ | removeFromScheduler _ =>
    exact h

/-- In every run from boot whose sections are all careful, `schedule` returns in every state reached only processes
that are neither blocked nor zombies. -/
theorem schedule_runnable_of_meets (table : ProcessTable) (cpuCount : Nat) (as : List Action)
    (h : Meets Sys.step Sys.CarefulStep (boot table cpuCount) as) :
    Always Sys.step SchedulesRunnable (boot table cpuCount) as :=
  always_of_meets (R := fun _ => True) (fun _ hs => hs.schedulesRunnable) (fun _ _ _ hs ha => hs.step ha)
    (sound_boot table cpuCount) (fun _ _ => trivial) h

def oneProcess : ProcessTable :=
  ⟨some (.new 1) :: List.replicate 255 none, 1, by rw [List.length_cons, List.length_replicate]; rfl⟩

def runFirst : List Action :=
  [.addToScheduler 1, .advance 0, .advance 0, .advance 0, .advance 0, .schedule 0, .advance 0, .advance 0, .advance 0]

theorem carefulStep_advance {i : Nat} {t : Task} (ht : s.tasks[i]? = some t) (hc : s.Careful t) :
    s.CarefulStep (.advance i) := by
  intro t' ht'
  rw [ht] at ht'
  cases ht'
  exact hc

theorem meets_runFirst : Meets Sys.step Sys.CarefulStep (boot oneProcess 1) runFirst := by
  refine ⟨trivial,
    carefulStep_advance (t := .addLoad 1 .normal 0 (2 ^ 64 - 1) 0) (by decide +kernel) trivial,
    carefulStep_advance (t := .addLoad 1 .normal 1 0 0) (by decide +kernel) trivial,
    carefulStep_advance (t := .addAffinity 1 .normal 0) (by decide +kernel) trivial,
    carefulStep_advance (t := .addEnqueue 1 .normal 0) (by decide +kernel) ?_, trivial,
    carefulStep_advance (t := .switchLoad 1) (by decide +kernel) trivial,
    carefulStep_advance (t := .switchMark none 1) (by decide +kernel) trivial,
    carefulStep_advance (t := .switchSet 1) (by decide +kernel) trivial, trivial⟩
  have hget : (run Sys.step (boot oneProcess 1) (runFirst.take 4)).table.get 1 = some (.new 1) := by decide +kernel
  exact runnablePid_of_get hget (by decide)

theorem schedule_runnable_of_meets_runFirst :
    Meets Sys.step Sys.CarefulStep (boot oneProcess 1) runFirst ∧
      Always Sys.step SchedulesRunnable (boot oneProcess 1) runFirst :=
  ⟨meets_runFirst, schedule_runnable_of_meets oneProcess 1 runFirst meets_runFirst⟩

def runExit : List Action := [.exitProcess 0, .advance 0, .advance 0, .advance 0, .advance 0]

/-- The run queue then holds the zombie, and `schedule` returns it. -/
theorem schedule_returns_zombie :
    ¬ ∀ (table : ProcessTable) (cpuCount : Nat) (as : List Action),
      Always Sys.step SchedulesRunnable (boot table cpuCount) as := by
  intro h
  have hrun := (h oneProcess 1 (runFirst ++ runExit)).run
  have hpid : ((run Sys.step (boot oneProcess 1) (runFirst ++ runExit)).schedule 0).1 = some 1 := by decide +kernel
  have hget : (((run Sys.step (boot oneProcess 1) (runFirst ++ runExit)).schedule 0).2.table.get 1).map Process.state =
      some .zombie := by decide +kernel
  obtain ⟨proc, hproc, hs⟩ := Option.map_eq_some_iff.1 hget
  have := hrun 0 1 hpid proc hproc
  rw [hs] at this
  exact this.2 rfl

end Sys

end AstralOS.Proc
