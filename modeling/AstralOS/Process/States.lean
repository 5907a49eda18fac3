import AstralOS.Process.Runnable

/-!
# Who writes the state of a process

Every section of the scheduler, of the wait queues and of `exit_process` that touches the process table writes states
of processes there, on behalf of the running process or of another one.  `Task.writes` lists these writes in order and
`stateOf_step` says that they are all a step does to the states: the last write of a process counts, and a process
that is not written keeps its state.
-/

namespace AstralOS.Proc

def Task.writes : Task → List (Pid × ProcessState)
  | .switchMark current new => current.toList.map (·, .ready) ++ [(new, .running)]
  | .exitMark _ pid => [(pid, .zombie)]
  | .waitBlock _ pid => [(pid, .blocked)]
  | .wakeReady pids => pids.map (·, .ready)
  | _ => []

def stateAfter (pid : Pid) (writes : List (Pid × ProcessState)) (state : Option ProcessState) : Option ProcessState :=
  writes.foldl (fun state w => if pid = w.1 then state.map fun _ => w.2 else state) state

section
variable {pid : Pid} {writes : List (Pid × ProcessState)}

@[simp] theorem stateAfter_nil (state : Option ProcessState) : stateAfter pid [] state = state := rfl

@[simp] theorem stateAfter_cons (w : Pid × ProcessState) (state : Option ProcessState) :
    stateAfter pid (w :: writes) state = stateAfter pid writes (if pid = w.1 then state.map fun _ => w.2 else state) :=
  rfl

@[simp] theorem stateAfter_append (ws : List (Pid × ProcessState)) (state : Option ProcessState) :
    stateAfter pid (ws ++ writes) state = stateAfter pid writes (stateAfter pid ws state) :=
  List.foldl_append

@[simp] theorem stateAfter_none : stateAfter pid writes none = none := by
  induction writes with
  | nil => rfl
  | cons w ws ih => simp [ih]

theorem stateAfter_of_not_mem {state : Option ProcessState} (h : ∀ w ∈ writes, w.1 ≠ pid) :
    stateAfter pid writes state = state := by
  induction writes generalizing state with
  | nil => rfl
  | cons w ws ih =>
    grind [stateAfter_cons]

theorem stateAfter_cases {state : Option ProcessState} {st : ProcessState} (h : stateAfter pid writes state = some st) :
    state = some st ∧ (∀ w ∈ writes, w.1 ≠ pid) ∨ state ≠ none ∧ (pid, st) ∈ writes := by
  induction writes generalizing state with
  | nil => exact .inl ⟨h, by simp⟩
  | cons w ws ih =>
    rw [stateAfter_cons] at h
    by_cases hpid : pid = w.1
    · rw [if_pos hpid] at h
      rcases ih h with ⟨hst, -⟩ | ⟨hne, hmem⟩
      · obtain ⟨old, hold, hw⟩ := Option.map_eq_some_iff.1 hst
        grind
      · exact .inr ⟨by simpa using hne, List.mem_cons_of_mem _ hmem⟩
    · rw [if_neg hpid] at h
      rcases ih h with ⟨hst, hnone⟩ | ⟨hne, hmem⟩
      · refine .inl ⟨hst, fun w' hw' => ?_⟩
        rcases List.mem_cons.1 hw' with rfl | hw'
        · exact fun heq => hpid heq.symm
        · exact hnone w' hw'
      · exact .inr ⟨hne, List.mem_cons_of_mem _ hmem⟩

theorem stateAfter_isSome (pid : Pid) (writes : List (Pid × ProcessState)) {state : Option ProcessState}
    (h : state ≠ none) : stateAfter pid writes state ≠ none := by
  induction writes generalizing state with
  | nil => exact h
  | cons w ws ih =>
    rw [stateAfter_cons]
    split
    · exact ih (by simpa using h)
    · exact ih h

end

def ProcessTable.stateOf (t : ProcessTable) (pid : Pid) : Option ProcessState := (t.get pid).map (·.state)

namespace ProcessTable

variable {t : ProcessTable} {pid : Pid}

theorem stateOf_modify {q : Pid} {f : Process → Process} {st : ProcessState} (hf : ∀ p, (f p).pid = p.pid)
    (hst : ∀ p, (f p).state = st) : (t.modify q f).stateOf pid = stateAfter pid [(q, st)] (t.stateOf pid) := by
  unfold stateOf
  rw [get_modify hf, stateAfter_cons, stateAfter_nil]
  by_cases h : pid = q
  · rw [if_pos h, if_pos h, Option.map_map, Option.map_map]
    exact Option.map_congr fun p _ => hst p
  · rw [if_neg h, if_neg h]

theorem stateOf_setState (q : Pid) (st : ProcessState) :
    (t.setState q st).stateOf pid = stateAfter pid [(q, st)] (t.stateOf pid) :=
  stateOf_modify (fun _ => rfl) fun _ => rfl

theorem stateOf_leave (current : Option Pid) :
    (t.leave current).stateOf pid = stateAfter pid (current.toList.map (·, .ready)) (t.stateOf pid) := by
  cases current with
  | none => rfl
  | some cur => exact stateOf_setState cur .ready

theorem stateOf_wake (pids : List Pid) :
    (pids.foldl (fun t pid => t.modify pid fun p => { p with state := .ready, waitReason := 0 }) t).stateOf pid =
      stateAfter pid (pids.map (·, .ready)) (t.stateOf pid) := by
  induction pids generalizing t with
  | nil => rfl
  | cons q pids ih =>
    rw [List.foldl_cons, ih]
    exact congrArg (stateAfter pid (pids.map (·, .ready))) (stateOf_modify (fun _ => rfl) fun _ => rfl)

end ProcessTable

namespace Sys

variable {s : Sys} {pid : Pid}

def stateOf (s : Sys) (pid : Pid) : Option ProcessState := s.table.stateOf pid

theorem stateOf_eq_some_iff {st : ProcessState} :
    s.stateOf pid = some st ↔ ∃ proc, s.table.get pid = some proc ∧ proc.state = st :=
  Option.map_eq_some_iff

def writes (s : Sys) : Action → List (Pid × ProcessState)
  | .advance i => if s.panicked then [] else (s.tasks[i]?).elim [] Task.writes
  | _ => []

theorem stateOf_advance (t : Task) : (s.advance t).1.stateOf pid = stateAfter pid t.writes (s.stateOf pid) := by
  cases t with
  | switchMark current new =>
    simp only [Sys.advance, Task.writes, stateAfter_append, ← ProcessTable.stateOf_leave, stateOf]
    cases hnew : (s.table.leave current).get new with
    | none =>
      -- the call panics before it writes: the process it switches to is not in the table
      by_cases hpid : pid = new
      · have hnone : (s.table.leave current).stateOf pid = none := by
          rw [hpid, ProcessTable.stateOf, hnew]
          rfl
        simp [hnone]
      · rw [stateAfter_of_not_mem (by simpa using fun heq => hpid heq.symm)]
    | some p => exact ProcessTable.stateOf_setState new .running
  | exitMark cpu pid' =>
    simp only [Sys.advance, Task.writes]
    cases hget : s.table.get pid' with
    | none =>
      by_cases hpid : pid = pid'
      · have hnone : s.stateOf pid = none := by
          rw [hpid, stateOf, ProcessTable.stateOf, hget]
          rfl
        simp [hnone]
      · rw [stateAfter_of_not_mem (by simpa using fun heq => hpid heq.symm)]
    | some p =>
      obtain ⟨ht, -⟩ := dequeueAll_spec { s with table := s.table.setState pid' .zombie } pid'
      rw [stateOf, ht]
      exact ProcessTable.stateOf_setState pid' .zombie
  | waitBlock cpu pid' => exact ProcessTable.stateOf_modify (fun _ => rfl) fun _ => rfl
  | wakeReady pids => exact ProcessTable.stateOf_wake pids
  | switchLoad | switchSet | yieldLoad | yieldEnqueue | exitLoad | waitPush | wakePop | wakeDrain | addLoad | addAffinity
  | addEnqueue | removeFrom =>
    simp only [Sys.advance, Task.writes, stateAfter_nil]
    first
    | rfl
    | (split <;> first | rfl | (split <;> rfl))

theorem schedule_frame (cpu : Nat) : ∃ sched idleTicks systemIdle,
    (s.schedule cpu).2 = { s with sched, idleTicks, systemIdle } := by
  have hre : ∀ sched, ∃ sched' idleTicks systemIdle,
      (s.reschedule cpu sched).2 = { s with sched := sched', idleTicks, systemIdle } := by
    intro sched
    unfold reschedule
    dsimp only
    split <;> exact ⟨_, _, _, rfl⟩
  unfold schedule
  dsimp only
  split
  · split
    · split
      · exact ⟨_, _, _, rfl⟩
      · exact hre _
    · exact hre _
  · exact hre _

theorem stateOf_step (a : Action) : (s.step a).stateOf pid = stateAfter pid (s.writes a) (s.stateOf pid) := by
  unfold Sys.step
  by_cases hp : s.panicked = true
  · cases a <;> simp [writes, hp]
  rw [if_neg hp]
  cases a with
  | schedule cpu =>
    have hta : (s.schedule cpu).2.table = s.table := by
      obtain ⟨_, _, _, hf⟩ := s.schedule_frame cpu
      rw [hf]
    dsimp only
    revert hta
    generalize s.schedule cpu = r
    intro hta
    obtain ⟨next, s'⟩ := r
    cases next <;> exact congrArg (·.stateOf pid) hta
  | advance i =>
    simp only [writes, if_neg hp, advanceAt]
    cases ht : s.tasks[i]? with
    | none => rfl
    | some t =>
      have hadv : (s.advance t).1.stateOf pid = stateAfter pid t.writes (s.stateOf pid) := stateOf_advance t
      dsimp only
      revert hadv
      generalize s.advance t = r
      intro hadv
      obtain ⟨s', next⟩ := r
      cases next <;> exact hadv
  | yieldCpu | exitProcess | wait | wakeOne | wakeAll | addToScheduler | removeFromScheduler => rfl

end Sys

end AstralOS.Proc
