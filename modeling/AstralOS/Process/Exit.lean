import AstralOS.Process.States

/-!
# Exit

`exit_process` makes the running process a zombie.  The history of a run records for which processes it has done so, and
`exit_final_iff` says when they stay zombies: exactly in the runs in which no later section of `switch_to_process`, of
`wait` or of a wake writes the state of such a process.  The code does not see to that; after the last section of
`exit_process` the process is still the current one and is queued again, and the next switch makes it ready.
-/

namespace AstralOS.Proc

/-- A run with the processes that `exit_process` has made zombies so far; no step reads them. -/
structure History where
  sys : Sys
  exited : List Pid

namespace History

def boot (table : ProcessTable) (cpuCount : Nat) : History := ⟨.boot table cpuCount, []⟩

def exits (s : Sys) (a : Action) : List Pid :=
  ((s.writes a).filter fun w => w.2 = .zombie ∧ s.stateOf w.1 ≠ none).map (·.1)

def step (h : History) (a : Action) : History := ⟨h.sys.step a, h.exited ++ exits h.sys a⟩

def Final (h : History) : Prop := ∀ pid ∈ h.exited, ∀ proc, h.sys.table.get pid = some proc → proc.state = .zombie

/-- The step writes no other state to a process that has exited. -/
def Spares (h : History) (a : Action) : Prop := ∀ w ∈ h.sys.writes a, w.1 ∈ h.exited → w.2 = .zombie

instance (h : History) (a : Action) : Decidable (h.Spares a) := inferInstanceAs (Decidable (∀ w ∈ _, _ → _))

variable {h : History}

/-- Who has exited is in the table as a zombie. -/
def Inv (h : History) : Prop := ∀ pid ∈ h.exited, h.sys.stateOf pid = some .zombie

theorem Inv.final (hi : h.Inv) : h.Final := by
  intro pid hpid proc hget
  have hst : h.sys.stateOf pid = some proc.state := Sys.stateOf_eq_some_iff.2 ⟨proc, hget, rfl⟩
  exact Option.some.inj (hst.symm.trans (hi pid hpid))

theorem zombie_of_mem_writes {s : Sys} {a : Action} {pid : Pid} (h : (pid, .zombie) ∈ s.writes a)
    {st : ProcessState} (hst : (pid, st) ∈ s.writes a) : st = .zombie := by
  cases a with
  | advance i =>
    simp only [Sys.writes] at h hst
    split at h
    · simp at h
    · rename_i hp
      rw [if_neg hp] at hst
      cases ht : s.tasks[i]? with
      | none => simp [ht] at h
      | some t =>
        rw [ht] at h hst
        cases t <;> simp [Task.writes] at h hst
        exact hst.2
  | schedule | yieldCpu | exitProcess | wait | wakeOne | wakeAll | addToScheduler | removeFromScheduler =>
    simp [Sys.writes] at h

theorem mem_exits {s : Sys} {a : Action} {pid : Pid} :
    pid ∈ exits s a ↔ (pid, .zombie) ∈ s.writes a ∧ s.stateOf pid ≠ none := by
  simp [exits, List.mem_map, List.mem_filter, decide_eq_true_eq]

theorem Inv.step (hi : h.Inv) {a : Action} (ha : h.Spares a) : (h.step a).Inv := by
  intro pid hpid
  have hstep : (h.sys.step a).stateOf pid = stateAfter pid (h.sys.writes a) (h.sys.stateOf pid) := Sys.stateOf_step a
  have hsome : h.sys.stateOf pid ≠ none := by
    rcases List.mem_append.1 hpid with hold | hnew
    · simp [hi pid hold]
    · exact (mem_exits.1 hnew).2
  obtain ⟨st, hst⟩ := Option.ne_none_iff_exists'.1 (stateAfter_isSome pid (h.sys.writes a) hsome)
  have hz : st = .zombie := by
    rcases stateAfter_cases hst with ⟨hkept, hnone⟩ | ⟨-, hmem⟩ <;> rcases List.mem_append.1 hpid with hold | hnew
    · exact Option.some.inj (hkept.symm.trans (hi pid hold))
    · exact absurd rfl (hnone _ (mem_exits.1 hnew).1)
    · exact ha _ hmem hold
    · exact zombie_of_mem_writes (mem_exits.1 hnew).1 hmem
  exact hstep.trans (hz ▸ hst)

theorem Inv.broken (hi : h.Inv) {a : Action} (ha : ¬ h.Spares a) : ¬ (h.step a).Final := by
  intro hf
  refine ha fun ⟨pid, st⟩ hmem hold => ?_
  have hstep : (h.sys.step a).stateOf pid = stateAfter pid (h.sys.writes a) (h.sys.stateOf pid) := Sys.stateOf_step a
  have hsome : h.sys.stateOf pid ≠ none := by simp [hi pid hold]
  obtain ⟨st', hst'⟩ := Option.ne_none_iff_exists'.1 (stateAfter_isSome pid (h.sys.writes a) hsome)
  obtain ⟨proc, hget, hproc⟩ := Sys.stateOf_eq_some_iff.1 (hstep.trans hst')
  have hz : st' = .zombie := hproc ▸ hf pid (List.mem_append_left _ hold) proc hget
  rcases stateAfter_cases hst' with ⟨-, hnone⟩ | ⟨-, hmem'⟩
  · exact absurd rfl (hnone _ hmem)
  · exact zombie_of_mem_writes (hz ▸ hmem') hmem

/-- In every run from boot, the processes that have exited stay zombies exactly if no section writes another state to
one of them. -/
theorem exit_final_iff (table : ProcessTable) (cpuCount : Nat) (as : List Action) :
    Always step Final (boot table cpuCount) as ↔ Meets step Spares (boot table cpuCount) as :=
  always_iff_meets (I := Inv) (R := fun _ => True) (fun _ hi => hi.final) (fun _ _ _ hi ha => hi.step ha)
    (fun _ _ _ hi ha => hi.broken ha) (fun _ hpid => absurd hpid List.not_mem_nil) (fun _ _ => trivial)

def twoProcesses : ProcessTable :=
  ⟨some (.new 1) :: some (.new 2) :: List.replicate 254 none, 2, by
    rw [List.length_cons, List.length_cons, List.length_replicate]; rfl⟩

/-- Both processes are added to the scheduler, and the first is switched to and exits. -/
def runExit : List Action :=
  [.addToScheduler 1, .advance 0, .advance 0, .advance 0, .advance 0, .addToScheduler 2, .advance 0, .advance 0,
    .advance 0, .advance 0, .schedule 0, .advance 0, .advance 0, .advance 0, .exitProcess 0, .advance 0, .advance 0,
    .advance 0, .advance 0]

/-- The next tick picks the second process, and the switch to it makes the zombie ready. -/
def runTick : List Action := [.schedule 0, .advance 0, .advance 0]

theorem exit_not_final :
    ¬ ∀ (table : ProcessTable) (cpuCount : Nat) (as : List Action), Always step Final (boot table cpuCount) as := by
  intro h
  have hf := (h twoProcesses 1 (runExit ++ runTick)).run
  have hex : (1 : Pid) ∈ (run step (boot twoProcesses 1) (runExit ++ runTick)).exited := by decide +kernel
  have hr : (run step (boot twoProcesses 1) (runExit ++ runTick)).sys.stateOf 1 = some .ready := by decide +kernel
  obtain ⟨proc, hget, hproc⟩ := Sys.stateOf_eq_some_iff.1 hr
  have hz := hf 1 hex proc hget
  rw [hproc] at hz
  cases hz

end History

end AstralOS.Proc
