import AstralOS.Process.States

/-!
# Ready processes and the run queue of one CPU

The calls of one CPU that make a process ready or queue it: `spawn`, the timer tick, `yield_cpu`, and the wait queues.
A tick may fall between any two sections of the other calls.  A ready process that is neither queued nor the current
one of the scheduler never runs again; `ready_kept_of_meets` says that there is none in the states without a call in
progress, blocked waits apart, as long as a switch or a wake makes only such processes ready that are queued, current
or just being added.  A tick between the two sections of `wait` that block the process and queue it again breaks this:
`ready_forgotten`.
-/

open Function List Option

namespace AstralOS.Proc

/-- Which call it is. -/
inductive CallKind
  | spawn
  | tick
  | yieldCpu
  | wait
  | wake
  deriving DecidableEq

/-- A call with the section it takes next, if it is still in progress. -/
structure Call where
  kind : CallKind
  rest : Option Task
  deriving DecidableEq

/-- A `wait` that has blocked its process. -/
def Call.BlockedWait (c : Call) : Prop :=
  c.kind = .wait ∧ ((∃ cpu, c.rest = some (.yieldLoad cpu)) ∨ ∃ cpu pid, c.rest = some (.yieldEnqueue cpu pid))

structure OneCpu where
  sys : Sys
  calls : List Call

/-- A timer tick, the start of another call, or the next section of a call in progress. -/
inductive Event
  | spawn (process : Process) (priority : PriorityClass)
  | tick
  | yieldCpu
  | wait (queue : Nat) (pid : Pid)
  | wakeOne (queue : Nat)
  | wakeAll (queue : Nat)
  | advance (i : Nat)

namespace OneCpu

def boot : OneCpu := ⟨.boot .new 1, []⟩

def start (s : OneCpu) (kind : CallKind) (t : Task) : OneCpu := { s with calls := s.calls ++ [⟨kind, some t⟩] }

def advanceAt (s : OneCpu) (i : Nat) : OneCpu :=
  match s.calls[i]? with
  | some ⟨kind, some t⟩ =>
    let (sys, rest) := s.sys.advance t
    ⟨sys, s.calls.set i ⟨kind, rest⟩⟩
  | _ => s

/-- One step; after a panic nothing happens any more.  `spawn` begins with its section on the table, and the tick with
`schedule`, whose result is handed to `switch_to_process`. -/
def step (s : OneCpu) (e : Event) : OneCpu :=
  if s.sys.panicked then s
  else
    match e with
    | .spawn process priority =>
      match s.sys.table.add process with
      | .ok table =>
        { s with sys := { s.sys with table } }.start .spawn (.addLoad process.pid priority 0 (2 ^ 64 - 1) 0)
      | .error _ => s
    | .tick =>
      match s.sys.schedule 0 with
      | (some pid, sys) => { s with sys }.start .tick (.switchLoad pid)
      | (none, sys) => { s with sys }
    | .yieldCpu => s.start .yieldCpu (.yieldLoad 0)
    | .wait queue pid => s.start .wait (.waitPush 0 queue pid)
    | .wakeOne queue => s.start .wake (.wakePop queue)
    | .wakeAll queue => s.start .wake (.wakeDrain queue)
    | .advance i => s.advanceAt i

def Known (s : Sys) (pid : Pid) : Prop := (s.sched 0).Queued pid ∨ (s.sched 0).current = some pid

def Settled (s : OneCpu) : Prop := ∀ c ∈ s.calls, c.rest ≠ none → c.BlockedWait

/-- When no call is in progress, blocked waits apart, the scheduler knows every ready process. -/
def NoneForgotten (s : OneCpu) : Prop := s.Settled → ∀ pid, s.sys.stateOf pid = some .ready → Known s.sys pid

/-- The process that a section of `add_to_scheduler` is about to queue on this CPU. -/
def adding : Task → Option Pid
  | .addLoad pid _ _ _ target | .addAffinity pid _ target | .addEnqueue pid _ target =>
    if target = 0 then some pid else none
  | _ => none

/-- The process is known to the scheduler or just being added by a call in progress. -/
def Held (s : OneCpu) (pid : Pid) : Prop := Known s.sys pid ∨ ∃ c ∈ s.calls, c.rest.bind adding = some pid

/-- A switch or a wake that makes a process ready finds it held. -/
def Prompt (s : OneCpu) : Event → Prop
  | .advance i => ∀ c ∈ s.calls[i]?, ∀ t ∈ c.rest, ∀ w ∈ t.writes, w.2 = .ready → s.sys.stateOf w.1 ≠ none → s.Held w.1
  | _ => True

instance (s : Sys) (pid : Pid) : Decidable (Known s pid) := inferInstanceAs (Decidable ((∃ _, _ ∈ _) ∨ _))

instance (s : OneCpu) (pid : Pid) : Decidable (s.Held pid) := inferInstanceAs (Decidable (_ ∨ ∃ _ ∈ _, _))

instance (s : OneCpu) (e : Event) : Decidable (s.Prompt e) :=
  match e with
  | .advance _ => inferInstanceAs (Decidable (∀ _ ∈ _, ∀ _ ∈ _, ∀ _ ∈ _, _ → _ → _))
  | .spawn _ _ | .tick | .yieldCpu | .wait _ _ | .wakeOne _ | .wakeAll _ => isTrue trivial

/-! ### What a section does to the run queue -/

variable {s : Sys} {pid : Pid}

/-- The calls of this module remove nothing from the scheduler. -/
def Plain : Task → Prop
  | .exitLoad _ | .exitMark _ _ | .removeFrom _ _ => False
  | _ => True

variable {sched : CpuScheduler}

theorem known_setSched {cpu : Nat}
    (hq : (s.sched cpu).Queued pid → sched.Queued pid) (hc : sched.current = (s.sched cpu).current)
    (h : Known s pid) : Known (s.setSched cpu sched) pid := by
  unfold Known Sys.setSched at *
  dsimp only
  by_cases hcpu : cpu = 0
  · grind
  · rwa [update_of_ne fun heq => hcpu heq.symm]

variable {t : Task}

/-- A section leaves the number of CPUs, goes on to a section of the same kind, and keeps the processes known to the
scheduler. -/
theorem advance_plain (ht : Plain t) :
    (s.advance t).1.cpuCount = s.cpuCount ∧ (∀ t' ∈ (s.advance t).2, Plain t') ∧
      ∀ pid, Known s pid → Known (s.advance t).1 pid := by
  cases t with
  | yieldEnqueue cpu q =>
    simp only [Sys.advance]
    split
    · refine ⟨rfl, by simp, fun pid h => known_setSched (fun hq => ?_) rfl h⟩
      exact (CpuScheduler.queued_enqueue _).2 (.inl hq)
    · exact ⟨rfl, by simp, fun pid h => known_setSched id rfl h⟩
  | addEnqueue q priority target =>
    refine ⟨rfl, by simp [Sys.advance], fun pid h => known_setSched (fun hq => ?_) rfl h⟩
    exact (CpuScheduler.queued_enqueue _).2 (.inl hq)
  | exitLoad | exitMark | removeFrom => exact ht.elim
  | switchSet | waitPush | waitBlock | wakeDrain | wakeReady =>
    exact ⟨rfl, by simp [Sys.advance, Plain], fun _ h => h⟩
  | switchLoad | switchMark | yieldLoad | wakePop =>
    simp only [Sys.advance]
    split <;> exact ⟨rfl, by simp [Plain], fun _ h => h⟩
  | addLoad _ _ _ _ _ | addAffinity _ _ _ =>
    simp only [Sys.advance]
    split
    · split <;> exact ⟨rfl, by simp [Plain], fun _ h => h⟩
    · exact ⟨rfl, by simp [Plain], fun _ h => h⟩

theorem adding_advance (hcpu : s.cpuCount = 1) (ht : adding t = some pid) :
    (s.advance t).2.bind adding = some pid ∨ Known (s.advance t).1 pid := by
  cases t with
  | addLoad p priority cpu minLoad target =>
    simp only [adding, ite_none_right_eq_some, some.injEq] at ht
    obtain ⟨rfl, rfl⟩ := ht
    left
    simp only [Sys.advance]
    split
    · have h0 : cpu = 0 := by omega
      subst h0
      split <;> rfl
    · rfl
  | addAffinity p priority target =>
    simp only [adding, ite_none_right_eq_some, some.injEq] at ht
    obtain ⟨rfl, rfl⟩ := ht
    left
    simp only [Sys.advance]
    split
    · split
      · rfl
      · -- the affinity can only choose the one CPU there is
        have hta : ∀ aff, (s.affinityCpu aff).getD 0 = 0 := by
          intro aff
          cases haff : s.affinityCpu aff with
          | none => rfl
          | some c =>
            have hmem := mem_of_find?_eq_some haff
            simp_all [hcpu]
        simp [adding, hta]
    · rfl
  | addEnqueue p priority target =>
    simp only [adding, ite_none_right_eq_some, some.injEq] at ht
    obtain ⟨rfl, rfl⟩ := ht
    right
    left
    exact (CpuScheduler.queued_enqueue _).2 (.inr rfl)
  | switchLoad | switchMark | switchSet | yieldLoad | yieldEnqueue | exitLoad | exitMark | waitPush | waitBlock | wakePop
  | wakeDrain | wakeReady | removeFrom => simp [adding] at ht

/-! ### What a tick does to the run queue -/

theorem queued_pickNext (idle : Bool) (h : sched.Queued pid) :
    (sched.pickNext idle).1 = some pid ∨ (sched.pickNext idle).2.Queued pid := by
  obtain ⟨i, hi⟩ := h
  -- taking the first process of a queue leaves the others there
  have hpop : ∀ j, (sched.queues j).pop.1 = some pid ∨
      pid ∈ (update sched.queues j (sched.queues j).pop.2 i).queue := by
    intro j
    by_cases hij : i = j
    · subst hij
      cases hq : (sched.queues i).queue with
      | nil =>
        rw [hq] at hi
        cases hi
      | cons p ps =>
        rw [hq] at hi
        rcases mem_cons.1 hi with rfl | hmem
        · left
          simp [PriorityQueue.pop, hq]
        · grind [PriorityQueue.pop]
    · right
      rwa [update_of_ne hij]
  unfold CpuScheduler.pickNext
  split
  · exact .inr ⟨i, hi⟩
  split
  · rename_i h5
    dsimp only
    split
    · exact .inr ⟨i, hi⟩
    · rcases hpop ⟨_, h5⟩ with hhead | hrest
      · left
        simp [hhead]
      · right
        split <;> exact ⟨i, hrest⟩
  · exact .inr ⟨i, hi⟩

variable {table : ProcessTable}

theorem queued_requeueCurrent
    (hr : table.stateOf pid = some .ready) (h : sched.Queued pid ∨ sched.current = some pid) :
    (Sys.requeueCurrent table sched).Queued pid := by
  obtain ⟨proc, hget, hst⟩ := map_eq_some_iff.1 hr
  unfold Sys.requeueCurrent
  rcases h with hq | hcur
  · split
    · split
      · split
        · exact (CpuScheduler.queued_enqueue _).2 (.inl hq)
        · exact hq
      · exact hq
    · exact hq
  · simp only [hcur, hget, hst, or_true, if_true]
    exact (CpuScheduler.queued_enqueue _).2 (.inr rfl)

theorem known_reschedule (hr : s.stateOf pid = some .ready)
    (h : sched.Queued pid ∨ sched.current = some pid) : Known (s.reschedule 0 sched).2 pid := by
  obtain ⟨proc, hget, -⟩ := Sys.stateOf_eq_some_iff.1 hr
  have hpick := queued_pickNext s.systemIdle (queued_requeueCurrent hr h)
  unfold Sys.reschedule Known
  dsimp only
  cases hnext : ((Sys.requeueCurrent s.table sched).pickNext s.systemIdle).1.bind s.table.get with
  | none =>
    -- the process picked, if any, is not in the table: it is not this one
    left
    refine hpick.resolve_left fun hp => ?_
    grind
  | some p => exact hpick.symm

theorem known_schedule (hr : s.stateOf pid = some .ready) (h : Known s pid) :
    Known (s.schedule 0).2 pid := by
  unfold Sys.schedule
  dsimp only
  split
  · split
    · split
      · exact known_setSched id rfl h
      · exact known_reschedule hr h
    · exact known_reschedule hr h
  · exact known_reschedule hr h

/-! ### Runs -/

/-- What holds in every state of a prompt run. -/
structure Inv (s : OneCpu) : Prop where
  cpuCount : s.sys.cpuCount = 1
  plain : ∀ c ∈ s.calls, ∀ t ∈ c.rest, Plain t
  held : ∀ pid, s.sys.stateOf pid = some .ready → s.Held pid

variable {w : OneCpu}

theorem Inv.noneForgotten (h : w.Inv) : w.NoneForgotten := by
  intro hset pid hr
  rcases h.held pid hr with hk | ⟨c, hc, hadd⟩
  · exact hk
  · have hne : c.rest ≠ none := by
      grind
    obtain ⟨-, ⟨cpu, hrest⟩ | ⟨cpu, q, hrest⟩⟩ := hset c hc hne
    · rw [hrest] at hadd
      cases hadd
    · rw [hrest] at hadd
      cases hadd

theorem Inv.plain_start (h : w.Inv) (kind : CallKind) (ht : Plain t) :
    ∀ c ∈ (w.start kind t).calls, ∀ t' ∈ c.rest, Plain t' := by
  intro c hc t' ht'
  rcases mem_append.1 hc with hc | hc
  · exact h.plain c hc t' ht'
  · simp_all

theorem Inv.start (h : w.Inv) (kind : CallKind) (ht : Plain t) : (w.start kind t).Inv where
  cpuCount := h.cpuCount
  plain := h.plain_start kind ht
  held := fun pid hr => (h.held pid hr).imp_right fun ⟨c, hc, hadd⟩ => ⟨c, mem_append_left _ hc, hadd⟩

/-- A process stays held when a call takes a section: if it was this call that was adding it, the call still is or the
process is queued. -/
theorem Held.set {i : Nat} {kind : CallKind} (hi : w.calls[i]? = some ⟨kind, some t⟩) {sys : Sys}
    {rest : Option Task} (hkn : ∀ pid, Known w.sys pid → Known sys pid)
    (ha : ∀ pid, adding t = some pid → rest.bind adding = some pid ∨ Known sys pid) {pid : Pid} (h : w.Held pid) :
    Held ⟨sys, w.calls.set i ⟨kind, rest⟩⟩ pid := by
  rcases h with hk | ⟨c, hc, hadd⟩
  · exact .inl (hkn pid hk)
  · obtain ⟨j, hj⟩ := mem_iff_getElem?.1 hc
    by_cases hji : j = i
    · subst hji
      rw [hi] at hj
      cases hj
      rcases ha pid hadd with hrest | hk
      · refine .inr ⟨⟨kind, rest⟩, ?_, hrest⟩
        exact List.mem_set (List.getElem?_eq_some_iff.1 hi).1 _
      · exact .inl hk
    · refine .inr ⟨c, mem_of_getElem? (i := j) ?_, hadd⟩
      rwa [getElem?_set_ne fun heq => hji heq.symm]

theorem Inv.advanceAt (h : w.Inv) {i : Nat} (hp : w.Prompt (.advance i)) : (w.advanceAt i).Inv := by
  unfold OneCpu.advanceAt
  split
  case h_2 => exact h
  case h_1 kind t hi =>
    have hmem : ⟨kind, some t⟩ ∈ w.calls := mem_of_getElem? hi
    obtain ⟨hcpu, hpl, hk⟩ := advance_plain (s := w.sys) (h.plain _ hmem t rfl)
    have hheld : ∀ {pid}, w.Held pid → Held ⟨(w.sys.advance t).1, w.calls.set i ⟨kind, (w.sys.advance t).2⟩⟩ pid :=
      Held.set hi hk fun _ => adding_advance h.cpuCount
    refine ⟨hcpu.trans h.cpuCount, fun c hc t' ht' => ?_, fun pid hr => hheld ?_⟩
    · rcases mem_or_eq_of_mem_set hc with hc | rfl
      · exact h.plain c hc t' ht'
      · exact hpl t' ht'
    · -- a ready process was ready before, or the section has just made it ready
      rw [Sys.stateOf_advance] at hr
      rcases stateAfter_cases hr with ⟨hold, -⟩ | ⟨hsome, hw⟩
      · exact h.held pid hold
      · exact hp _ hi t rfl _ hw rfl hsome

theorem Inv.tick (h : w.Inv) : Inv { w with sys := (w.sys.schedule 0).2 } := by
  obtain ⟨_, _, _, hf⟩ := Sys.schedule_frame (s := w.sys) 0
  refine ⟨?_, h.plain, fun pid hr => ?_⟩
  · rw [hf]
    exact h.cpuCount
  have hold : w.sys.stateOf pid = some .ready := by rwa [Sys.stateOf, hf] at hr
  exact (h.held pid hold).imp_left (known_schedule hold)

variable {process : Process}

theorem findSlot_fillSlot {ss ss' : List (Option Process)} (h : fillSlot process ss = some ss')
    {q : Pid} (hq : q ≠ process.pid) : findSlot q ss' = findSlot q ss := by
  induction ss generalizing ss' with
  | nil => cases h
  | cons slot ss ih =>
    cases slot with
    | none =>
      cases h
      rw [findSlot, findSlot, if_neg fun heq => hq heq.symm]
    | some p =>
      grind [fillSlot, map_eq_some_iff, findSlot]

theorem stateOf_add {table' : ProcessTable} (h : table.add process = .ok table')
    {q : Pid} (hq : q ≠ process.pid) : table'.stateOf q = table.stateOf q := by
  unfold ProcessTable.add at h
  split at h
  case h_1 ss hss =>
    cases h
    exact congrArg (Option.map _) (findSlot_fillSlot hss hq)
  case h_2 => cases h

theorem Inv.spawn (h : w.Inv) (hadd : w.sys.table.add process = .ok table) (priority : PriorityClass) :
    Inv ({ w with sys := { w.sys with table } }.start .spawn (.addLoad process.pid priority 0 (2 ^ 64 - 1) 0)) := by
  refine ⟨h.cpuCount, h.plain_start .spawn trivial, fun pid hr => ?_⟩
  by_cases hpid : pid = process.pid
  · exact .inr ⟨⟨.spawn, some (.addLoad process.pid priority 0 (2 ^ 64 - 1) 0)⟩, by simp [OneCpu.start],
      by simp [adding, hpid]⟩
  · have hold : w.sys.stateOf pid = some .ready := (stateOf_add hadd hpid).symm.trans hr
    exact (h.held pid hold).imp_right fun ⟨c, hc, hadd⟩ => ⟨c, mem_append_left _ hc, hadd⟩

theorem Inv.step (h : w.Inv) {e : Event} (hp : w.Prompt e) : (w.step e).Inv := by
  unfold OneCpu.step
  split
  · exact h
  cases e with
  | spawn process priority =>
    dsimp only
    split
    case h_1 table hadd => exact h.spawn hadd priority
    case h_2 => exact h
  | tick =>
    have htick := h.tick
    revert htick
    generalize w.sys.schedule 0 = r
    intro htick
    obtain ⟨next, sys⟩ := r
    cases next with
    | none => exact htick
    | some pid => exact htick.start .tick trivial
  | yieldCpu => exact h.start .yieldCpu trivial
  | wait queue pid => exact h.start .wait trivial
  | wakeOne _ | wakeAll _ => exact h.start .wake trivial
  | advance i => exact h.advanceAt hp

theorem Inv.boot : boot.Inv where
  cpuCount := rfl
  plain := by simp [OneCpu.boot]
  held := by
    intro pid hr
    have hnone : ∀ n, findSlot pid (replicate n none) = none := by
      intro n
      induction n with
      | zero => rfl
      | succ n ih => exact ih
    obtain ⟨proc, hget, -⟩ := Sys.stateOf_eq_some_iff.1 hr
    rw [show OneCpu.boot.sys.table.get pid = none from hnone _] at hget
    cases hget

/-- In every run in which a switch or a wake makes a process ready only while the scheduler knows it or it is being
added, the scheduler knows every ready process in every state in which no call is in progress, blocked waits apart. -/
theorem ready_kept_of_meets (es : List Event) (h : Meets step Prompt boot es) : Always step NoneForgotten boot es :=
  always_of_meets (I := Inv) (R := fun _ => True) (fun _ hi => hi.noneForgotten) (fun _ _ _ hi hp => hi.step hp) Inv.boot
    (fun _ _ => trivial) h

def runSpawn (pid : Pid) (i : Nat) : List Event :=
  .spawn (.new pid) .interactive :: List.replicate 4 (.advance i)

/-- A process is spawned and runs, waits and is woken while it is queued again. -/
def runWake : List Event :=
  runSpawn 1 0 ++ .tick :: List.replicate 3 (.advance 1) ++ .wait 0 1 :: List.replicate 4 (.advance 2) ++
    .wakeOne 0 :: List.replicate 2 (.advance 3)

theorem ready_kept_of_meets_runWake :
    Meets step Prompt boot runWake ∧ Always step NoneForgotten boot runWake := by
  have hm : Meets step Prompt boot runWake := by decide +kernel
  exact ⟨hm, ready_kept_of_meets runWake hm⟩

/-- Two processes are spawned; the first runs and waits, and a tick falls between its being blocked and its being queued
again. -/
def runForget : List Event :=
  runSpawn 1 0 ++ runSpawn 2 1 ++ .tick :: List.replicate 3 (.advance 2) ++ .wait 0 1 :: List.replicate 2 (.advance 3) ++
    .tick :: List.replicate 3 (.advance 4)

/-- The switch of the tick makes the blocked process ready, and the scheduler has dropped it. -/
theorem ready_forgotten : ¬ ∀ es : List Event, Always step NoneForgotten boot es := by
  intro h
  have hnone := (h runForget).run
  have hca : (run step boot runForget).calls =
      [⟨.spawn, none⟩, ⟨.spawn, none⟩, ⟨.tick, none⟩, ⟨.wait, some (.yieldLoad 0)⟩, ⟨.tick, none⟩] := by decide +kernel
  have hr : (run step boot runForget).sys.stateOf 1 = some .ready := by decide +kernel
  have hu : ¬ Known (run step boot runForget).sys 1 := by decide +kernel
  refine hu (hnone (fun c hc hrest => ?_) 1 hr)
  rw [hca] at hc
  simp only [mem_cons, not_mem_nil, or_false] at hc
  rcases hc with rfl | rfl | rfl | rfl | rfl
  case inr.inr.inr.inl => exact ⟨rfl, .inl ⟨0, rfl⟩⟩
  all_goals exact absurd rfl hrest

end OneCpu

end AstralOS.Proc
