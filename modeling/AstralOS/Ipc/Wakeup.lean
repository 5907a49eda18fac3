import AstralOS.Ipc.Delivery
import AstralOS.Process.States

/-!
# Wakeups on channels

A receiver that finds the buffer empty joins `recv_waiters` and is marked blocked in two further sections, and a sender
that has pushed takes a waiter off the queue and marks it ready in two.  `Waits` records which receivers have been
blocked and not been woken since.  A push that comes between the empty pop and the joining is lost on the receiver
(`wakeup_lost`); `no_lost_wakeup_of_meets` says when none is.
-/

namespace AstralOS.Ipc

open Function Proc List

/-! ### Where a call stands towards `recv_waiters` -/

abbrev Machine.waiting (m : Machine) : List Pid := m.sys.waiters recvWaiters

namespace Call

/-- The call has found the buffer empty and has still to join `recv_waiters`. -/
def joining : Call → Bool
  | .recv .loadClosed | .recv .currentPid | .recv (.wait (.waitPush _ _ _)) => true
  | _ => false

/-- The process that the call has put on `recv_waiters` and has still to mark blocked. -/
def blocking : Call → Option Pid
  | .recv (.wait (.waitBlock _ pid)) => some pid
  | _ => none

/-- The call has pushed a message and has still to take a process off `recv_waiters`. -/
def owesWake : Call → Bool
  | .send _ (.wake (.wakePop _)) => true
  | _ => false

def pushing : Call → Bool
  | .send _ .push => true
  | _ => false

/-- The call is about to take all processes off `recv_waiters`. -/
def draining : Call → Bool
  | .close (.wakeReceivers (.wakeDrain _)) => true
  | _ => false

/-- The processes that the call has taken off `recv_waiters` and has still to mark ready. -/
def readying : Call → List Pid
  | .send _ (.wake (.wakeReady pids)) | .close (.wakeReceivers (.wakeReady pids)) => pids
  | _ => []

/-- A sender that has returned or waits itself; a `close` that has returned. -/
def resting : Call → Bool
  | .send _ (.returned _) | .send _ (.wait _) | .close .returned => true
  | .send _ _ | .close _ => false
  | .recv _ | .tryRecv _ => true

/-- The receivers that are blocked and not woken since, after a section of the call. -/
def settle (unanswered : List Pid) : Call → List Pid
  | .recv (.wait (.waitBlock _ pid)) => unanswered ++ [pid]
  | .send _ (.wake (.wakeReady pids)) | .close (.wakeReceivers (.wakeReady pids)) => unanswered.filter (· ∉ pids)
  | _ => unanswered

end Call

/-- The channel, with the receivers that `wait` has marked blocked and no wake has marked ready since. -/
structure Waits where
  machine : Machine
  unanswered : List Pid

namespace Waits

def new (table : ProcessTable) (cpuCount : Nat) : Waits := ⟨.new (.boot table cpuCount), []⟩

def callOf (m : Machine) : Action → Option Call
  | .advance i _ => if m.sys.panicked then none else m.calls[i]?
  | _ => none

def step (w : Waits) (a : Action) : Waits :=
  ⟨Ipc.step w.machine a, ((callOf w.machine a).map (Call.settle w.unanswered)).getD w.unanswered⟩

/-- No receiver is left blocked while there is a message and no sender is about to wake one. -/
def NoLostWakeup (w : Waits) : Prop :=
  (∀ c ∈ w.machine.calls, c.resting) → w.machine.buffer.count ≠ 0 →
    ∀ pid, pid ∈ w.machine.waiting ∨ pid ∈ w.unanswered → w.machine.sys.stateOf pid ≠ some .blocked

/-- No call is about to mark one of the processes blocked. -/
def AllBlocked (m : Machine) (pids : List Pid) : Prop := ∀ pid ∈ pids, ∀ c ∈ m.calls, c.blocking ≠ some pid

/-- The condition on a section of a call.  A message is pushed into the empty buffer only while no receiver is about to
join `recv_waiters` and at most one process on it is without a sender that is to take it off; a process is taken off
only once it is blocked. -/
structure InTime (m : Machine) (c : Call) : Prop where
  push : c.pushing → m.holder = none → m.buffer.count = 0 →
    (∀ d ∈ m.calls, d.joining = false) ∧ m.waiting.length ≤ m.calls.countP Call.owesWake + 1
  take : c.owesWake → AllBlocked m (m.waiting.take 1)
  drain : c.draining → AllBlocked m m.waiting

def StepInTime (w : Waits) (a : Action) : Prop := ∀ c ∈ callOf w.machine a, InTime w.machine c

instance (m : Machine) (pids : List Pid) : Decidable (AllBlocked m pids) :=
  @List.decidableBAll _ _ (fun _ => List.decidableBAll ..) _

instance (m : Machine) (c : Call) : Decidable (InTime m c) :=
  decidable_of_iff (_ ∧ _ ∧ _) ⟨fun h => ⟨h.1, h.2.1, h.2.2⟩, fun h => ⟨h.push, h.take, h.drain⟩⟩

instance (w : Waits) (a : Action) : Decidable (w.StepInTime a) := Option.decidableForallMem _

end Waits

def queueOf : Proc.Action → Option Nat
  | .wait _ queue _ | .wakeOne queue | .wakeAll queue => some queue
  | _ => none

/-- The rest of the system leaves `recv_waiters` to the channel. -/
def Action.Apart : Action → Prop
  | .kernel action => queueOf action ≠ some recvWaiters
  | _ => True

instance (a : Action) : Decidable a.Apart :=
  match a with
  | .kernel _ => inferInstanceAs (Decidable (_ ≠ _))
  | .send _ | .recv | .tryRecv | .close | .advance _ _ => isTrue trivial

/-! ### The tasks of the calls -/

def IsWait (queue : Nat) : Task → Prop
  | .waitPush _ q _ => q = queue
  | .waitBlock _ _ | .yieldLoad _ | .yieldEnqueue _ _ => True
  | _ => False

def IsWakeOne (queue : Nat) : Task → Prop
  | .wakePop q => q = queue
  | .wakeReady _ => True
  | _ => False

def IsWakeAll (queue : Nat) : Task → Prop
  | .wakeDrain q => q = queue
  | .wakeReady _ => True
  | _ => False

def Call.Ok : Call → Prop
  | .send _ (.wake t) => IsWakeOne recvWaiters t
  | .send _ (.wait t) => IsWait sendWaiters t
  | .recv (.wake _ t) => IsWakeOne sendWaiters t
  | .recv (.wait t) => IsWait recvWaiters t
  | .tryRecv (.wake _ t) => IsWakeOne sendWaiters t
  | .close (.wakeSenders t) => IsWakeAll sendWaiters t
  | .close (.wakeReceivers t) => IsWakeAll recvWaiters t
  | _ => True

def Touches (queue : Nat) : Task → Prop
  | .waitPush _ q _ | .wakePop q | .wakeDrain q => q = queue
  | _ => False

section
variable {s : Sys} {queue : Nat} {t t' : Task}

theorem IsWait.next (h : IsWait queue t) (ht : (s.advance t).2 = some t') : IsWait queue t' := by
  cases t with
  | waitPush cpu q pid | waitBlock cpu pid =>
    obtain rfl := Option.some.inj ht
    trivial
  | yieldLoad cpu =>
    simp only [Sys.advance] at ht
    cases hcur : s.getCurrentPid with
    | none => simp [hcur] at ht
    | some pid =>
      rw [hcur] at ht
      obtain rfl := Option.some.inj ht
      trivial
  | yieldEnqueue cpu pid =>
    grind [Sys.advance]
  | _ => exact h.elim

theorem IsWakeOne.next (h : IsWakeOne queue t) (ht : (s.advance t).2 = some t') : IsWakeOne queue t' := by
  cases t with
  | wakePop q =>
    simp only [Sys.advance] at ht
    cases hw : s.waiters q with
    | nil => simp [hw] at ht
    | cons pid rest =>
      rw [hw] at ht
      obtain rfl := Option.some.inj ht
      trivial
  | wakeReady pids => simp [Sys.advance] at ht
  | _ => exact h.elim

theorem IsWakeAll.next (h : IsWakeAll queue t) (ht : (s.advance t).2 = some t') : IsWakeAll queue t' := by
  cases t with
  | wakeDrain q =>
    obtain rfl := Option.some.inj ht
    trivial
  | wakeReady pids => simp [Sys.advance] at ht
  | _ => exact h.elim

theorem dequeueAll_frame (s : Sys) (pid : Pid) : ∃ sched, s.dequeueAll pid = { s with sched } := by
  unfold Sys.dequeueAll
  generalize range s.cpuCount = cpus
  induction cpus generalizing s with
  | nil => exact ⟨_, rfl⟩
  | cons cpu cpus ih => exact ih (s.setSched cpu _)

theorem advance_frame (queue : Nat) (s : Sys) (t : Task) :
    (s.advance t).1.tasks = s.tasks ∧ (¬ Touches queue t → (s.advance t).1.waiters queue = s.waiters queue) ∧
      ∀ t', (s.advance t).2 = some t' → ¬ Touches queue t' := by
  cases t with
  | waitPush _ _ _ | wakeDrain _ =>
    exact ⟨rfl, fun h => update_of_ne (Ne.symm h) _ _, by simp [Sys.advance, Touches]⟩
  | wakePop q =>
    simp only [Sys.advance]
    split
    · exact ⟨rfl, fun _ => rfl, by simp [Touches]⟩
    · exact ⟨rfl, fun h => update_of_ne (Ne.symm h) _ _, by simp [Touches]⟩
  | exitMark cpu pid =>
    simp only [Sys.advance]
    split
    · obtain ⟨sched, hf⟩ := dequeueAll_frame { s with table := s.table.setState pid .zombie } pid
      simp [hf, Touches]
    · exact ⟨rfl, fun _ => rfl, by simp [Touches]⟩
  | addLoad pid priority cpu minLoad target =>
    grind [Sys.advance, Touches]
  | addAffinity pid priority target =>
    simp only [Sys.advance]
    split
    · split_ifs <;> exact ⟨rfl, fun _ => rfl, by simp [Touches]⟩
    · exact ⟨rfl, fun _ => rfl, by simp [Touches]⟩
  | switchLoad _ | switchMark _ _ | yieldLoad _ | yieldEnqueue _ _ | exitLoad _ | removeFrom _ _ =>
    simp only [Sys.advance]
    split <;> exact ⟨rfl, fun _ => rfl, by simp [Touches]⟩
  | switchSet _ | waitBlock _ _ | wakeReady _ | addEnqueue _ _ _ =>
    exact ⟨rfl, fun _ => rfl, by simp [Sys.advance, Touches]⟩

theorem waiters_advance (h : ¬ Touches queue t) : (s.advance t).1.waiters queue = s.waiters queue :=
  (advance_frame queue s t).2.1 h

theorem tasks_advance (s : Sys) (t : Task) : (s.advance t).1.tasks = s.tasks := (advance_frame 0 s t).1

theorem not_touches_next (ht : (s.advance t).2 = some t') : ¬ Touches queue t' := (advance_frame queue s t).2.2 t' ht

theorem not_touches_of_isWait (h : IsWait sendWaiters t) : ¬ Touches recvWaiters t := by
  cases t <;> simp_all [IsWait, Touches, sendWaiters, recvWaiters]

theorem not_touches_of_isWakeOne (h : IsWakeOne sendWaiters t) : ¬ Touches recvWaiters t := by
  cases t <;> simp_all [IsWakeOne, Touches, sendWaiters, recvWaiters]

theorem not_touches_of_isWakeAll (h : IsWakeAll sendWaiters t) : ¬ Touches recvWaiters t := by
  cases t <;> simp_all [IsWakeAll, Touches, sendWaiters, recvWaiters]

end

theorem tasks_advance_call (m : Machine) (i cpu : Nat) (c : Call) : (m.advance i cpu c).1.sys.tasks = m.sys.tasks := by
  cases c with
  | send msg pc =>
    cases pc <;> simp only [Machine.advance, Machine.send, Machine.advanceTask]
    case wake t | wait t => cases (m.sys.advance t).2 <;> exact tasks_advance m.sys t
    all_goals (try split) <;> (try split) <;> rfl
  | recv pc =>
    cases pc <;> simp only [Machine.advance, Machine.recv, Machine.advanceTask]
    case wake _ t | wait t => cases (m.sys.advance t).2 <;> exact tasks_advance m.sys t
    all_goals (try split) <;> (try split) <;> rfl
  | tryRecv pc =>
    cases pc <;> simp only [Machine.advance, Machine.tryRecv, Machine.advanceTask]
    case wake _ t => cases (m.sys.advance t).2 <;> exact tasks_advance m.sys t
    all_goals (try split) <;> (try split) <;> rfl
  | close pc =>
    cases pc <;> simp only [Machine.advance, Machine.close, Machine.advanceTask]
    case wakeSenders t | wakeReceivers t => cases (m.sys.advance t).2 <;> exact tasks_advance m.sys t

/-! ### The balance -/

namespace Waits

/-- The number of messages, the processes on `recv_waiters`, the calls and the receivers that are not woken fit. -/
structure Balanced (count : Nat) (waiting : List Pid) (calls : List Call) (unanswered : List Pid) : Prop where
  /-- While there is a message, no receiver is about to join. -/
  joined : count ≠ 0 → ∀ c ∈ calls, c.joining = false
  /-- While there is a message, every waiting process has a sender that is to take it off. -/
  owed : count ≠ 0 → waiting.length ≤ calls.countP Call.owesWake
  /-- A process that is about to be blocked is waiting. -/
  blocking : ∀ c ∈ calls, ∀ pid, c.blocking = some pid → pid ∈ waiting
  /-- A process that is blocked and not woken is waiting, or is about to be woken. -/
  answered : ∀ pid ∈ unanswered, pid ∈ waiting ∨ ∃ c ∈ calls, pid ∈ c.readying

namespace Balanced

variable {count count' : Nat} {waiting unanswered : List Pid} {calls : List Call} {i : Nat} {c c' d : Call} {pid : Pid}

theorem unanswered_eq_nil (h : Balanced count waiting calls unanswered) (hrest : ∀ c ∈ calls, c.resting)
    (hco : count ≠ 0) : waiting = [] ∧ unanswered = [] := by
  have howes : calls.countP Call.owesWake = 0 := by
    refine countP_eq_zero.2 fun c hc howes => ?_
    have := hrest c hc
    revert howes this
    cases c with
    | send msg pc => cases pc <;> simp [Call.owesWake, Call.resting]
    | _ => simp [Call.owesWake]
  have hr : ∀ c ∈ calls, c.readying = [] := by
    intro c hc
    have := hrest c hc
    revert this
    cases c with
    | send _ pc | close pc => cases pc <;> simp [Call.readying, Call.resting]
    | _ => simp [Call.readying]
  have hem : waiting = [] := by
    have howed := h.owed hco
    exact length_eq_zero_iff.1 (by omega)
  refine ⟨hem, eq_nil_iff_forall_not_mem.2 fun pid hpid => ?_⟩
  rcases h.answered pid hpid with hwait | ⟨c, hc, hmem⟩
  · simp [hem] at hwait
  · simp [hr c hc] at hmem

theorem eq_or_mem_set (hc : calls[i]? = some c) (c' : Call) (hd : d ∈ calls) : d = c ∨ d ∈ calls.set i c' := by
  obtain ⟨j, hj⟩ := mem_iff_getElem?.1 hd
  by_cases hij : i = j
  · simp_all
  · exact .inr (mem_iff_getElem?.2 ⟨j, (getElem?_set_ne hij).trans hj⟩)

theorem countP_set (hc : calls[i]? = some c) (c' : Call) :
    (calls.set i c').countP Call.owesWake + (if c.owesWake then 1 else 0) =
      calls.countP Call.owesWake + (if c'.owesWake then 1 else 0) := by
  obtain ⟨hlt, hget⟩ := List.getElem?_eq_some_iff.1 hc
  have hle : (if c.owesWake then 1 else 0) ≤ calls.countP Call.owesWake := by
    split_ifs with howes
    · exact countP_pos_iff.2 ⟨c, mem_of_getElem? hc, howes⟩
    · exact Nat.zero_le _
  rw [List.countP_set hlt, hget]
  omega

theorem forall_set {P : Call → Prop} (hnew : P c') (hold : ∀ d ∈ calls, P d) : ∀ d ∈ calls.set i c', P d := by
  intro d hd
  rcases mem_or_eq_of_mem_set hd with hd | rfl
  · exact hold d hd
  · exact hnew

theorem readying_set (hc : calls[i]? = some c) (c' : Call) (h : ∃ d ∈ calls, pid ∈ d.readying) :
    pid ∈ c.readying ∨ ∃ d ∈ calls.set i c', pid ∈ d.readying := by
  obtain ⟨d, hd, hpid⟩ := h
  rcases eq_or_mem_set hc c' hd with rfl | hd
  · exact .inl hpid
  · exact .inr ⟨d, hd, hpid⟩

theorem answered_set (h : Balanced count waiting calls unanswered) (hc : calls[i]? = some c)
    (hr : c.readying = []) (c' : Call) (hpid : pid ∈ unanswered) :
    pid ∈ waiting ∨ ∃ d ∈ calls.set i c', pid ∈ d.readying :=
  (h.answered pid hpid).imp_right fun hd => (readying_set hc c' hd).resolve_left (by simp [hr])

theorem mem_set_self (hc : calls[i]? = some c) (c' : Call) : c' ∈ calls.set i c' :=
  List.mem_set (List.getElem?_eq_some_iff.1 hc).1 c'

/-! ### The balance through a section -/

theorem still (h : Balanced count waiting calls unanswered) (hc : calls[i]? = some c) (hle : count' ≤ count)
    (hj : c'.joining = true → c.joining = true ∨ count = 0) (howes : c'.owesWake = c.owesWake)
    (hb : c'.blocking = c.blocking) (hreadying : c'.readying = c.readying) :
    Balanced count' waiting (calls.set i c') unanswered := by
  have hmem : c ∈ calls := mem_of_getElem? hc
  refine ⟨fun hne => forall_set ?_ (h.joined (by omega)), fun hne => ?_, forall_set ?_ h.blocking, fun pid hpid => ?_⟩
  · by_contra hjoin
    rcases hj (by simpa using hjoin) with hjoin | hzero
    · exact absurd (h.joined (by omega) c hmem) (by simp [hjoin])
    · omega
  · have howed := h.owed (by omega)
    grind
  · exact fun pid hpid => h.blocking c hmem pid (hb ▸ hpid)
  · refine (h.answered pid hpid).imp_right fun hready => ?_
    rcases readying_set hc c' hready with hpid | hready
    · exact ⟨c', mem_set_self hc c', hreadying ▸ hpid⟩
    · exact hready

variable {msg : Message} {q : Nat}

theorem push (h : Balanced count waiting calls unanswered) (hc : calls[i]? = some (.send msg .push))
    (hnew : (∀ d ∈ calls, d.joining = false) ∧ waiting.length ≤ calls.countP Call.owesWake + 1) :
    Balanced count' waiting (calls.set i (.send msg (.wake (.wakePop q)))) unanswered := by
  have hco := countP_set hc (.send msg (.wake (.wakePop q)))
  refine ⟨fun _ => forall_set rfl hnew.1, fun _ => ?_, forall_set (by simp [Call.blocking]) h.blocking,
    fun pid hpid => h.answered_set hc rfl _ hpid⟩
  simp_all [Call.owesWake, Bool.false_eq_true, if_false, if_true]

theorem idle {result : Except IpcError Unit} (h : Balanced count [] calls unanswered)
    (hc : calls[i]? = some (.send msg (.wake (.wakePop q)))) :
    Balanced count [] (calls.set i (.send msg (.returned result))) unanswered :=
  ⟨fun hne => forall_set rfl (h.joined hne), fun _ => Nat.zero_le _, forall_set (by simp [Call.blocking]) h.blocking,
    fun _ hpid => h.answered_set hc rfl _ hpid⟩

theorem take {rest : List Pid}
    (h : Balanced count (pid :: rest) calls unanswered) (hc : calls[i]? = some (.send msg (.wake (.wakePop q))))
    (hb : ∀ d ∈ calls, d.blocking ≠ some pid) :
    Balanced count rest (calls.set i (.send msg (.wake (.wakeReady [pid])))) unanswered := by
  refine ⟨fun hne => forall_set rfl (h.joined hne), fun hne => ?_, forall_set (by simp [Call.blocking]) ?_,
    fun r hr => ?_⟩
  · have howed := h.owed hne
    grind
  · intro d hd r hr
    rcases mem_cons.1 (h.blocking d hd r hr) with rfl | hrest
    · exact absurd hr (hb d hd)
    · exact hrest
  · rcases h.answered_set hc rfl (.send msg (.wake (.wakeReady [pid]))) hr with hwait | hre
    · rcases mem_cons.1 hwait with rfl | hrest
      · exact .inr ⟨_, mem_set_self hc _, mem_singleton.2 rfl⟩
      · exact .inl hrest
    · exact .inr hre

section

variable (h : Balanced count waiting calls unanswered)
include h

theorem ready (hc : calls[i]? = some c) (hj : c'.joining = false)
    (howes : c.owesWake = false) (howes' : c'.owesWake = false) (hb : c'.blocking = none) :
    Balanced count waiting (calls.set i c') (unanswered.filter (· ∉ c.readying)) := by
  refine ⟨fun hne => forall_set hj (h.joined hne), fun hne => ?_, forall_set (by simp [hb]) h.blocking,
    fun pid hpid => ?_⟩
  · have howed := h.owed hne
    grind
  · obtain ⟨hpid, hnot⟩ := mem_filter.1 hpid
    exact (h.answered pid hpid).imp_right fun hr => (readying_set hc c' hr).resolve_left (by simpa using hnot)

theorem join {cpu : Nat}
    (hc : calls[i]? = some (.recv (.wait (.waitPush cpu q pid)))) :
    Balanced count (waiting ++ [pid]) (calls.set i (.recv (.wait (.waitBlock cpu pid)))) unanswered := by
  have hzero : count = 0 := by
    by_contra hne
    exact absurd (h.joined hne _ (mem_of_getElem? hc)) (by simp [Call.joining])
  refine ⟨fun hne => absurd hzero hne, fun hne => absurd hzero hne, forall_set ?_ ?_, fun r hr => ?_⟩
  · rintro r ⟨⟩
    exact mem_append_right _ (mem_singleton.2 rfl)
  · exact fun d hd r hr => mem_append_left _ (h.blocking d hd r hr)
  · exact (h.answered_set hc rfl _ hr).imp_left (mem_append_left _)

theorem block {cpu : Nat}
    (hc : calls[i]? = some (.recv (.wait (.waitBlock cpu pid)))) :
    Balanced count waiting (calls.set i (.recv (.wait (.yieldLoad cpu)))) (unanswered ++ [pid]) := by
  refine ⟨fun hne => forall_set rfl (h.joined hne), fun hne => ?_, forall_set (by simp [Call.blocking]) h.blocking,
    fun r hr => ?_⟩
  · have howed := h.owed hne
    have hco := countP_set hc (.recv (.wait (.yieldLoad cpu)))
    simp_all [Call.owesWake, Bool.false_eq_true, if_false]
  · rcases mem_append.1 hr with hr | hr
    · exact h.answered_set hc rfl _ hr
    · obtain rfl := mem_singleton.1 hr
      exact .inl (h.blocking _ (mem_of_getElem? hc) r rfl)

theorem drain
    (hc : calls[i]? = some (.close (.wakeReceivers (.wakeDrain q))))
    (hb : ∀ pid ∈ waiting, ∀ d ∈ calls, d.blocking ≠ some pid) :
    Balanced count [] (calls.set i (.close (.wakeReceivers (.wakeReady waiting)))) unanswered := by
  refine ⟨fun hne => forall_set rfl (h.joined hne), fun _ => Nat.zero_le _, forall_set (by simp [Call.blocking]) ?_,
    fun r hr => .inr ?_⟩
  · exact fun d hd r hr => absurd hr (hb r (h.blocking d hd r hr) d hd)
  · rcases h.answered_set hc rfl (.close (.wakeReceivers (.wakeReady waiting))) hr with hwait | hre
    · exact ⟨_, mem_set_self hc _, hwait⟩
    · exact hre

end

end Balanced

/-! ### Sections -/

/-- The call is neither on its way to `recv_waiters`, nor a sender's wake, nor about to mark processes ready. -/
def Quiet : Call → Prop
  | .send _ (.wake _) | .close (.wakeReceivers (.wakeReady _)) => False
  | .recv .loadClosed | .recv .currentPid | .recv (.wait (.waitPush _ _ _)) | .recv (.wait (.waitBlock _ _)) => False
  | _ => True

variable {m : Machine} {c c' : Call} {unanswered : List Pid} {i : Nat} {t : Task}

theorem Quiet.fields (h : Quiet c) (unanswered : List Pid) :
    c.joining = false ∧ c.owesWake = false ∧ c.blocking = none ∧ c.readying = [] ∧ c.settle unanswered = unanswered := by
  cases c with
  | send msg pc => cases pc <;> first | exact h.elim | exact ⟨rfl, rfl, rfl, rfl, rfl⟩
  | recv pc =>
    cases pc with
    | wait task => cases task <;> first | exact h.elim | exact ⟨rfl, rfl, rfl, rfl, rfl⟩
    | loadClosed | currentPid => exact h.elim
    | pop | wake _ _ | returned _ => exact ⟨rfl, rfl, rfl, rfl, rfl⟩
  | tryRecv pc => exact ⟨rfl, rfl, rfl, rfl, rfl⟩
  | close pc =>
    cases pc with
    | wakeReceivers task => cases task <;> first | exact h.elim | exact ⟨rfl, rfl, rfl, rfl, rfl⟩
    | store | wakeSenders _ | returned => exact ⟨rfl, rfl, rfl, rfl, rfl⟩

/-- The state is balanced after the call `i` has gone from `c` to `c'`. -/
def Leaves (m : Machine) (unanswered : List Pid) (i : Nat) (c : Call) (m' : Machine) (c' : Call) : Prop :=
  c'.Ok ∧ Balanced m'.buffer.count m'.waiting (m.calls.set i c') (c.settle unanswered)

section
variable (h : Balanced m.buffer.count m.waiting m.calls unanswered)
include h

section

variable (hc : m.calls[i]? = some c)
include hc

theorem leaves_quiet {m' : Machine} (hok : c'.Ok) (hq : Quiet c) (hq' : Quiet c')
    (hw : m'.waiting = m.waiting) (hco : m'.buffer.count ≤ m.buffer.count) : Leaves m unanswered i c m' c' := by
  obtain ⟨-, howes, hb, hr, hs⟩ := hq.fields unanswered
  obtain ⟨hj', howes', hb', hr', -⟩ := hq'.fields unanswered
  refine ⟨hok, ?_⟩
  rw [hw, hs]
  exact h.still hc hco (by simp [hj']) (howes'.trans howes.symm) (hb'.trans hb.symm)
    (hr'.trans hr.symm)

theorem leaves_task (ht : ¬ Touches recvWaiters t) (hok : c'.Ok) (hq : Quiet c)
    (hq' : Quiet c') : Leaves m unanswered i c { m with sys := (m.sys.advance t).1 } c' :=
  leaves_quiet h hc hok hq hq' (waiters_advance ht) (Nat.le_refl _)

theorem leaves_same (hok : c'.Ok) (hq : Quiet c) (hq' : Quiet c') :
    Leaves m unanswered i c m c' :=
  leaves_quiet h hc hok hq hq' rfl (Nat.le_refl _)

end

theorem leaves_joining {pc pc' : RecvPc} (hc : m.calls[i]? = some (.recv pc)) (hj : (Call.recv pc).joining = true)
    (hok : (Call.recv pc').Ok) (hb : (Call.recv pc').blocking = (Call.recv pc).blocking)
    (hs : (Call.recv pc).settle unanswered = unanswered) : Leaves m unanswered i (.recv pc) m (.recv pc') := by
  refine ⟨hok, ?_⟩
  rw [hs]
  exact h.still hc (Nat.le_refl _) (fun _ => .inl hj) rfl hb rfl

theorem leaves_send {msg : Message} {pc : SendPc} (hc : m.calls[i]? = some (.send msg pc))
    (hok : (Call.send msg pc).Ok) (htime : InTime m (.send msg pc)) (cpu : Nat) :
    Leaves m unanswered i (.send msg pc) (m.send i cpu msg pc).1 (.send msg (m.send i cpu msg pc).2) := by
  cases pc with
  | push =>
    simp only [Machine.send]
    split_ifs with hh
    · exact leaves_same h hc trivial trivial trivial
    · split
      case h_1 buffer hpush =>
        refine ⟨rfl, h.push hc ?_⟩
        by_cases hzero : m.buffer.count = 0
        · exact htime.push rfl (by simpa using hh) hzero
        · exact ⟨h.joined hzero, Nat.le_succ_of_le (h.owed hzero)⟩
      case h_2 buffer hpush =>
        refine leaves_quiet h hc trivial trivial trivial rfl ?_
        rw [Circular.push] at hpush
        split_ifs at hpush
        · exact Nat.le_of_eq (congrArg Circular.count (Prod.mk.inj hpush).2.symm)
        · simp at hpush
  | wake task =>
    cases task with
    | wakePop q =>
      obtain rfl : q = recvWaiters := hok
      simp only [Machine.send, Machine.advanceTask, Sys.advance]
      cases hw : m.sys.waiters recvWaiters with
      | nil =>
        refine ⟨trivial, ?_⟩
        change Balanced _ (m.sys.waiters recvWaiters) _ _
        rw [Machine.waiting, hw] at h
        rw [hw]
        exact h.idle hc
      | cons pid rest =>
        refine ⟨trivial, ?_⟩
        change Balanced _ (update m.sys.waiters recvWaiters rest recvWaiters) _ _
        rw [Machine.waiting, hw] at h
        exact h.take hc (htime.take rfl pid (by simp [Machine.waiting, hw]))
    | wakeReady pids => exact ⟨trivial, h.ready hc rfl rfl rfl rfl⟩
    | _ => exact hok.elim
  | wait task =>
    simp only [Machine.send, Machine.advanceTask]
    have ht := not_touches_of_isWait hok
    cases hnext : (m.sys.advance task).2 with
    | none => exact leaves_task h hc ht trivial trivial trivial
    | some task' => exact leaves_task h hc ht (IsWait.next hok hnext) trivial trivial
  | currentPid =>
    simp only [Machine.send]
    cases m.sys.getCurrentPid with
    | none => exact leaves_same h hc trivial trivial trivial
    | some pid => exact leaves_same h hc rfl trivial trivial
  | loadClosed | reloadClosed =>
    simp only [Machine.send]
    split_ifs <;> exact leaves_same h hc trivial trivial trivial
  | returned result => exact leaves_same h hc trivial trivial trivial

theorem leaves_recv {xs : List Message} (hb : m.buffer.Holds xs) {pc : RecvPc} (hc : m.calls[i]? = some (.recv pc))
    (hok : (Call.recv pc).Ok) (cpu : Nat) :
    Leaves m unanswered i (.recv pc) (m.recv i cpu pc).1 (.recv (m.recv i cpu pc).2) := by
  cases pc with
  | pop =>
    simp only [Machine.recv]
    split_ifs with hh
    · exact leaves_same h hc trivial trivial trivial
    · split
      case h_1 msg buffer hpop =>
        exact leaves_quiet h hc rfl trivial trivial rfl (Circular.count_pop hpop ▸ Nat.sub_le _ _)
      case h_2 buffer hpop =>
        exact ⟨trivial, h.still hc (Circular.count_pop hpop ▸ Nat.sub_le _ _) (fun _ => .inr (hb.count_eq_zero hpop)) rfl rfl rfl⟩
  | wake msg task =>
    simp only [Machine.recv, Machine.advanceTask]
    have ht := not_touches_of_isWakeOne hok
    cases hnext : (m.sys.advance task).2 with
    | none => exact leaves_task h hc ht trivial trivial trivial
    | some task' => exact leaves_task h hc ht (IsWakeOne.next hok hnext) trivial trivial
  | loadClosed =>
    simp only [Machine.recv]
    split_ifs <;> exact leaves_joining h hc rfl trivial rfl rfl
  | currentPid =>
    simp only [Machine.recv]
    cases m.sys.getCurrentPid with
    | none => exact leaves_joining h hc rfl trivial rfl rfl
    | some pid => exact leaves_joining h hc rfl rfl rfl rfl
  | wait task =>
    cases task with
    | waitPush cpu' q pid =>
      obtain rfl : q = recvWaiters := hok
      exact ⟨trivial, h.join hc⟩
    | waitBlock cpu' pid => exact ⟨trivial, h.block hc⟩
    | yieldLoad cpu' =>
      simp only [Machine.recv, Machine.advanceTask, Sys.advance]
      cases m.sys.getCurrentPid <;> exact leaves_same h hc trivial trivial trivial
    | yieldEnqueue cpu' pid =>
      simp only [Machine.recv, Machine.advanceTask, Sys.advance]
      cases m.sys.table.get pid <;> exact leaves_quiet h hc trivial trivial trivial rfl (Nat.le_refl _)
    | _ => exact hok.elim
  | returned result => exact leaves_same h hc trivial trivial trivial

theorem leaves_tryRecv {pc : TryRecvPc} (hc : m.calls[i]? = some (.tryRecv pc)) (hok : (Call.tryRecv pc).Ok) :
    Leaves m unanswered i (.tryRecv pc) (m.tryRecv i pc).1 (.tryRecv (m.tryRecv i pc).2) := by
  cases pc with
  | pop =>
    simp only [Machine.tryRecv]
    split_ifs with hh
    · exact leaves_same h hc trivial trivial trivial
    · split
      case h_1 msg buffer hpop =>
        exact leaves_quiet h hc rfl trivial trivial rfl (Circular.count_pop hpop ▸ Nat.sub_le _ _)
      case h_2 buffer hpop =>
        exact leaves_quiet h hc trivial trivial trivial rfl (Circular.count_pop hpop ▸ Nat.sub_le _ _)
  | wake msg task =>
    simp only [Machine.tryRecv, Machine.advanceTask]
    have ht := not_touches_of_isWakeOne hok
    cases hnext : (m.sys.advance task).2 with
    | none => exact leaves_task h hc ht trivial trivial trivial
    | some task' => exact leaves_task h hc ht (IsWakeOne.next hok hnext) trivial trivial
  | loadClosed =>
    simp only [Machine.tryRecv]
    split_ifs <;> exact leaves_same h hc trivial trivial trivial
  | unlock result | returned result => exact leaves_quiet h hc trivial trivial trivial rfl (Nat.le_refl _)

theorem leaves_close {pc : ClosePc} (hc : m.calls[i]? = some (.close pc)) (hok : (Call.close pc).Ok)
    (htime : InTime m (.close pc)) :
    Leaves m unanswered i (.close pc) (m.close pc).1 (.close (m.close pc).2) := by
  cases pc with
  | store => exact leaves_quiet h hc rfl trivial trivial rfl (Nat.le_refl _)
  | wakeSenders task =>
    simp only [Machine.close, Machine.advanceTask]
    have ht := not_touches_of_isWakeAll hok
    cases hnext : (m.sys.advance task).2 with
    | none => exact leaves_task h hc ht rfl trivial trivial
    | some task' => exact leaves_task h hc ht (IsWakeAll.next hok hnext) trivial trivial
  | wakeReceivers task =>
    cases task with
    | wakeDrain q =>
      obtain rfl : q = recvWaiters := hok
      exact ⟨trivial, h.drain hc (htime.drain rfl)⟩
    | wakeReady pids => exact ⟨trivial, h.ready hc rfl rfl rfl rfl⟩
    | _ => exact hok.elim
  | returned => exact leaves_same h hc trivial trivial trivial

theorem leaves_advance {xs : List Message} (hb : m.buffer.Holds xs) (hc : m.calls[i]? = some c) (hok : c.Ok)
    (htime : InTime m c) (cpu : Nat) : Leaves m unanswered i c (m.advance i cpu c).1 (m.advance i cpu c).2 := by
  cases c with
  | send msg pc => exact leaves_send h hc hok htime cpu
  | recv pc => exact leaves_recv h hb hc hok cpu
  | tryRecv pc => exact leaves_tryRecv h hc hok
  | close pc => exact leaves_close h hc hok htime

end

/-! ### Runs -/

theorem step_apart {s : Sys} {a : Proc.Action} (ha : (Action.kernel a).Apart)
    (ht : ∀ t ∈ s.tasks, ¬ Touches recvWaiters t) :
    (s.step a).waiters recvWaiters = s.waiters recvWaiters ∧ ∀ t ∈ (s.step a).tasks, ¬ Touches recvWaiters t := by
  have hs : ∀ t0, ¬ Touches recvWaiters t0 → ∀ t ∈ s.tasks ++ [t0], ¬ Touches recvWaiters t := by
    intro t0 h0 t hmem
    rcases mem_append.1 hmem with hold | hnew
    · exact ht t hold
    · exact mem_singleton.1 hnew ▸ h0
  unfold Sys.step
  split_ifs
  · exact ⟨rfl, ht⟩
  cases a with
  | schedule cpu =>
    obtain ⟨sched, idleTicks, systemIdle, hf⟩ := s.schedule_frame cpu
    dsimp only
    revert hf
    generalize s.schedule cpu = r
    intro hf
    obtain ⟨next, s'⟩ := r
    subst hf
    cases next with
    | none => exact ⟨rfl, ht⟩
    | some pid => exact ⟨rfl, hs _ id⟩
  | yieldCpu | exitProcess | addToScheduler | removeFromScheduler => exact ⟨rfl, hs _ id⟩
  | wait | wakeOne | wakeAll => exact ⟨rfl, hs _ fun heq => ha (congrArg some heq)⟩
  | advance i =>
    simp only [Sys.advanceAt]
    cases hi : s.tasks[i]? with
    | none => exact ⟨rfl, ht⟩
    | some t =>
      have hw : (s.advance t).1.waiters recvWaiters = s.waiters recvWaiters :=
        waiters_advance (ht t (mem_of_getElem? hi))
      have hnext : ∀ t', (s.advance t).2 = some t' → ¬ Touches recvWaiters t' := fun t' => not_touches_next
      dsimp only
      revert hw hnext
      generalize s.advance t = r
      intro hw hnext
      obtain ⟨s', next⟩ := r
      cases next with
      | none => exact ⟨hw, fun t' ht' => ht t' (mem_of_mem_eraseIdx ht')⟩
      | some t' =>
        refine ⟨hw, fun t'' ht'' => ?_⟩
        rcases mem_or_eq_of_mem_set ht'' with hold | rfl
        · exact ht t'' hold
        · exact hnext t'' rfl

/-- What holds in every state of a run of steps in time. -/
structure WakeInv (w : Waits) : Prop where
  queue : Inv w.machine
  ok : ∀ c ∈ w.machine.calls, c.Ok
  /-- The rest of the system is not at `recv_waiters`. -/
  apart : ∀ t ∈ w.machine.sys.tasks, ¬ Touches recvWaiters t
  balanced : Balanced w.machine.buffer.count w.machine.waiting w.machine.calls w.unanswered

variable {w : Waits}

theorem wakeInv_new (table : ProcessTable) (cpuCount : Nat) : (new table cpuCount).WakeInv where
  queue := inv_new _
  ok := by simp [new, Machine.new]
  apart := by simp [new, Machine.new, Sys.boot]
  balanced := ⟨by simp [new, Machine.new], by simp [new, Machine.new, Circular.new], by simp [new, Machine.new],
    by simp [new]⟩

theorem WakeInv.noLostWakeup (h : w.WakeInv) : w.NoLostWakeup := by
  intro hrest hco pid hpid
  obtain ⟨hw, hu⟩ := h.balanced.unanswered_eq_nil hrest hco
  simp [hw, hu] at hpid

theorem WakeInv.start (h : w.WakeInv) {c : Call} (hq : Inv { w.machine with calls := w.machine.calls ++ [c] })
    (hok : c.Ok) (hj : c.joining = false) (hb : c.blocking = none) :
    WakeInv ⟨{ w.machine with calls := w.machine.calls ++ [c] }, w.unanswered⟩ := by
  have hnew : ∀ {P : Call → Prop}, P c → (∀ d ∈ w.machine.calls, P d) → ∀ d ∈ w.machine.calls ++ [c], P d := by
    intro P hc hold d hd
    rcases mem_append.1 hd with hd | hd
    · exact hold d hd
    · exact mem_singleton.1 hd ▸ hc
  refine ⟨hq, hnew hok h.ok, h.apart, fun hne => hnew hj (h.balanced.joined hne), fun hne => ?_,
    hnew (by simp [hb]) h.balanced.blocking, fun pid hpid => ?_⟩
  · have howed := h.balanced.owed hne
    simp only [countP_append]
    exact Nat.le_trans howed (Nat.le_add_right _ _)
  · refine (h.balanced.answered pid hpid).imp_right ?_
    rintro ⟨d, hd, hmem⟩
    exact ⟨d, mem_append_left _ hd, hmem⟩

theorem WakeInv.advance (h : w.WakeInv) {i : Nat} {c : Call} (cpu : Nat) (hc : w.machine.calls[i]? = some c)
    (htime : InTime w.machine c) :
    WakeInv ⟨{ (w.machine.advance i cpu c).1 with calls := w.machine.calls.set i (w.machine.advance i cpu c).2 },
      c.settle w.unanswered⟩ := by
  obtain ⟨xs, hh, -⟩ := h.queue.queue
  obtain ⟨hok, hb⟩ := leaves_advance h.balanced hh hc (h.ok c (mem_of_getElem? hc)) htime cpu
  refine ⟨h.queue.advance hc cpu, ?_, ?_, hb⟩
  · intro d hd
    rcases mem_or_eq_of_mem_set hd with hd | rfl
    · exact h.ok d hd
    · exact hok
  · simp only [tasks_advance_call]
    exact h.apart

theorem WakeInv.step (h : w.WakeInv) {a : Action} (ha : a.Apart) (htime : w.StepInTime a) : (w.step a).WakeInv := by
  unfold Waits.step Ipc.step
  by_cases hp : w.machine.sys.panicked = true
  · have hnone : callOf w.machine a = none := by
      cases a <;> simp [callOf, hp]
    rw [if_pos hp, hnone]
    exact h
  · rw [if_neg hp]
    have hq := inv_step w.machine a h.queue
    unfold Ipc.step at hq
    rw [if_neg hp] at hq
    cases a with
    | send msg | recv | tryRecv | close => exact h.start hq trivial rfl rfl
    | advance i cpu =>
      have hcall : callOf w.machine (.advance i cpu) = w.machine.calls[i]? := if_neg hp
      rw [hcall]
      dsimp only
      cases hc : w.machine.calls[i]? with
      | none => exact h
      | some c => exact h.advance cpu hc (htime c (hcall.trans hc))
    | kernel action =>
      obtain ⟨hw, ht⟩ := step_apart ha h.apart
      refine ⟨hq, h.ok, ht, ?_⟩
      simp only [Machine.waiting, hw]
      exact h.balanced

/-- In every run of a channel from boot whose steps are in time, no wakeup is lost. -/
theorem no_lost_wakeup_of_meets (table : ProcessTable) (cpuCount : Nat) (actions : List Action)
    (hapart : ∀ a ∈ actions, a.Apart) (h : Meets step StepInTime (new table cpuCount) actions) :
    Always step NoLostWakeup (new table cpuCount) actions :=
  always_of_meets (fun _ hw => hw.noLostWakeup) (fun _ _ ha hw htime => hw.step ha htime) (wakeInv_new table cpuCount)
    hapart h

/-- The process 1 is added to the scheduler, picked and switched to on the first of two CPUs. -/
def runFirst : List Action :=
  ([.addToScheduler 1, .advance 0, .advance 0, .advance 0, .advance 0, .advance 0, .schedule 0, .advance 0, .advance 0,
    .advance 0] : List Proc.Action).map .kernel

def hello : Message := .new 1 7 [104, 105]

def runWait : List Action :=
  runFirst ++ .recv :: List.replicate 5 (.advance 0 0) ++ .send hello :: List.replicate 4 (.advance 1 1)

theorem no_lost_wakeup_of_meets_runWait :
    (∀ a ∈ runWait, a.Apart) ∧ Meets step StepInTime (new Sys.oneProcess 2) runWait ∧
      Always step NoLostWakeup (new Sys.oneProcess 2) runWait := by
  have ha : ∀ a ∈ runWait, a.Apart := by decide
  have hm : Meets step StepInTime (new Sys.oneProcess 2) runWait := by decide +kernel
  exact ⟨ha, hm, no_lost_wakeup_of_meets Sys.oneProcess 2 runWait ha hm⟩

/-- The process finds no message; then the second CPU sends one, and finds nobody to wake; then the process waits. -/
def runLost : List Action :=
  runFirst ++ .recv :: .advance 0 0 :: .send hello :: List.replicate 3 (.advance 1 1) ++
    List.replicate 4 (.advance 0 0)

theorem wakeup_lost : ¬ ∀ (table : ProcessTable) (cpuCount : Nat) (actions : List Action),
    (∀ a ∈ actions, a.Apart) → Always step NoLostWakeup (new table cpuCount) actions := by
  intro h
  have hlost := (h Sys.oneProcess 2 runLost (by decide)).run
  have hco : (run step (new Sys.oneProcess 2) runLost).machine.buffer.count ≠ 0 := by decide +kernel
  have hw : (1 : Pid) ∈ (run step (new Sys.oneProcess 2) runLost).machine.waiting := by decide +kernel
  have hb : (run step (new Sys.oneProcess 2) runLost).machine.sys.stateOf 1 = some .blocked := by decide +kernel
  have hca : ∀ c ∈ (run step (new Sys.oneProcess 2) runLost).machine.calls, c.resting := by decide +kernel
  exact hlost hca hco 1 (.inl hw) hb

end Waits

end AstralOS.Ipc
