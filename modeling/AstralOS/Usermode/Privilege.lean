import AstralOS.Auth.Session
import AstralOS.Usermode.SpawnImage
import AstralOS.Usermode.UserMemory

/-!
# Who may do what

A process runs with the rights of its `uid`.  `spawn_user_process` does not look at the session: the new process is root's,
whoever is logged in.  The calls that format the disk or turn the machine off ask for the process that is running; they
refuse one that is not root's, and if there is none they do their work.
-/

namespace AstralOS.Privilege

open Auth Usermode Syscall
open Fallible

/-! ### Processes of a session -/

/-- The session and what `spawn_user_process` works on. -/
structure Kernel where
  users : UserDatabase
  session : Session
  spawn : SpawnState

inductive Action
  | login (username password : String)
  | logout
  | spawn (hhdm cr3 : BitVec 64) (img : Image)

def Kernel.exec (k : Kernel) : Action → Kernel
  | .login username password =>
    match k.users.authenticate username password with
    | some user => { k with session := k.session.login user }
    | none => k
  | .logout => { k with session := k.session.logout }
  | .spawn hhdm cr3 img => { k with spawn := (spawnUserProcess hhdm cr3 img k.spawn).2 }

/-- The process came into an empty slot of the table. -/
def Created (t t' : Proc.ProcessTable) (p : Proc.Process) : Prop :=
  ∃ i : Nat, t.processes[i]? = some none ∧ t'.processes[i]? = some (some p)

/-- The processes an action creates have the uid of the user who is logged in. -/
def OwnUid (k : Kernel) (a : Action) : Prop :=
  ∀ u, k.session.user = some u → k.session.loggedIn = true →
    ∀ p, Created k.spawn.table (k.exec a).spawn.table p → p.uid = u.uid

def RootCreates (k : Kernel) (a : Action) : Prop :=
  ∀ u, k.session.user = some u → k.session.loggedIn = true →
    (∃ p, Created k.spawn.table (k.exec a).spawn.table p) → u.uid = 0

theorem not_created_self (t : Proc.ProcessTable) (p : Proc.Process) : ¬Created t t p := by
  rintro ⟨i, hnone, hsome⟩
  rw [hnone] at hsome
  cases hsome

variable {p process : Proc.Process}

theorem fillSlot_created {ss ss' : List (Option Proc.Process)}
    (h : Proc.fillSlot process ss = some ss') {i : Nat} (hnone : ss[i]? = some none) (hsome : ss'[i]? = some (some p)) :
    p = process := by
  induction ss generalizing ss' i with
  | nil => cases h
  | cons s ss ih =>
    cases s with
    | none =>
      cases h
      grind
    | some q =>
      grind [Proc.fillSlot, Option.map_eq_some_iff]

theorem created_add {t t' : Proc.ProcessTable} (h : t.add process = .ok t') (hp : Created t t' p) : p = process := by
  obtain ⟨i, hnone, hsome⟩ := hp
  unfold Proc.ProcessTable.add at h
  split at h
  · rename_i ss hfill
    cases h
    exact fillSlot_created hfill hnone hsome
  · cases h

variable {cr3 hhdm : BitVec 64} {img : Image}

theorem uid_of_created {s : SpawnState}
    (h : Created s.table (spawnUserProcess hhdm cr3 img s).2.table p) : p.uid = 0 := by
  unfold spawnUserProcess at h
  split at h
  · exact absurd h (not_created_self _ _)
  · dsimp only at h
    split at h
    · exact absurd h (not_created_self _ _)
    · rename_i hadd
      rw [created_add hadd h]
      rfl

variable {k : Kernel}

theorem Kernel.uid_of_created {a : Action} (h : Created k.spawn.table (k.exec a).spawn.table p) : p.uid = 0 := by
  cases a with
  | login username password =>
    -- a login changes the session only
    have hs : (k.exec (.login username password)).spawn = k.spawn := by
      grind [Kernel.exec]
    rw [hs] at h
    exact absurd h (not_created_self _ _)
  | logout => exact absurd h (not_created_self _ _)
  | spawn hhdm cr3 img => exact Privilege.uid_of_created h

theorem ownUid_iff (k : Kernel) (a : Action) : OwnUid k a ↔ RootCreates k a := by
  constructor
  · rintro h u hu hin ⟨p, hp⟩
    rw [← h u hu hin p hp]
    exact Kernel.uid_of_created hp
  · intro h u hu hin p hp
    rw [Kernel.uid_of_created hp]
    exact (h u hu hin ⟨p, hp⟩).symm

/-! ### The privileged calls -/

/-- The calls that need root. -/
inductive Operation
  | format
  | shutdown
  | reboot
  deriving DecidableEq

def Operation.number : Operation → BitVec 64
  | .format => 213
  | .shutdown => 220
  | .reboot => 221

def TakesEffect (env : Env) (a : Args) (s : SysState) (op : Operation) : Prop :=
  match op with
  | .format => Ends (handleSyscall env op.number a) s
      (fun v s' => s' = { s with fs := (Fs.fsFormat s.fs).2 } ∧
        v = if (Fs.fsFormat s.fs).1 then 0 else SyscallError.ioError.asErrno) fun _ _ => False
  | .shutdown => Ends (handleSyscall env op.number a) s (fun _ _ => False) fun e _ => e = .power .shutdown
  | .reboot => Ends (handleSyscall env op.number a) s (fun _ _ => False) fun e _ => e = .power .reboot

def Refused (env : Env) (a : Args) (s : SysState) (op : Operation) : Prop :=
  Ends (handleSyscall env op.number a) s (fun v s' => s' = s ∧ v = SyscallError.permissionDenied.asErrno)
    fun _ _ => False

def OtherUser (s : SysState) : Prop := ∃ proc, s.currentProcess = some proc ∧ proc.uid ≠ 0

theorem checkRoot_ends (s : SysState) :
    Ends checkRoot s (fun _ s' => s' = s ∧ ¬OtherUser s)
      (fun e s' => e = .err .permissionDenied ∧ s' = s ∧ OtherUser s) := by
  refine ends_bind (ends_get ?_)
  cases hproc : s.currentProcess with
  | none =>
    refine ends_pure ⟨rfl, ?_⟩
    rintro ⟨proc, hsome, -⟩
    rw [hproc] at hsome
    cases hsome
  | some proc =>
    dsimp only
    by_cases huid : proc.uid = 0
    · rw [if_neg (not_not_intro huid)]
      refine ends_pure ⟨rfl, ?_⟩
      rintro ⟨proc', hsome, hne⟩
      simp_all
    · rw [if_pos huid]
      exact ends_throw ⟨rfl, rfl, proc, hproc, huid⟩

/-- What a privileged call does after the check. -/
def Operation.work : Operation → SyscallM (BitVec 64)
  | .format => do
    let s ← get
    let (ok, fs) := Fs.fsFormat s.fs
    modify fun s => { s with fs }
    if ok then return 0 else fail .ioError
  | .shutdown => setPowerState .shutdown
  | .reboot => setPowerState .reboot

theorem handleSyscall_operation (env : Env) (a : Args) (op : Operation) :
    handleSyscall env op.number a = tryCatch (do checkRoot; op.work) errnoOf := by
  cases op <;> rfl

variable {s : SysState}

theorem refused_of_otherUser (h : OtherUser s) (env : Env) (a : Args) (op : Operation) : Refused env a s op := by
  unfold Refused
  rw [handleSyscall_operation]
  refine ends_tryCatch (ends_bind_of (checkRoot_ends s) ?_ ?_)
  · simp_all
  · rintro e s' ⟨rfl, rfl, -⟩
    exact ends_pure ⟨rfl, rfl⟩

theorem ends_of_not_otherUser (h : ¬OtherUser s) (env : Env) (a : Args) {op : Operation} {Q : BitVec 64 → SysState → Prop}
    {E : SysStop → SysState → Prop} (hwork : Ends op.work s Q fun e s' => Ends (errnoOf e) s' Q E) :
    Ends (handleSyscall env op.number a) s Q E := by
  rw [handleSyscall_operation]
  refine ends_tryCatch (ends_bind_of (checkRoot_ends s) ?_ ?_)
  · rintro _ s' ⟨rfl, -⟩
    exact hwork
  · simp_all

theorem takesEffect_of_not_otherUser (h : ¬OtherUser s) (env : Env) (a : Args) (op : Operation) :
    TakesEffect env a s op := by
  cases op with
  | format =>
    refine ends_of_not_otherUser h env a (ends_bind (ends_get ?_))
    generalize Fs.fsFormat s.fs = r
    obtain ⟨ok, fs⟩ := r
    cases ok with
    | false => exact ends_bind (ends_modify (ends_throw (ends_pure ⟨rfl, rfl⟩)))
    | true => exact ends_bind (ends_modify (ends_pure ⟨rfl, rfl⟩))
  | shutdown | reboot => exact ends_of_not_otherUser h env a (ends_bind (ends_modify (ends_throw (ends_throw rfl))))

theorem not_takesEffect_of_refused {env : Env} {a : Args} {op : Operation} (h : Refused env a s op) :
    ¬TakesEffect env a s op := by
  intro hef
  have hn : Ends (handleSyscall env op.number a) s (fun _ _ => False) (fun _ _ => False) := by
    cases op with
    | format =>
      refine (h.and hef).mono ?_ fun _ _ hne => hne.1
      rintro v s' ⟨⟨-, hv⟩, -, hv'⟩
      rw [hv] at hv'
      cases hok : (Fs.fsFormat s.fs).1 <;> rw [hok] at hv' <;> revert hv' <;> decide
    | shutdown | reboot => exact (h.and hef).mono (fun _ _ hne => hne.2) fun _ _ hne => hne.1
  exact hn.state

theorem currentProcess_eq_some {proc : Proc.Process} :
    s.currentProcess = some proc ↔ ∃ pid, s.procs.getCurrentPid = some pid ∧ s.procs.table.get pid = some proc :=
  Option.bind_eq_some_iff

/-- The processes that the actions of a run create have the uid of the user who is logged in exactly if only root creates
processes.  A privileged call takes effect only for a process of root exactly if there is a current process. -/
theorem privilege_iff (k : Kernel) (as : List Action) (env : Env) (a : Args) (s : SysState) (op : Operation) :
    (Meets Kernel.exec OwnUid k as ↔ Meets Kernel.exec RootCreates k as) ∧
      ((TakesEffect env a s op →
          ∃ pid proc, s.procs.getCurrentPid = some pid ∧ s.procs.table.get pid = some proc ∧ proc.uid = 0) ↔
        ∃ pid proc, s.procs.getCurrentPid = some pid ∧ s.procs.table.get pid = some proc) := by
  refine ⟨meets_congr ownUid_iff k as, ?_⟩
  constructor
  · intro h
    by_cases ho : OtherUser s
    · obtain ⟨proc, hproc, -⟩ := ho
      obtain ⟨pid, hpid, hget⟩ := currentProcess_eq_some.1 hproc
      exact ⟨pid, proc, hpid, hget⟩
    · obtain ⟨pid, proc, hpid, hget, -⟩ := h (takesEffect_of_not_otherUser ho env a op)
      exact ⟨pid, proc, hpid, hget⟩
  · rintro ⟨pid, proc, hpid, hget⟩ hef
    refine ⟨pid, proc, hpid, hget, ?_⟩
    by_contra huid
    have ho : OtherUser s := ⟨proc, currentProcess_eq_some.2 ⟨pid, hpid, hget⟩, huid⟩
    exact not_takesEffect_of_refused (refused_of_otherUser ho env a op) hef

theorem exists_filled {ss ss' : List (Option Proc.Process)}
    (h : Proc.fillSlot process ss = some ss') : ∃ i : Nat, ss[i]? = some none ∧ ss'[i]? = some (some process) := by
  induction ss generalizing ss' with
  | nil => cases h
  | cons o ss ih =>
    cases o with
    | none =>
      cases h
      exact ⟨0, rfl, rfl⟩
    | some q =>
      simp only [Proc.fillSlot, Option.map_eq_some_iff] at h
      obtain ⟨ts, hts, rfl⟩ := h
      obtain ⟨i, hnone, hsome⟩ := ih hts
      exact ⟨i + 1, hnone, hsome⟩

theorem exists_created {s s' : SpawnState} {process : SpawnedProcess}
    (h : spawnUserProcess hhdm cr3 img s = (.ok process, s')) : ∃ p, Created s.table s'.table p := by
  unfold spawnUserProcess at h
  split at h
  · cases h
  · dsimp only at h
    split at h
    · cases h
    · rename_i hadd
      cases h
      unfold Proc.ProcessTable.add at hadd
      split at hadd
      · rename_i ss hfill
        cases hadd
        exact ⟨_, exists_filled hfill⟩
      · cases hadd

theorem not_ownUid {u : User} (hu : k.session.user = some u) (hin : k.session.loggedIn = true)
    (huid : u.uid ≠ 0) {process : SpawnedProcess} {s' : SpawnState}
    (hs : spawnUserProcess hhdm cr3 img k.spawn = (.ok process, s')) : ¬OwnUid k (.spawn hhdm cr3 img) := by
  rw [ownUid_iff]
  intro hroot
  obtain ⟨p, hp⟩ := exists_created hs
  refine huid (hroot u hu hin ⟨p, ?_⟩)
  rw [Kernel.exec, hs]
  exact hp

theorem Kernel.exec_login {username password : String} {u : User}
    (h : k.users.authenticate username password = some u) :
    k.exec (.login username password) = { k with session := k.session.login u } := by
  simp only [Kernel.exec, h]

def freshKernel : Kernel := { users := .init, session := .new, spawn := smallSystem }

/-- The account `user` logs in and runs a program. -/
def userRuns : List Action := [.login "user" "password", .spawn 0 kernelP4.addr twoSegments]

theorem authenticate_user :
    ∃ u, freshKernel.users.authenticate "user" "password" = some u ∧ u.uid = 1000 := by
  simp [freshKernel, UserDatabase.init, UserDatabase.authenticate, User.verifyPassword, User.new]

/-- The program that `user` runs is root's, and without a current process the machine is turned off. -/
theorem user_process_is_root :
    ¬Meets Kernel.exec OwnUid freshKernel userRuns ∧
      TakesEffect plainEnv ⟨0, 0, 0, 0, 0⟩ (flatState 0 [] (sparseFs 0) none) .shutdown ∧
      (flatState 0 [] (sparseFs 0) none).procs.getCurrentPid = none := by
  refine ⟨?_, takesEffect_of_not_otherUser ?_ _ _ _, rfl⟩
  · rintro ⟨-, hown, -⟩
    obtain ⟨u, hl, huid⟩ := authenticate_user
    obtain ⟨process, s', hs⟩ := exists_spawn_twoSegments
    rw [Kernel.exec_login hl] at hown
    refine not_ownUid (k := { freshKernel with session := freshKernel.session.login u }) rfl rfl ?_ hs hown
    rw [huid]
    decide
  · rintro ⟨proc, hproc, -⟩
    cases hproc

end AstralOS.Privilege
