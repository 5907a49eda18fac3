import AstralOS.Lib.Run

/-!
# The condition variable

The model of `Condvar` of `sync/mod.rs`: `k` threads in `wait` and one call of `notify_all`, one atomic operation being one
step.  `notify_all` starts when all threads are counted in `waiters`, and sets the flag once for each of them; but a flag that
is set stays set, so the stores may all come before the first `swap`, which takes them all (`notify_all_wakes_iff`).
-/

open Function

namespace AstralOS.Sync

structure Condvar where
  notified : Bool
  waiters : BitVec 64
  deriving DecidableEq

def Condvar.new : Condvar := ⟨false, 0⟩

namespace Condvar

/-- Where a thread is: the atomic operation it does next. -/
inductive Pc
  /-- `wait`, before it increments `waiters`. -/
  | enter
  /-- `wait`, in the loop that swaps the flag. -/
  | spin
  /-- `wait`, before it decrements `waiters`. -/
  | leave
  /-- `wait` has returned. -/
  | returned
  deriving DecidableEq

/-- Where the call of `notify_all` is. -/
inductive Notifier
  /-- Before it loads `waiters`. -/
  | load
  /-- In the loop that sets the flag; the call is finished when no store is left. -/
  | store (left : Nat)
  deriving DecidableEq

structure Threads (k : Nat) where
  condvar : Condvar
  pc : Fin k → Pc
  notifier : Notifier

inductive Action (k : Nat)
  | wait (i : Fin k)
  | notifyAll
  deriving DecidableEq

namespace Threads

variable {k : Nat}

def start (k : Nat) : Threads k := ⟨.new, fun _ => .enter, .load⟩

def wait (s : Threads k) (i : Fin k) : Threads k :=
  match s.pc i with
  | .enter => { s with
      condvar := { s.condvar with waiters := s.condvar.waiters + 1 }, pc := update s.pc i .spin }
  | .spin =>
    if s.condvar.notified then
      { s with condvar := { s.condvar with notified := false }, pc := update s.pc i .leave }
    else s
  | .leave => { s with
      condvar := { s.condvar with waiters := s.condvar.waiters - 1 }, pc := update s.pc i .returned }
  | .returned => s

def notifyAll (s : Threads k) : Threads k :=
  match s.notifier with
  | .load => if ∀ i, s.pc i ≠ .enter then { s with notifier := .store s.condvar.waiters.toNat } else s
  | .store (left + 1) => { s with condvar := { s.condvar with notified := true }, notifier := .store left }
  | .store 0 => s

def step (s : Threads k) : Action k → Threads k
  | .wait i => s.wait i
  | .notifyAll => s.notifyAll

/-- `notify_all` is finished and the flag is down, but some thread is still in `wait`. -/
def Lost (inside : Pc → Prop) (s : Threads k) : Prop :=
  s.notifier = .store 0 ∧ s.condvar.notified = false ∧ ∃ i, inside (s.pc i)

/-! ### A run that loses notifications -/

def entered (k m : Nat) : Threads k :=
  ⟨⟨false, BitVec.ofNat 64 m⟩, fun i => if i.val < m then .spin else .enter, .load⟩

theorem exists_run_entered (m : Nat) (hm : m ≤ k) : ∃ as, run step (start k) as = entered k m := by
  induction m with
  | zero => exact ⟨[], rfl⟩
  | succ m ih =>
    obtain ⟨as, has⟩ := ih (by omega)
    refine ⟨as ++ [.wait ⟨m, hm⟩], ?_⟩
    have hpc : update (entered k m).pc ⟨m, hm⟩ .spin = (entered k (m + 1)).pc := by
      funext i
      by_cases hi : i = ⟨m, hm⟩
      · simp [hi, entered]
      · have hne : i.val ≠ m := fun h => hi (Fin.ext h)
        rw [update_of_ne hi]
        simp only [entered, Nat.lt_succ_iff_lt_or_eq, hne, or_false]
    simp_all [run_append, run_cons, run_nil, step, wait, entered, BitVec.ofNat_add]

theorem exists_run_stored (left : Nat) (s : Threads k) (hs : s.notifier = .store left) :
    ∃ as, (run step s as).notifier = .store 0 ∧ (run step s as).pc = s.pc := by
  induction left generalizing s with
  | zero => exact ⟨[], hs, rfl⟩
  | succ left ih =>
    obtain ⟨as, hf, hpc⟩ := ih (s.step .notifyAll) (by simp [step, notifyAll, hs])
    exact ⟨.notifyAll :: as, hf, hpc.trans (by simp [step, notifyAll, hs])⟩

theorem exists_run_lost (hk : 0 < k) :
    ∃ as, (run step (start k) as).notifier = .store 0 ∧ (run step (start k) as).condvar.notified = false ∧
      (run step (start k) as).pc ⟨0, hk⟩ ≠ .returned ∧ ∀ i, i ≠ ⟨0, hk⟩ → (run step (start k) as).pc i = .spin := by
  obtain ⟨as, has⟩ := exists_run_entered k (Nat.le_refl k)
  have hspin : ∀ i, (entered k k).pc i = .spin := fun i => if_pos i.isLt
  have hload : ((entered k k).step .notifyAll).notifier = .store (BitVec.ofNat 64 k).toNat ∧
      ((entered k k).step .notifyAll).pc = (entered k k).pc := by
    simp [step, notifyAll, entered]
  obtain ⟨bs, hf, hpc⟩ := exists_run_stored _ _ hload.1
  refine ⟨as ++ .notifyAll :: bs ++ [.wait ⟨0, hk⟩], ?_⟩
  rw [run_append, run_append, has, run_cons, run_cons, run_nil]
  generalize run step ((entered k k).step .notifyAll) bs = s at hf hpc
  have hpc : ∀ i, s.pc i = .spin := fun i => by rw [hpc, hload.2, hspin]
  simp only [step, wait, hpc]
  split
  next => exact ⟨hf, rfl, by simp, fun i hi => by simp [hi, hpc]⟩
  next hdown => exact ⟨hf, by simpa using hdown, by simp [hpc], fun i _ => hpc i⟩

/-! ### One thread -/

/-- What one thread and the call can be doing at the same time. -/
inductive Single (s : Threads 1) : Prop
  | entering (h : s = start 1)
  | waiting (h : s = ⟨⟨false, 1⟩, fun _ => .spin, .load⟩ ∨ s = ⟨⟨false, 1⟩, fun _ => .spin, .store 1⟩)
  | notified (h : s = ⟨⟨true, 1⟩, fun _ => .spin, .store 0⟩)
  | gone (h : ∀ i, s.pc i ≠ .enter ∧ s.pc i ≠ .spin) (hn : s.notifier = .store 0)

theorem Single.step {s : Threads 1} (h : s.Single) (a : Action 1) : (s.step a).Single := by
  have hu : ∀ (f : Fin 1 → Pc) pc, update f 0 pc = fun _ => pc := fun f pc =>
    funext fun i => by rw [Subsingleton.elim i 0, update_self]
  cases a with
  | wait i =>
    obtain rfl := Subsingleton.elim 0 i
    cases h with
    | entering h =>
      subst h
      exact .waiting (.inl (by simp [Threads.step, Threads.wait, start, Condvar.new, hu]))
    | waiting h =>
      rcases h with rfl | rfl
      · exact .waiting (.inl rfl)
      · exact .waiting (.inr rfl)
    | notified h =>
      subst h
      exact .gone (fun i => by simp [Threads.step, Threads.wait, hu]) rfl
    | gone h hn =>
      unfold Threads.step Threads.wait
      dsimp only
      cases hpc : s.pc 0 with
      | enter => exact absurd hpc (h 0).1
      | spin => exact absurd hpc (h 0).2
      | leave => exact .gone (fun i => by simp [hu]) hn
      | returned => exact .gone h hn
  | notifyAll =>
    cases h with
    | entering h =>
      subst h
      exact .entering (by simp [Threads.step, Threads.notifyAll, start])
    | waiting h =>
      rcases h with rfl | rfl
      · exact .waiting (.inr (by simp [Threads.step, Threads.notifyAll]))
      · exact .notified rfl
    | notified h =>
      subst h
      exact .notified rfl
    | gone h hn =>
      have hsame : s.step .notifyAll = s := by simp [Threads.step, Threads.notifyAll, hn]
      rw [hsame]
      exact .gone h hn

/-- With at most one thread no notification is lost: after `notify_all` it is not in the loop with the flag down.  With two
threads one may be, for ever.  (A thread that has taken the flag and has not decremented `waiters` yet is still in `wait`.) -/
theorem notify_all_wakes_iff (k : Nat) :
    ((∀ as, ¬(run step (start k) as).Lost (· ≠ .returned)) ↔ k = 0) ∧
      ((∀ as, ¬(run step (start k) as).Lost (· = .spin)) ↔ k ≤ 1) := by
  refine ⟨⟨fun h => ?_, ?_⟩, ⟨fun h => ?_, fun hk as => ?_⟩⟩
  · by_contra hk
    obtain ⟨as, hf, hdown, hzero, -⟩ := exists_run_lost (Nat.pos_of_ne_zero hk)
    exact h as ⟨hf, hdown, _, hzero⟩
  · rintro rfl as ⟨-, -, i, -⟩
    exact i.elim0
  · by_contra hk
    obtain ⟨as, hf, hdown, -, hspin⟩ := exists_run_lost (k := k) (by omega)
    exact h as ⟨hf, hdown, ⟨1, by omega⟩, hspin _ (by simp)⟩
  · rcases Nat.le_one_iff_eq_zero_or_eq_one.1 hk with rfl | rfl
    · rintro ⟨-, -, i, -⟩
      exact i.elim0
    · have hs : (run step (start 1) as).Single :=
        run_invariant (Q := fun _ => True) (fun _ a h _ => h.step a) (.entering rfl) fun _ _ => trivial
      rintro ⟨hf, hdown, i, hspin⟩
      cases hs with
      | entering h => rw [h] at hf; cases hf
      | waiting h => rcases h with h | h <;> (rw [h] at hf; cases hf)
      | notified h => rw [h] at hdown; cases hdown
      | gone h _ => exact (h i).2 hspin

/-- Two threads, both counted before the call: the two stores come first, then one thread takes the flag, and the other stays in
its loop. -/
theorem notify_all_leaves_waiter :
    (run step (start 2) [.wait 0, .wait 1, .notifyAll, .notifyAll, .notifyAll, .wait 0, .wait 0]).Lost (· = .spin) :=
  ⟨rfl, rfl, 1, rfl⟩

end Threads

end Condvar

end AstralOS.Sync
