import AstralOS.Process.Locks

/-!
# Deadlock of the scheduler's locks

`schedule` and `yield_cpu` lock the process table while they hold their scheduler's lock, and `exit_process` locks the
schedulers while it holds the table's: on two CPUs at the same time they can wait for each other (`locks_deadlock`).
`balance_load` keeps the lock of one scheduler while it takes another's again.

`held` reads the locks a CPU has at a place off the text.  The order in which nested locks are asked for depends on the
part of the code the CPUs are in, and `no_deadlock_of_meets` says which parts must not overlap for there to be one.
-/

namespace AstralOS.Proc

open Locking Option

namespace Place

/-- The locks a CPU holds at a place: the guards that are alive there. -/
def held (cpu : Nat) : Place → List Lock
  | scheduleCheck _ | scheduleRequeue | scheduleNext _ | scheduleUnlock | yieldTable _ | yieldUnlock => [.sched cpu]
  | scheduleChecked _ | scheduleRequeued | scheduleLooked _ | yieldTableUnlock => [.sched cpu, .table]
  | exitRemove _ _ | exitTableUnlock | priorityTableUnlock _ _ | addTableUnlock _ _ _ => [.table]
  | exitRemoved _ c => [.table, .sched c]
  | priorityRemoved _ _ c | addLoaded _ _ c _ | addUnlock c | balanceSummed c _ | balanceReadUnlock c _ _
  | balanceOtherUnlock _ _ c _ | balanceRelock _ c | balanceUnlock c _ => [.sched c]
  | balanceDrop w _ => [.sched w.cpu]
  | balanceTargetUnlock w c => [.sched c, .sched w.cpu]
  | scheduleLock | yieldLoad | yieldLock _ | exitLoad | exitTable _ | priorityRemove _ _ _ | priorityTable _ _
  | addLoad _ _ _ _ | addTable _ _ _ | addLock _ _ _ | balanceSum _ _ | balanceRead _ _ | balanceLock _
  | balanceOther _ _ _ _ | balanceTarget _ _ _ => []

/-- The parts of the code that ask for a second lock, and the rest. -/
inductive Part
  /-- `schedule` and `yield_cpu`. -/
  | nested
  /-- `balance_load`. -/
  | balance
  /-- The section of `exit_process` under the table's lock. -/
  | exit
  /-- Everything else. -/
  | flat
  deriving DecidableEq

def part : Place → Part
  | scheduleLock | scheduleCheck _ | scheduleChecked _ | scheduleRequeue | scheduleRequeued | scheduleNext _
  | scheduleLooked _ | scheduleUnlock | yieldLoad | yieldLock _ | yieldTable _ | yieldTableUnlock | yieldUnlock => .nested
  | balanceSum _ _ | balanceSummed _ _ | balanceRead _ _ | balanceReadUnlock _ _ _ | balanceLock _ | balanceDrop _ _
  | balanceOther _ _ _ _ | balanceOtherUnlock _ _ _ _ | balanceTarget _ _ _ | balanceRelock _ _
  | balanceTargetUnlock _ _ | balanceUnlock _ _ => .balance
  | exitRemove _ _ | exitRemoved _ _ | exitTableUnlock => .exit
  | exitLoad | exitTable _ | priorityRemove _ _ _ | priorityRemoved _ _ _ | priorityTable _ _ | priorityTableUnlock _ _
  | addLoad _ _ _ _ | addLoaded _ _ _ _ | addTable _ _ _ | addTableUnlock _ _ _ | addLock _ _ _ | addUnlock _ => .flat

theorem nested_cases {cpu : Nat} {p : Place} {l l' : Lock} (hop : p.op cpu = .acquire l') (hl : l ∈ p.held cpu) :
    (p.part = .nested ∧ l = .sched cpu ∧ l' = .table) ∨ (p.part = .exit ∧ l = .table ∧ ∃ c, l' = .sched c) ∨
      ∃ w target, p = .balanceRelock w target ∧ l = .sched target ∧ l' = .sched w.cpu := by
  cases p with
  | exitRemove pid c =>
    simp only [op, LockOp.acquire.injEq, held, List.mem_singleton] at hop hl
    exact .inr (.inl ⟨rfl, hl, c, hop.symm⟩)
  | _ => simp_all [op, held, part]

theorem table_mem_held {cpu : Nat} {p : Place} (h : p.part = .exit) : .table ∈ p.held cpu := by
  cases p <;> simp_all [part, held]

def Found : Place → Prop
  | balanceOther w _ other best => other ≠ w.cpu ∧ ∀ b ∈ best, b.2 ≠ w.cpu
  | balanceOtherUnlock w _ _ best => best ≠ none ∧ ∀ b ∈ best, b.2 ≠ w.cpu
  | balanceTarget w _ target | balanceRelock w target | balanceTargetUnlock w target => target ≠ w.cpu
  | _ => True

/-- The parts that must not overlap on two CPUs: they nest the locks in different orders. -/
def Part.clashes : Part → Part → Bool
  | .exit, .nested | .nested, .exit | .exit, .balance | .balance, .exit | .balance, .balance => true
  | _, _ => false

theorem Part.clashes_comm (p q : Part) : p.clashes q = q.clashes p := by
  cases p <;> cases q <;> rfl

end Place

namespace Sys

variable {s : Sys} {cpu : Nat}

/-- The code goes on at a place of the part, with the locks, and leaves the number of CPUs. -/
def GoesOn (s : Sys) (cpu : Nat) (part : Place.Part) (locks : List Lock) (r : Sys × Option Place) : Prop :=
  r.1.cpuCount = s.cpuCount ∧ ∃ p, r.2 = some p ∧ p.part = part ∧ p.held cpu = locks ∧ p.Found

theorem goesOn_pickAt : GoesOn s cpu .nested [.sched cpu] (s.pickAt cpu) := by
  unfold pickAt
  dsimp only
  split
  · exact ⟨rfl, _, rfl, rfl, rfl, trivial⟩
  · exact ⟨rfl, _, rfl, rfl, rfl, trivial⟩

theorem goesOn_requeueAt : GoesOn s cpu .nested [.sched cpu] (s.requeueAt cpu) := by
  unfold requeueAt
  split
  · exact ⟨rfl, _, rfl, rfl, rfl, trivial⟩
  · exact goesOn_pickAt

theorem goesOn_balanceScan (w : Sweep) : GoesOn s cpu .balance [.sched w.cpu] (s.balanceScan w) := by
  unfold balanceScan
  dsimp only
  split
  · split
    · exact ⟨rfl, _, rfl, rfl, rfl, trivial⟩
    · exact ⟨rfl, _, rfl, rfl, rfl, trivial⟩
  · exact ⟨rfl, _, rfl, rfl, rfl, trivial⟩

theorem goesOn_balanceOtherAt {w : Sweep} (pid : Pid) {other : Nat} {best : Best}
    (hbest : ∀ b ∈ best, b.2 ≠ w.cpu) (hnone : best = none → other = 0 ∧ 2 ≤ s.cpuCount) :
    GoesOn s cpu .balance [] (s, some (s.balanceOtherAt w pid other best)) := by
  unfold balanceOtherAt
  have hne : (if other = w.cpu then other + 1 else other) ≠ w.cpu := by split <;> omega
  have hlt : best = none → (if other = w.cpu then other + 1 else other) < s.cpuCount := by
    grind
  generalize (if other = w.cpu then other + 1 else other) = next at hne hlt
  by_cases hnext : next < s.cpuCount
  · rw [if_pos hnext]
    exact ⟨rfl, _, rfl, rfl, rfl, hne, hbest⟩
  · rw [if_neg hnext]
    refine ⟨rfl, _, rfl, rfl, rfl, ?_⟩
    cases best with
    | none => exact absurd (hlt rfl) hnext
    | some b => exact hbest b rfl

theorem better_ne {best : Best} {c other : Nat} (ho : other ≠ c) (hbest : ∀ b ∈ best, b.2 ≠ c) :
    s.better other best ≠ none ∧ ∀ b ∈ s.better other best, b.2 ≠ c := by
  unfold better
  cases best with
  | none => simpa using ho
  | some b =>
    grind

/-- What the code does at a place: the locks, the part and the search fit the next place. -/
structure GoesRight (s : Sys) (cpu : Nat) (p : Place) : Prop where
  cpuCount : (s.after cpu p).1.cpuCount = s.cpuCount
  held : Follows Place.held kernel s cpu p
  found : ∀ p', (s.after cpu p).2 = some p' → p'.Found
  part : ∀ p', (s.after cpu p).2 = some p' → p'.part = p.part ∨ (p'.part = .exit ∧ ∃ pid, p = .exitTable pid) ∨
    (p' = .yieldLoad ∧ p = .exitTableUnlock)

def locksAfter (cpu : Nat) (p : Place) : List Lock :=
  match p.op cpu with
  | .acquire l => p.held cpu ++ [l]
  | .release l => (p.held cpu).filter (· ≠ l)
  | .access => p.held cpu

variable {p : Place}

theorem mem_held_of_release {l : Lock} (h : p.op cpu = .release l) : l ∈ p.held cpu := by
  cases p <;> simp_all [Place.op, Place.held]

theorem follows_of_locks
    (h : heldOf Place.held cpu (s.after cpu p).2 = locksAfter cpu p) : Follows Place.held kernel s cpu p := by
  have ha : (kernel.after s cpu p).2 = (s.after cpu p).2 := rfl
  have hop : kernel.op cpu p = p.op cpu := rfl
  unfold Follows
  rw [hop, ha, h]
  unfold locksAfter
  cases hp : p.op cpu with
  | acquire l => simp
  | release l => simpa using mem_held_of_release hp
  | access => simp

theorem GoesOn.right {part : Place.Part} {locks : List Lock}
    (h : GoesOn s cpu part locks (s.after cpu p)) (hpart : part = p.part) (hl : locks = locksAfter cpu p) :
    GoesRight s cpu p := by
  obtain ⟨hc, q, hq, hqp, hqh, hf⟩ := h
  refine ⟨hc, follows_of_locks ?_, ?_, ?_⟩
  · rw [hq, ← hl, ← hqh]
    rfl
  · simp_all
  · simp_all

theorem goesRight_of_none (hc : (s.after cpu p).1.cpuCount = s.cpuCount)
    (h : (s.after cpu p).2 = none) (hl : locksAfter cpu p = []) : GoesRight s cpu p := by
  refine ⟨hc, follows_of_locks ?_, ?_, ?_⟩
  · rw [h, hl]
    rfl
  · simp [h]
  · simp [h]

theorem goesRight_of_balanceReadAt {c avg : Nat}
    (h : s.after cpu p = (s, s.balanceReadAt c avg)) (hp : p.part = .balance) (hl : locksAfter cpu p = []) :
    GoesRight s cpu p := by
  unfold balanceReadAt at h
  split at h
  · exact GoesOn.right (h ▸ ⟨rfl, _, rfl, rfl, rfl, trivial⟩ : GoesOn s cpu .balance [] _) hp.symm hl.symm
  · exact goesRight_of_none (by rw [h]) (by rw [h]) hl

theorem goesRight_scheduleLock : GoesRight s cpu .scheduleLock := by
  refine GoesOn.right ?_ rfl rfl
  simp only [after]
  split
  · split
    · split
      · exact ⟨rfl, _, rfl, rfl, rfl, trivial⟩
      · exact goesOn_requeueAt
    · exact goesOn_requeueAt
  · exact goesOn_requeueAt

theorem goesRight_exitTable (pid : Pid) : GoesRight s cpu (.exitTable pid) := by
  have hgo : GoesOn s cpu .exit [.table] (s.after cpu (.exitTable pid)) := by
    simp only [after, exitRemoveAt]
    split
    · split <;> exact ⟨rfl, _, rfl, rfl, rfl, trivial⟩
    · exact ⟨rfl, _, rfl, rfl, rfl, trivial⟩
  obtain ⟨hc, q, hq, hqp, hqh, hf⟩ := hgo
  refine ⟨hc, follows_of_locks (by rw [hq]; exact hqh), ?_, ?_⟩
  · simp_all
  · simp_all

attribute [local simp] locksAfter Place.op Place.held

theorem goesRight_balanceSummed (c total : Nat) : GoesRight s cpu (.balanceSummed c total) := by
  have hl : locksAfter cpu (.balanceSummed c total) = [] := by simp
  by_cases hc : c + 1 < s.cpuCount
  · have ha : s.after cpu (.balanceSummed c total) = (s, some (.balanceSum (c + 1) total)) := if_pos hc
    exact GoesOn.right ⟨by rw [ha], .balanceSum (c + 1) total, by rw [ha], rfl, rfl, trivial⟩ rfl hl.symm
  · have ha : s.after cpu (.balanceSummed c total) =
        if total = 0 then (s, none) else (s, s.balanceReadAt 0 (total / s.cpuCount)) := if_neg hc
    by_cases ht : total = 0
    · rw [if_pos ht] at ha
      exact goesRight_of_none (by rw [ha]) (by rw [ha]) hl
    · exact goesRight_of_balanceReadAt (ha.trans (if_neg ht)) rfl hl

theorem goesRight_balanceReadUnlock (c avg load : Nat) : GoesRight s cpu (.balanceReadUnlock c avg load) := by
  have hl : locksAfter cpu (.balanceReadUnlock c avg load) = [] := by simp
  by_cases hload : load > avg + 1
  · have ha : s.after cpu (.balanceReadUnlock c avg load) = (s, some (.balanceLock ⟨c, avg, load, 4⟩)) :=
      if_pos hload
    exact GoesOn.right ⟨by rw [ha], .balanceLock _, by rw [ha], rfl, rfl, trivial⟩ rfl hl.symm
  · exact goesRight_of_balanceReadAt (if_neg hload) rfl hl

theorem goesRight (hb : p.part = .balance → 2 ≤ s.cpuCount) (h : p.Found) : GoesRight s cpu p := by
  cases p with
  | scheduleLock => exact goesRight_scheduleLock
  | exitTable pid => exact goesRight_exitTable pid
  | balanceSummed c total => exact goesRight_balanceSummed c total
  | balanceReadUnlock c avg load => exact goesRight_balanceReadUnlock c avg load
  | scheduleChecked running =>
    suffices hgo : GoesOn s cpu .nested [.sched cpu] (s.after cpu (.scheduleChecked running)) from
      hgo.right rfl (by simp)
    simp only [after]
    split
    · exact ⟨rfl, _, rfl, rfl, rfl, trivial⟩
    · exact goesOn_requeueAt
  | scheduleRequeued => exact goesOn_pickAt.right rfl (by simp)
  | scheduleNext _ | yieldTable _ =>
    refine GoesOn.right ?_ rfl rfl
    simp only [after]
    split <;> exact ⟨rfl, _, rfl, rfl, rfl, trivial⟩
  | scheduleLooked found =>
    suffices hgo : GoesOn s cpu .nested [.sched cpu] (s.after cpu (.scheduleLooked found)) from
      hgo.right rfl (by simp)
    simp only [after]
    split <;> exact ⟨rfl, _, rfl, rfl, rfl, trivial⟩
  | yieldLoad =>
    cases hpid : s.getCurrentPid with
    | none => exact goesRight_of_none rfl (by simp [after, hpid]) rfl
    | some pid => exact GoesOn.right ⟨rfl, .yieldLock pid, by simp [after, hpid], rfl, rfl, trivial⟩ rfl rfl
  | exitLoad =>
    cases hpid : s.getCurrentPid with
    | none => exact goesRight_of_none rfl (by simp [after, hpid]) rfl
    | some pid => exact GoesOn.right ⟨rfl, .exitTable pid, by simp [after, hpid], rfl, rfl, trivial⟩ rfl rfl
  | exitTableUnlock =>
    refine ⟨rfl, follows_of_locks (by simp [after, heldOf]), ?_, ?_⟩
    · rintro p' ⟨⟩
      trivial
    · rintro p' ⟨⟩
      exact .inr (.inr ⟨rfl, rfl⟩)
  | exitRemoved pid c =>
    suffices hgo : GoesOn s cpu .exit [.table] (s.after cpu (.exitRemoved pid c)) from
      hgo.right rfl (by simp)
    simp only [after, exitRemoveAt]
    split <;> exact ⟨rfl, _, rfl, rfl, rfl, trivial⟩
  | priorityRemoved pid priority c =>
    suffices hgo : GoesOn s cpu .flat [] (s.after cpu (.priorityRemoved pid priority c)) from
      hgo.right rfl (by simp)
    simp only [after, priorityRemoveAt]
    split <;> exact ⟨rfl, _, rfl, rfl, rfl, trivial⟩
  | priorityTableUnlock pid priority =>
    suffices hgo : GoesOn s cpu .flat [] (s.after cpu (.priorityTableUnlock pid priority)) from
      hgo.right rfl (by simp)
    simp only [after, addLoadAt]
    split <;> exact ⟨rfl, _, rfl, rfl, rfl, trivial⟩
  | addLoaded pid priority c best =>
    suffices hgo : GoesOn s cpu .flat [] (s.after cpu (.addLoaded pid priority c best)) from
      hgo.right rfl (by simp)
    simp only [after, addLoadAt]
    split <;> exact ⟨rfl, _, rfl, rfl, rfl, trivial⟩
  | balanceUnlock c avg => exact goesRight_of_balanceReadAt rfl rfl (by simp)
  | balanceLock w => exact (goesOn_balanceScan w).right rfl rfl
  | balanceTargetUnlock w target =>
    -- the target is another CPU, so the lock of the CPU that is relieved stays
    have hne : w.cpu ≠ target := Ne.symm h
    exact (goesOn_balanceScan w).right rfl (by simp [hne])
  | balanceDrop w pid =>
    refine (goesOn_balanceOtherAt pid ?_ ?_).right rfl (by simp)
    · simp
    · exact fun _ => ⟨rfl, hb rfl⟩
  | balanceOtherUnlock w pid other best =>
    refine (goesOn_balanceOtherAt pid h.2 ?_).right rfl (by simp)
    exact fun hnone => absurd hnone h.1
  | balanceOther w pid other best => exact GoesOn.right ⟨rfl, _, rfl, rfl, rfl, better_ne h.1 h.2⟩ rfl rfl
  | balanceTarget _ _ _ | balanceRelock _ _ => exact GoesOn.right ⟨rfl, _, rfl, rfl, rfl, h⟩ rfl rfl
  | scheduleUnlock | yieldUnlock | addUnlock c =>
    exact goesRight_of_none rfl rfl (by simp)
  | addTableUnlock _ _ _ | yieldTableUnlock =>
    exact GoesOn.right ⟨rfl, _, rfl, rfl, rfl, trivial⟩ rfl (by simp)
  | _ => exact GoesOn.right ⟨rfl, _, rfl, rfl, rfl, trivial⟩ rfl rfl

end Sys

/-! ### The parts the CPUs are in -/

namespace Smp

variable {m : Smp}

def Alone (m : Smp) (cpu : Nat) (part : Place.Part) : Prop :=
  ∀ i < m.data.cpuCount, i ≠ cpu → ∀ p ∈ m.pc i, ¬ part.clashes p.part

instance (m : Smp) (cpu : Nat) (part : Place.Part) : Decidable (m.Alone cpu part) :=
  @Nat.decidableBallLT _ _ fun _ _ => @instDecidableForall _ _ _ (Option.decidableForallMem _)

def entered (m : Smp) : SmpAction → Option (Nat × Place.Part)
  | .call cpu .schedule | .call cpu .yieldCpu => some (cpu, .nested)
  | .call cpu .balanceLoad => some (cpu, .balance)
  | .call _ _ => none
  | .advance cpu =>
    match m.pc cpu with
    | some (.exitTable _) => if m.owner .table = none then some (cpu, .exit) else none
    | _ => none

/-- The condition on a step: it enters a part that nests locks while no other CPU is in one that clashes with it. -/
def Careful (m : Smp) (a : SmpAction) : Prop := ∀ e ∈ m.entered a, m.Alone e.1 e.2

instance (m : Smp) (a : SmpAction) : Decidable (m.Careful a) := Option.decidableForallMem _

/-- What holds in every state of a run of careful steps. -/
structure Inv (m : Smp) : Prop where
  held : HeldBy Place.held m
  live : ∀ i, m.pc i ≠ none → i < m.data.cpuCount
  found : ∀ i p, m.pc i = some p → p.Found
  several : ∀ i p, m.pc i = some p → p.part = .balance → 2 ≤ m.data.cpuCount
  apart : ∀ i j p q, m.pc i = some p → m.pc j = some q → i ≠ j → ¬ p.part.clashes q.part

theorem Inv.exit_alone (h : m.Inv) {i j : Nat} {p q : Place} (hi : m.pc i = some p) (hj : m.pc j = some q)
    (hp : p.part = .exit) (hq : q.part = .exit) : i = j := by
  have hown : ∀ k r, m.pc k = some r → r.part = .exit → m.owner .table = some k := by
    intro k r hk hr
    refine (h.held .table k).2 ?_
    rw [hk]
    exact Place.table_mem_held hr
  exact some.inj ((hown i p hi hp).symm.trans (hown j q hj hq))

theorem Inv.not_deadlocked (h : m.Inv) : ¬ kernel.Deadlocked m := by
  have hasks : ∀ i l l', m.Holds i l → kernel.Wants m i l' →
      ∃ p, m.pc i = some p ∧ p.op i = .acquire l' ∧ l ∈ p.held i := by
    rintro i l l' hl ⟨p, hp, hop⟩
    have hmem := (h.held l i).1 hl
    rw [hp] at hmem
    exact ⟨p, hp, hop, hmem⟩
  by_cases hexit : ∃ i p, m.pc i = some p ∧ p.part = .exit
  · -- only `exit_process` nests locks: the table's comes first
    obtain ⟨e, pe, hpe, hep⟩ := hexit
    refine Locking.not_deadlocked (fun | .table => 0 | .sched _ => 1) ?_
    intro i l l' hl hl'
    obtain ⟨p, hp, hop, hmem⟩ := hasks i l l' hl hl'
    have hc : ¬ (Place.Part.exit).clashes p.part ∨ p.part = .exit := by
      by_cases hie : e = i
      · simp_all [some.injEq]
      · exact .inl (hep ▸ h.apart e i pe p hpe hp hie)
    obtain ⟨hpart, -, -⟩ | ⟨-, rfl, c, rfl⟩ | ⟨w, target, rfl, -, -⟩ := Place.nested_cases hop hmem
    · simp [hpart, Place.Part.clashes] at hc
    · exact Nat.one_pos
    · simp [Place.part, Place.Part.clashes] at hc
  · -- the table's lock comes last, and the target of `balance_load` before the CPU that is relieved
    classical
    refine Locking.not_deadlocked
      (fun | .table => 2 | .sched c => if ∃ i w, m.pc i = some (.balanceRelock w c) then 0 else 1) ?_
    intro i l l' hl hl'
    obtain ⟨p, hp, hop, hmem⟩ := hasks i l l' hl hl'
    obtain ⟨-, rfl, rfl⟩ | ⟨hpart, -, -⟩ | ⟨w, target, rfl, rfl, rfl⟩ := Place.nested_cases hop hmem
    · dsimp only
      split <;> omega
    · exact absurd ⟨i, p, hp, hpart⟩ hexit
    · have ho : ¬ ∃ j w', m.pc j = some (.balanceRelock w' w.cpu) := by
        rintro ⟨j, w', hj⟩
        by_cases hij : i = j
        · subst hij
          rw [hp, some.injEq, Place.balanceRelock.injEq] at hj
          exact h.found i _ hp hj.2
        · exact h.apart i j _ _ hp hj hij rfl
      dsimp only
      rw [if_pos ⟨i, w, hp⟩, if_neg ho]
      exact Nat.one_pos

variable {cpu : Nat}

theorem Inv.moved (h : m.Inv) {m' : Smp} {r : Option Place} (hheld : HeldBy Place.held m')
    (hpc : m'.pc = Function.update m.pc cpu r) (hco : m'.data.cpuCount = m.data.cpuCount)
    (hlive : cpu < m.data.cpuCount)
    (hr : ∀ p, r = some p → p.Found ∧ (p.part = .balance → 2 ≤ m.data.cpuCount) ∧ m.Alone cpu p.part) : m'.Inv := by
  have hca : ∀ i p, m'.pc i = some p → (i = cpu ∧ r = some p) ∨ (i ≠ cpu ∧ m.pc i = some p) := by
    intro i p hi
    rw [hpc] at hi
    by_cases hic : i = cpu
    · simp_all
    · exact .inr ⟨hic, by simpa [hic] using hi⟩
  have ho : ∀ i p q, r = some p → i ≠ cpu → m.pc i = some q → ¬ p.part.clashes q.part := fun i p q hp hi hq =>
    (hr p hp).2.2 i (h.live i (by simp [hq])) hi q hq
  refine ⟨hheld, ?_, ?_, ?_, ?_⟩
  · intro i hi
    rw [hco]
    obtain ⟨p, hp⟩ := ne_none_iff_exists'.1 hi
    obtain ⟨rfl, -⟩ | ⟨-, hp⟩ := hca i p hp
    · exact hlive
    · exact h.live i (by simp [hp])
  · intro i p hp
    obtain ⟨-, hp⟩ | ⟨-, hp⟩ := hca i p hp
    · exact (hr p hp).1
    · exact h.found i p hp
  · intro i p hp
    rw [hco]
    obtain ⟨-, hp⟩ | ⟨-, hp⟩ := hca i p hp
    · exact (hr p hp).2.1
    · exact h.several i p hp
  · intro i j p q hp hq hij
    obtain ⟨rfl, hp⟩ | ⟨hi, hp⟩ := hca i p hp
    · obtain ⟨rfl, -⟩ | ⟨hj, hq⟩ := hca j q hq
      · exact absurd rfl hij
      · exact ho j p q hp hj hq
    · obtain ⟨rfl, hq⟩ | ⟨-, hq⟩ := hca j q hq
      · grind [Place.Part.clashes_comm]
      · exact h.apart i j p q hp hq hij

theorem place_spec (s : Sys) (cpu : Nat) (entry : Entry) {p : Place} (hp : entry.place s = some p) :
    p.held cpu = [] ∧ p.Found ∧ (p.part = .flat ∨ p.part = .nested ∧ (entry = .schedule ∨ entry = .yieldCpu) ∨
      p.part = .balance ∧ entry = .balanceLoad ∧ 2 ≤ s.cpuCount) := by
  cases entry with
  | schedule | yieldCpu =>
    obtain rfl := some.inj hp
    simp [Place.held, Place.Found, Place.part]
  | exitProcess =>
    obtain rfl := some.inj hp
    exact ⟨rfl, trivial, .inl rfl⟩
  | setPriority pid priority =>
    obtain rfl := some.inj hp
    unfold Sys.priorityRemoveAt
    split <;> exact ⟨rfl, trivial, .inl rfl⟩
  | addToSchedulerWithPriority pid priority =>
    obtain rfl := some.inj hp
    unfold Sys.addLoadAt
    split <;> exact ⟨rfl, trivial, .inl rfl⟩
  | balanceLoad =>
    simp only [Entry.place] at hp
    split at hp
    · simp at hp
    case isFalse hc =>
      obtain rfl := some.inj hp
      exact ⟨rfl, trivial, .inr (.inr ⟨rfl, rfl, by omega⟩)⟩

theorem Inv.call (h : m.Inv) {entry : Entry} (hc : m.Careful (.call cpu entry))
    (hlt : cpu < m.data.cpuCount) (hnone : m.pc cpu = none) :
    Inv { m with pc := Function.update m.pc cpu (entry.place m.data) } := by
  refine h.moved (h.held.start hnone ?_) rfl rfl hlt ?_
  · cases hp : entry.place m.data with
    | none => rfl
    | some p => exact (place_spec m.data cpu entry hp).1
  · intro p hp
    obtain ⟨-, hf, hpart | ⟨hpart, hen⟩ | ⟨hpart, rfl, hco⟩⟩ := place_spec m.data cpu entry hp
    · refine ⟨hf, by simp [hpart], ?_⟩
      intro i _ _ q _
      simp [hpart, Place.Part.clashes]
    · refine ⟨hf, by simp [hpart], hpart ▸ ?_⟩
      obtain rfl | rfl := hen
      · exact hc _ rfl
      · exact hc _ rfl
    · exact ⟨hf, fun _ => hco, hpart ▸ hc _ rfl⟩

theorem Inv.advance (h : m.Inv) (hc : m.Careful (.advance cpu)) : Inv (kernel.advance m cpu) := by
  have hr : ∀ p, m.pc cpu = some p → Sys.GoesRight m.data cpu p := fun p hp =>
    Sys.goesRight (h.several cpu p hp) (h.found cpu p hp)
  have hheld : HeldBy Place.held (kernel.advance m cpu) := HeldBy.advance h.held fun p hp => (hr p hp).held
  obtain hsame | ⟨p, hp, hfree, hdata, hpc⟩ := kernel.advance_cases m cpu
  · rwa [hsame]
  have hco : (kernel.advance m cpu).data.cpuCount = m.data.cpuCount := by
    rw [hdata]
    exact (hr p hp).cpuCount
  refine h.moved hheld hpc hco (h.live cpu (by simp [hp])) ?_
  intro p' hp'
  refine ⟨(hr p hp).found p' hp', ?_⟩
  obtain hpart | ⟨hpart, pid, rfl⟩ | ⟨rfl, rfl⟩ := (hr p hp).part p' hp'
  · rw [hpart]
    exact ⟨h.several cpu p hp, fun i _ hi q hq => h.apart cpu i p q hp hq hi.symm⟩
  · rw [hpart]
    exact ⟨by simp, hc (cpu, .exit) (by simp [entered, hp, hfree .table rfl])⟩
  · -- the table's lock was held up to here, so no other CPU is in that section
    refine ⟨by simp [Place.part], ?_⟩
    intro i _ hi q hq hcl
    have hq' : q.part = .exit := by
      grind [Place.part, Place.Part.clashes]
    exact hi (h.exit_alone hq hp hq' rfl)

theorem Inv.step (h : m.Inv) {a : SmpAction} (hc : m.Careful a) : (m.step a).Inv := by
  cases a with
  | call cpu entry =>
    unfold Smp.step
    dsimp only
    split
    case isTrue hif => exact h.call hc hif.1 hif.2
    case isFalse => exact h
  | advance cpu => exact h.advance hc

theorem inv_idle (s : Sys) : (idle s).Inv := by
  refine ⟨?_, ?_, ?_, ?_, ?_⟩ <;> simp [idle, HeldBy, State.Holds, heldOf]

/-- The locks of the scheduler and of the process table do not deadlock in any run whose steps are careful. -/
theorem no_deadlock_of_meets (s : Sys) (actions : List SmpAction) (h : Meets step Careful (idle s) actions) :
    Always step (fun m => ¬ kernel.Deadlocked m) (idle s) actions :=
  always_of_meets (R := fun _ => True) (fun _ hm => hm.not_deadlocked) (fun _ _ _ hm hc => hm.step hc) (inv_idle s)
    (fun _ _ => trivial) h

def running : Sys :=
  run Sys.call (.boot Sys.oneProcess 2) (Sys.runOrderly.take 3)

/-- The first CPU schedules; then the second does the same for a process that is being exited. -/
def runApart : List SmpAction :=
  [.call 0 .schedule, .advance 0, .advance 0, .advance 0, .advance 0, .call 1 .exitProcess, .advance 1, .advance 1,
    .call 0 (.setPriority 1 .dream), .advance 1, .advance 1, .advance 1, .advance 1, .advance 1, .call 0 .schedule]

theorem no_deadlock_of_meets_runApart : Meets step Careful (idle running) runApart ∧
    Always step (fun m => ¬ kernel.Deadlocked m) (idle running) runApart := by
  have hm : Meets step Careful (idle running) runApart := by decide +kernel
  exact ⟨hm, no_deadlock_of_meets running runApart hm⟩

/-- The first CPU schedules and has its scheduler's lock; the second exits the process and has the table's. -/
def runClash : List SmpAction := [.call 0 .schedule, .advance 0, .call 1 .exitProcess, .advance 1, .advance 1]

theorem locks_deadlock : kernel.Deadlocked (run step (idle running) runClash) := by
  have hpc0 : (run step (idle running) runClash).pc 0 = some (.scheduleCheck 1) := by decide +kernel
  have hpc1 : (run step (idle running) runClash).pc 1 = some (.exitRemove 1 0) := by decide +kernel
  have hown0 : (run step (idle running) runClash).owner (.sched 0) = some 0 := by decide +kernel
  have hown1 : (run step (idle running) runClash).owner .table = some 1 := by decide +kernel
  have h01 : kernel.Blocks (run step (idle running) runClash) 0 1 := ⟨.sched 0, hown0, _, hpc1, rfl⟩
  have h10 : kernel.Blocks (run step (idle running) runClash) 1 0 := ⟨.table, hown1, _, hpc0, rfl⟩
  exact ⟨0, .tail (.single h01) h10⟩

end Smp

end AstralOS.Proc
