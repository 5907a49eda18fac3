import AstralOS.Process.RunQueues
import Mathlib.Algebra.BigOperators.Group.Finset.Basic

/-!
# Round robin within a class

Timer ticks alone turn the queue of a class round: the process that has used up its slice goes to the back, the first one is
selected and returned until its own slice is used up.  `Turning` holds between the ticks; within one selection the slice is
counted down (`Turning.keep`), and after it the queue, with the current process at its end, is rotated by one
(`Turning.pick`).
-/

namespace AstralOS.Proc.Sys

open List

def tick (cpu : Nat) (s : Sys) : Sys :=
  match s.schedule cpu with
  | (some pid, s) => s.switchToProcess pid
  | (none, s) => s

def timeSliceOf (s : Sys) (pid : Pid) : Nat := ((s.table.get pid).map fun p => p.timeSlice.toNat).getD 0

/-- The processes are ready, queued in this order in their class, and no process is current. -/
structure Lined (cpu : Nat) (priority : PriorityClass) (pids : List Pid) (s : Sys) : Prop where
  ne_nil : pids ≠ []
  nodup : pids.Nodup
  queue : s.place (cpu, priority.index) = pids
  bitmap : (s.sched cpu).activeBitmap = 1#8 <<< priority.index.val
  current : (s.sched cpu).current = none
  currentPid : s.currentPid = 0
  ready : ∀ pid ∈ pids, ∃ proc, s.table.get pid = some proc ∧ proc.state = .ready ∧ proc.priority = priority

/-- Between the ticks: the process `cur` is current and `q` waits. -/
structure Turning (cpu : Nat) (priority : PriorityClass) (slice : Pid → Nat) (cur : Option Pid) (q : List Pid) (s : Sys) :
    Prop where
  queue : s.place (cpu, priority.index) = q
  bitmap : (s.sched cpu).activeBitmap = if q = [] then 0 else 1#8 <<< priority.index.val
  current : (s.sched cpu).current = cur
  currentPid : s.currentPid = cur.getD 0
  nodup : (q ++ cur.toList).Nodup
  known : ∀ pid ∈ q ++ cur.toList, ∃ proc, s.table.get pid = some proc ∧ proc.priority = priority ∧
    proc.timeSlice.toNat = slice pid ∧ (proc.state = .running ∨ proc.state = .ready ∧ cur ≠ some pid)

variable {cpu : Nat} {priority : PriorityClass} {slice : Pid → Nat} {cur : Option Pid} {p : Pid} {q q' : List Pid}
  {s s₁ : Sys}

/-! ### The switch -/

theorem get_switchToProcess {proc : Process} (hp : s.table.get p = some proc) {pid : Pid} {old : Process}
    (hold : s.table.get pid = some old) :
    ∃ state, (s.switchToProcess p).table.get pid = some { old with state } ∧
      if pid = p then state = .running ∨ s.getCurrentPid = some p ∧ state = old.state
      else state = old.state ∨ state = .ready := by
  unfold switchToProcess
  by_cases hcur : s.getCurrentPid = some p
  · rw [if_pos hcur]
    refine ⟨old.state, hold, ?_⟩
    split
    · exact .inr ⟨hcur, rfl⟩
    · exact .inl rfl
  · rw [if_neg hcur]
    dsimp only
    rw [ProcessTable.get_leave_of_ne hcur, hp]
    dsimp only [ProcessTable.setState]
    rw [ProcessTable.get_modify (by intro _; rfl)]
    by_cases hpid : pid = p
    · subst hpid
      rw [ProcessTable.get_leave_of_ne hcur, hold]
      simp
    · simp only [if_neg hpid]
      by_cases hleft : s.getCurrentPid = some pid
      · refine ⟨.ready, ?_, .inr rfl⟩
        rw [hleft, ProcessTable.leave, ProcessTable.setState, ProcessTable.get_modify (by intro _; rfl), if_pos rfl, hold]
        rfl
      · exact ⟨old.state, (ProcessTable.get_leave_of_ne hleft).trans hold, .inl rfl⟩

theorem sched_switchToProcess (s : Sys) (p : Pid) : (s.switchToProcess p).sched = s.sched := by
  unfold switchToProcess
  dsimp only
  split
  · rfl
  · split <;> rfl

theorem currentPid_switchToProcess {proc : Process} (hp : s.table.get p = some proc) :
    (s.switchToProcess p).currentPid = p := by
  unfold switchToProcess
  by_cases hcur : s.getCurrentPid = some p
  · grind [getCurrentPid]
  · rw [if_neg hcur]
    dsimp only
    rw [ProcessTable.get_leave_of_ne hcur, hp]

theorem Turning.switch (h : Turning cpu priority slice cur q s) (ht : s₁.table = s.table)
    (hpid : s₁.currentPid = s.currentPid) (hq : s₁.place (cpu, priority.index) = q')
    (hb : (s₁.sched cpu).activeBitmap = if q' = [] then 0 else 1#8 <<< priority.index.val)
    (hc : (s₁.sched cpu).current = some p) (hperm : (q' ++ [p]).Perm (q ++ cur.toList)) :
    Turning cpu priority slice (some p) q' (s₁.switchToProcess p) := by
  have hmem : p ∈ q ++ cur.toList := hperm.subset (by simp)
  obtain ⟨proc, hproc, -⟩ := h.known p hmem
  rw [← ht] at hproc
  have hsc := sched_switchToProcess s₁ p
  refine ⟨?_, ?_, ?_, currentPid_switchToProcess hproc, hperm.nodup_iff.2 h.nodup, fun pid hin => ?_⟩
  · rw [place, hsc]
    exact hq
  · rw [hsc, hb]
  · rw [hsc, hc]
  · obtain ⟨old, hold, hprio, hsl, hst⟩ := h.known pid (hperm.subset hin)
    obtain ⟨state, hget, hcase⟩ := get_switchToProcess hproc (ht ▸ hold)
    refine ⟨_, hget, hprio, hsl, ?_⟩
    split at hcase
    case isTrue heq =>
      rcases hcase with hrun | ⟨hcur, rfl⟩
      · exact .inl hrun
      · -- the process has been current, so it is not one that waits
        have : cur = some pid := by
          rw [getCurrentPid, hpid, h.currentPid] at hcur
          cases cur <;> simp_all
        exact hst.imp_right fun hr => absurd this hr.2
    case isFalse hne =>
      have ho : some p ≠ some pid := fun heq => hne (Option.some.inj heq).symm
      rcases hcase with rfl | hr
      · exact hst.imp_right fun hr => ⟨hr.1, ho⟩
      · exact .inr ⟨hr, ho⟩

/-! ### One tick -/

theorem trailingZeros_shift : ∀ i : Fin 5, trailingZeros (1#8 <<< i.val) = i.val ∧ 1#8 <<< i.val ≠ 0 := by decide

theorem Turning.reschedule (h : Turning cpu priority slice cur q s) (hd : priority ≠ .dream)
    (hq : q ++ cur.toList = p :: q') (ts : BitVec 64) :
    ∃ s₁, s.reschedule cpu { s.sched cpu with timeSlice := ts } = (some p, s₁) ∧ s₁.table = s.table ∧
      s₁.currentPid = s.currentPid ∧ s₁.place (cpu, priority.index) = q' ∧
      (s₁.sched cpu).activeBitmap = (if q' = [] then 0 else 1#8 <<< priority.index.val) ∧
      (s₁.sched cpu).current = some p ∧ (s₁.sched cpu).timeSlice.toNat = slice p ∧
      (s₁.sched cpu).contextSwitches = (s.sched cpu).contextSwitches + 1 := by
  have hr : ∃ sched, requeueCurrent s.table { s.sched cpu with timeSlice := ts } = sched ∧
      (sched.queues priority.index).queue = p :: q' ∧ sched.activeBitmap = 1#8 <<< priority.index.val ∧
      sched.contextSwitches = (s.sched cpu).contextSwitches := by
    refine ⟨_, rfl, ?_⟩
    unfold requeueCurrent
    rw [h.current]
    cases cur with
    | none =>
      have hne : q ≠ [] := by
        rintro rfl
        simp at hq
      refine ⟨h.queue.trans ?_, ?_, rfl⟩
      · simpa using hq
      · exact h.bitmap.trans (if_neg hne)
    | some c =>
      obtain ⟨proc, hproc, hprio, -, hst⟩ := h.known c (by simp)
      have hnot : c ∉ q := by
        have := h.nodup
        simp only [Option.toList_some, nodup_append, mem_singleton] at this
        exact fun hc => this.2.2 c hc c rfl rfl
      dsimp only
      rw [hproc]
      dsimp only
      rw [if_pos (hst.imp_right And.left), hprio, ← hq]
      refine ⟨?_, ?_, rfl⟩
      · have hqu : ((s.sched cpu).queues priority.index).queue = q := h.queue
        simp [CpuScheduler.enqueue, PriorityQueue.push, hqu, hnot]
      · simp only [CpuScheduler.enqueue, h.bitmap]
        split <;> simp
  obtain ⟨sched, hsc, hqu, hb, hsw⟩ := hr
  obtain ⟨htz, hne⟩ := trailingZeros_shift priority.index
  have hi : priority.index ≠ PriorityClass.dream.index := by
    cases priority <;> first | decide | exact absurd rfl hd
  obtain ⟨proc, hproc, -, hsl, -⟩ := h.known p (hq ▸ mem_cons_self)
  unfold Sys.reschedule
  rw [hsc, CpuScheduler.pickNext, if_neg (hb ▸ hne), dif_pos (by rw [hb, htz]; exact priority.index.isLt)]
  have hh : ∀ hlt, (⟨trailingZeros sched.activeBitmap, hlt⟩ : Fin 5) = priority.index := by
    intro hlt
    apply Fin.ext
    show trailingZeros sched.activeBitmap = _
    rw [hb, htz]
  simp only [hh, hi, false_and, if_false, PriorityQueue.pop, hqu, head?_cons, tail_cons,
    Option.bind_some, hproc]
  refine ⟨_, rfl, rfl, rfl, ?_, ?_, ?_, ?_, ?_⟩
  · simp [place, setSched]
  · simp only [setSched, Function.update_self, hb, List.isEmpty_iff]
    split
    · rw [htz, BitVec.and_not_self]
    · rfl
  · simp [setSched]
  · simpa [setSched] using hsl
  · simp [setSched, hsw]

def Due (cpu : Nat) (cur : Option Pid) (s : Sys) : Prop := cur = none ∨ (s.sched cpu).timeSlice.toNat ≤ 1

theorem Turning.schedule_of_due (h : Turning cpu priority slice cur q s) (hdue : Due cpu cur s) :
    ∃ ts, s.schedule cpu = s.reschedule cpu { s.sched cpu with timeSlice := ts } := by
  unfold Sys.schedule
  dsimp only
  split
  case isFalse => exact ⟨_, rfl⟩
  case isTrue hpos =>
    refine ⟨(s.sched cpu).timeSlice - 1, ?_⟩
    split
    case h_2 => rfl
    case h_1 proc hproc =>
      rw [if_neg]
      rintro ⟨hleft, -⟩
      rcases hdue with rfl | hle
      · simp [h.current] at hproc
      · have h1 : (s.sched cpu).timeSlice = 1 := by
          apply BitVec.eq_of_toNat_eq
          have : (0#64).toNat < (s.sched cpu).timeSlice.toNat := hpos
          simp at this ⊢
          omega
        simp_all

theorem Turning.pick (h : Turning cpu priority slice cur q s) (hd : priority ≠ .dream)
    (hq : q ++ cur.toList = p :: q') (hdue : Due cpu cur s) :
    (s.schedule cpu).1 = some p ∧ Turning cpu priority slice (some p) q' (s.tick cpu) ∧
      ((s.tick cpu).sched cpu).timeSlice.toNat = slice p ∧
      ((s.tick cpu).sched cpu).contextSwitches = (s.sched cpu).contextSwitches + 1 := by
  obtain ⟨ts, hsc⟩ := h.schedule_of_due hdue
  obtain ⟨s₁, hres, ht, hpid, hqu, hb, hc, hsl, hsw⟩ := h.reschedule hd hq ts
  rw [tick, hsc, hres]
  refine ⟨rfl, h.switch ht hpid hqu hb hc ?_, ?_, ?_⟩
  · simp [hq]
  · rw [sched_switchToProcess, hsl]
  · rw [sched_switchToProcess, hsw]

theorem Turning.keep (h : Turning cpu priority slice (some p) q s) (hleft : 1 < (s.sched cpu).timeSlice.toNat) :
    (s.schedule cpu).1 = some p ∧ Turning cpu priority slice (some p) q (s.tick cpu) ∧
      ((s.tick cpu).sched cpu).timeSlice.toNat = (s.sched cpu).timeSlice.toNat - 1 ∧
      ((s.tick cpu).sched cpu).contextSwitches = (s.sched cpu).contextSwitches := by
  obtain ⟨proc, hproc, -, -, hst⟩ := h.known p (by simp)
  have hrun : proc.state = .running := hst.resolve_right fun hr => hr.2 rfl
  have hpred : ((s.sched cpu).timeSlice - 1).toNat = (s.sched cpu).timeSlice.toNat - 1 := by
    simp
    omega
  have hsc : s.schedule cpu =
      (some p, s.setSched cpu { s.sched cpu with timeSlice := (s.sched cpu).timeSlice - 1 }) := by
    unfold Sys.schedule
    have hpos : (s.sched cpu).timeSlice > 0 := by
      simp [gt_iff_lt, BitVec.lt_def]
      omega
    have hpos' : (s.sched cpu).timeSlice - 1 > 0 := by
      simp [gt_iff_lt, BitVec.lt_def, hpred]
      omega
    simp only [hpos, if_true, h.current, Option.bind_some, hproc, hpos', hrun, and_self]
  rw [tick, hsc]
  refine ⟨rfl, h.switch rfl rfl ?_ ?_ ?_ (List.Perm.refl _), ?_, ?_⟩
  · simpa [place, setSched] using h.queue
  · simpa [setSched] using h.bitmap
  · simpa [setSched] using h.current
  · rw [sched_switchToProcess]
    simpa [setSched] using hpred
  · rw [sched_switchToProcess]
    simp [setSched]

/-! ### One selection, and all of them -/

theorem Turning.turn (h : Turning cpu priority slice cur q s) (hd : priority ≠ .dream)
    (hq : q ++ cur.toList = p :: q') (hdue : Due cpu cur s) (j : Nat) (hj : j < max (slice p) 1) :
    (((tick cpu)^[j] s).schedule cpu).1 = some p ∧ Turning cpu priority slice (some p) q' ((tick cpu)^[j + 1] s) ∧
      (((tick cpu)^[j + 1] s).sched cpu).timeSlice.toNat = slice p - j ∧
      (((tick cpu)^[j + 1] s).sched cpu).contextSwitches = (s.sched cpu).contextSwitches + 1 := by
  induction j with
  | zero => exact h.pick hd hq hdue
  | succ j ih =>
    obtain ⟨-, ht, hleft, hs⟩ := ih (by omega)
    rw [Function.iterate_succ_apply' _ (j + 1), ← hs]
    obtain ⟨hres, ht', hleft', hs'⟩ := ht.keep (by omega)
    exact ⟨hres, ht', by omega, hs'⟩

def selected (pids : List Pid) (k : Nat) : Pid := pids.getD (k % pids.length) 0

def elapsed (s : Sys) (pids : List Pid) (k : Nat) : Nat := ∑ i ∈ Finset.range k, max (s.timeSliceOf (selected pids i)) 1

theorem rotate_eq_selected {pids : List Pid} (hne : pids ≠ []) (k : Nat) :
    ∃ q, pids.rotate k = selected pids k :: q ∧ pids.rotate (k + 1) = q ++ [selected pids k] := by
  have hlt : k % pids.length < pids.length := Nat.mod_lt _ (length_pos_iff.2 hne)
  have hhead : (pids.rotate k).head? = some (selected pids k) := by
    rw [← rotate_mod, head?_rotate hlt, selected, getD_eq_getElem?_getD, getElem?_eq_getElem hlt]
    rfl
  obtain ⟨q, hq⟩ := head?_eq_some_iff.1 hhead
  refine ⟨q, hq, ?_⟩
  rw [← rotate_rotate, hq, rotate_cons_succ, rotate_zero]

theorem Lined.turning {pids : List Pid} (h : Lined cpu priority pids s) :
    Turning cpu priority s.timeSliceOf none pids s := by
  refine ⟨h.queue, ?_, h.current, h.currentPid, by simpa using h.nodup, fun pid hpid => ?_⟩
  · rw [if_neg h.ne_nil, h.bitmap]
  · obtain ⟨proc, hproc, hs, hprio⟩ := h.ready pid (by simpa using hpid)
    simp_all [timeSliceOf]

theorem Lined.turn_of_elapsed {pids : List Pid} (h : Lined cpu priority pids s) (hd : priority ≠ .dream) (k : Nat) :
    ∃ cur q, Turning cpu priority s.timeSliceOf cur q ((tick cpu)^[s.elapsed pids k] s) ∧
      q ++ cur.toList = pids.rotate k ∧ Due cpu cur ((tick cpu)^[s.elapsed pids k] s) ∧
      (((tick cpu)^[s.elapsed pids k] s).sched cpu).contextSwitches = (s.sched cpu).contextSwitches + k := by
  induction k with
  | zero => exact ⟨none, pids, h.turning, by simp, .inl rfl, rfl⟩
  | succ k ih =>
    obtain ⟨cur, q, ht, hrot, hdue, hs⟩ := ih
    obtain ⟨q', hq', hnext⟩ := rotate_eq_selected h.ne_nil k
    -- the last tick of the selection
    obtain ⟨-, hturn, hleft, hsw⟩ := ht.turn hd (hrot.trans hq') hdue
      (max (s.timeSliceOf (selected pids k)) 1 - 1) (by omega)
    have hlen : max (s.timeSliceOf (selected pids k)) 1 - 1 + 1 = max (s.timeSliceOf (selected pids k)) 1 := by omega
    rw [hlen, ← Function.iterate_add_apply, Nat.add_comm] at hturn hleft hsw
    rw [show s.elapsed pids (k + 1) = _ from Finset.sum_range_succ _ _]
    exact ⟨_, q', hturn, hnext.symm, .inr (Nat.le_trans (Nat.le_of_eq hleft) (by omega)), hsw.trans (by rw [hs]; rfl)⟩

/-- The `k`-th selection takes the processes in turn, and `schedule` returns the process that has been selected in as many
consecutive ticks as its slice has, but at least in one. -/
theorem round_robin {pids : List Pid} (h : Lined cpu priority pids s) (hdream : priority ≠ .dream) (k j : Nat)
    (hj : j < max (s.timeSliceOf (selected pids k)) 1) :
    (((tick cpu)^[s.elapsed pids k + j] s).schedule cpu).1 = some (selected pids k) ∧
      (((tick cpu)^[s.elapsed pids k + j + 1] s).sched cpu).contextSwitches = (s.sched cpu).contextSwitches + k + 1 := by
  obtain ⟨cur, q, ht, hrot, hdue, hs⟩ := h.turn_of_elapsed hdream k
  obtain ⟨q', hq', -⟩ := rotate_eq_selected h.ne_nil k
  obtain ⟨hres, -, -, hsw⟩ := ht.turn hdream (hrot.trans hq') hdue j hj
  rw [← Function.iterate_add_apply, Nat.add_comm] at hres hsw
  exact ⟨hres, hsw.trans (by rw [hs])⟩

/-- Two processes in the queue of the normal class, the second one without a slice. -/
def twoLined : Sys :=
  let processes := some (.new 1) :: some { Process.new 2 with timeSlice := 0 } :: List.replicate 254 none
  let sched := { CpuScheduler.new with queues := Function.update (fun _ => .new) 2 ⟨[1, 2], true⟩, activeBitmap := 4 }
  (boot ⟨processes, 2, by simp only [processes, List.length_cons, List.length_replicate, maxProcesses]⟩ 1).setSched 0 sched

theorem round_robin_two :
    (((tick 0)^[twoLined.elapsed [1, 2] 3 + 0] twoLined).schedule 0).1 = some 2 ∧
      (((tick 0)^[twoLined.elapsed [1, 2] 3 + 0 + 1] twoLined).sched 0).contextSwitches = 4 := by
  have hl : Lined 0 .normal [1, 2] twoLined := by
    refine ⟨by decide, by decide, rfl, rfl, rfl, rfl, fun pid hpid => ?_⟩
    simp only [mem_cons, not_mem_nil, or_false] at hpid
    rcases hpid with rfl | rfl
    · exact ⟨_, rfl, rfl, rfl⟩
    · exact ⟨_, rfl, rfl, rfl⟩
  exact round_robin hl (by decide) 3 0 (by decide)

end AstralOS.Proc.Sys
