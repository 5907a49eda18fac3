import AstralOS.Lib.Spread
import AstralOS.Process.RunQueues
import Mathlib.Algebra.BigOperators.Fin

/-!
# What balancing the load leaves

`balance_load` measures the load of a CPU once and then moves processes away while *that* value is above the average, so
an overloaded CPU gives all of its processes away.  A balancing is thus a `Spread.Turns` of the loads, and it leaves every
CPU with at most one process more than the average exactly if this was so before, or if the other CPUs have room for all
processes.
-/

namespace AstralOS.Proc.Sys

open Function Spread List Finset

variable {s s' : Sys} {cpu : Nat} {idx : Fin 5} {pid : Pid} {queue : PriorityQueue}

def load (s : Sys) (cpu : Nat) : Nat := (s.sched cpu).totalLoad

theorem load_eq (s : Sys) (cpu : Nat) : s.load cpu = ∑ i, (s.place (cpu, i)).length := (Fin.sum_univ_def _).symm

theorem load_of_update {k : Nat × Fin 5} {l : List Pid} (h : s'.place = update s.place k l) (c : Nat) :
    s'.load c + (if c = k.1 then (s.place k).length else 0) = s.load c + if c = k.1 then l.length else 0 := by
  rw [load_eq, load_eq, h]
  by_cases hc : c = k.1
  · obtain ⟨c', i⟩ := k
    obtain rfl : c = c' := hc
    rw [if_pos rfl, if_pos rfl, ← add_sum_erase _ _ (mem_univ i), update_self,
      ← add_sum_erase univ (fun i => (s.place (c, i)).length) (mem_univ i)]
    have hrest : ∀ j ∈ univ.erase i,
        (update s.place (c, i) l (c, j)).length = (s.place (c, j)).length := by
      intro j hj
      rw [update_of_ne fun heq => ne_of_mem_erase hj (congrArg Prod.snd heq)]
    rw [sum_congr rfl hrest]
    omega
  · grind

/-- Processes of the queues of a CPU have gone to others. -/
structure Shift (cpu : Nat) (s s' : Sys) : Prop where
  once : Once s'.place
  cpus : s'.cpuCount = s.cpuCount
  moves : Moves s.cpuCount cpu s.load s'.load
  own : ∀ i, s'.place (cpu, i) <:+ s.place (cpu, i)

theorem Shift.refl (h : Once s.place) : Shift cpu s s := ⟨h, rfl, .refl, fun _ => suffix_rfl⟩

theorem Shift.trans {s'' : Sys} (h : Shift cpu s s') (h' : Shift cpu s' s'') : Shift cpu s s'' :=
  ⟨h'.once, h'.cpus.trans h.cpus, h.moves.trans (h.cpus ▸ h'.moves), fun i => (h'.own i).trans (h.own i)⟩

/-- The state of a balancing: the queued processes are distinct, their number fits into a machine word, and there is more
than one CPU. -/
structure Balancing (s : Sys) : Prop where
  once : Once s.place
  cpus : 2 ≤ s.cpuCount
  fits : total s.cpuCount s.load < 2 ^ 64

theorem Shift.balancing (h : Shift cpu s s') (hs : Balancing s) (hcpu : cpu < s.cpuCount) : Balancing s' :=
  ⟨h.once, h.cpus ▸ hs.cpus, by rw [h.cpus, h.moves.total_eq hcpu]; exact hs.fits⟩

theorem leastLoaded_others (htwo : 2 ≤ s.cpuCount) (hfits : ∀ c, c ≠ cpu → c < s.cpuCount → s.load c < 2 ^ 64 - 1) :
    let t := s.leastLoaded ((List.range s.cpuCount).filter (· ≠ cpu))
    t < s.cpuCount ∧ t ≠ cpu ∧ ∀ o < s.cpuCount, o ≠ cpu → s.load t ≤ s.load o := by
  have hmem : ∀ o, o ∈ (List.range s.cpuCount).filter (· ≠ cpu) ↔ o < s.cpuCount ∧ o ≠ cpu := by simp
  obtain ⟨hfrom, -, hall⟩ := foldl_lighter (s := s) ((List.range s.cpuCount).filter (· ≠ cpu)) (2 ^ 64 - 1, 0)
  unfold leastLoaded
  rcases hfrom with heq | ⟨t, ht, heq⟩
  · -- one of the first two CPUs is another one
    have hot : ∃ o < s.cpuCount, o ≠ cpu := by
      by_cases hzero : cpu = 0
      · exact ⟨1, by omega, by omega⟩
      · exact ⟨0, by omega, by omega⟩
    obtain ⟨o, ho, hne⟩ := hot
    have hle := hall o ((hmem o).2 ⟨ho, hne⟩)
    rw [heq] at hle
    exact absurd (hfits o hne ho) (Nat.not_lt.2 hle)
  · rw [heq] at hall ⊢
    exact ⟨((hmem t).1 ht).1, ((hmem t).1 ht).2, fun o ho hne => hall o ((hmem o).2 ⟨ho, hne⟩)⟩

theorem shift_migrateOne (hs : Balancing s) (hcpu : cpu < s.cpuCount)
    (hpop : ((s.sched cpu).queues idx).pop = (some pid, queue)) :
    Shift cpu s (s.migrateOne cpu idx pid queue) ∧
      (s.migrateOne cpu idx pid queue).place (cpu, idx) = queue.queue := by
  have hhead := place_of_pop hpop
  have hnone := notMem_popped hs.once hpop
  have hp := @place_popped s cpu idx queue
  have hload := load_of_update hp
  rw [hhead] at hload
  have honce := hs.once.of_sublist (place_popped_sublist hpop)
  have hlt : ∀ c, c ≠ cpu → c < s.cpuCount → s.load c + s.load cpu < 2 ^ 64 := by
    intro c hne hc
    refine Nat.lt_of_le_of_lt ?_ hs.fits
    have hpair := sum_le_sum_of_subset (f := s.load) (s := {c, cpu}) (t := range s.cpuCount)
      (by simp [insert_subset_iff, hc, hcpu])
    rwa [sum_pair hne] at hpair
  unfold migrateOne
  have hco : (s.setSched cpu (popped (s.sched cpu) idx queue)).cpuCount = s.cpuCount := rfl
  generalize s.setSched cpu (popped (s.sched cpu) idx queue) = s1 at hnone hp hload honce hco ⊢
  have hown := hload cpu
  simp only [if_true, length_cons] at hown
  have hot : ∀ c, c ≠ cpu → s1.load c = s.load c := by
    grind
  obtain ⟨ht, hne, hmin⟩ := @leastLoaded_others s1 cpu (hco ▸ hs.cpus) (by grind)
  dsimp only
  generalize s1.leastLoaded ((List.range s1.cpuCount).filter (· ≠ cpu)) = t at ht hne hmin ⊢
  have hp' := @place_enqueue s1 pid t _ rfl (.ofIndex idx)
  have honce' := honce.push (k := (t, (PriorityClass.ofIndex idx).index)) fun k hk => absurd hk (hnone k)
  rw [if_neg (hnone _)] at hp' honce'
  rw [← hp'] at honce'
  have hcpu' : ∀ i, (s1.setSched t ((s1.sched t).enqueue pid (.ofIndex idx))).place (cpu, i) = s1.place (cpu, i) := by
    intro i
    rw [hp', update_of_ne fun heq => hne (congrArg Prod.fst heq).symm]
  have hm : (s1.setSched t ((s1.sched t).enqueue pid (.ofIndex idx))).load =
      update (update s.load cpu (s.load cpu - 1)) t (s.load t + 1) := by
    funext c
    have hc := load_of_update hp' c
    by_cases hct : c = t
    · grind
    · rw [update_of_ne hct]
      simp only [if_neg hct, Nat.add_zero] at hc
      by_cases hcc : c = cpu
      · grind
      · rw [update_of_ne hcc, hc, hot c hcc]
  refine ⟨⟨honce', hco, ?_, fun i => ?_⟩, ?_⟩
  · rw [hm]
    refine .step .refl (hco ▸ ht) hne (fun o ho hoc => ?_) (by omega)
    simp_all
  · rw [hcpu', hp]
    by_cases hi : i = idx
    · simp_all [update_self]
    · rw [update_of_ne fun heq => hi (congrArg Prod.snd heq)]
  · rw [hcpu', hp, update_self]

theorem shift_migrate {load avg : Nat} (hload : load > avg) (fuel : Nat) (hs : Balancing s) (hcpu : cpu < s.cpuCount)
    (hfuel : (s.place (cpu, idx)).length = fuel) :
    Shift cpu s (migrate cpu idx load avg fuel s) ∧ (migrate cpu idx load avg fuel s).place (cpu, idx) = [] := by
  induction fuel generalizing s with
  | zero => exact ⟨.refl hs.once, length_eq_zero_iff.1 hfuel⟩
  | succ fuel ih =>
    have hpos : ((s.sched cpu).queues idx).queue.length > 0 ∧ load > avg := ⟨Nat.lt_of_lt_of_eq fuel.succ_pos hfuel.symm, hload⟩
    unfold migrate
    rw [if_pos hpos]
    split
    case h_2 hpop =>
      have hnone : ((s.sched cpu).queues idx).queue.head? = none := congrArg Prod.fst hpop
      simp_all
    case h_1 pid queue hpop =>
      obtain ⟨hsh, hrest⟩ := shift_migrateOne hs hcpu hpop
      have hlen : queue.queue.length = fuel := by
        simp_all [place_of_pop hpop, length_cons]
      obtain ⟨hsh', hem⟩ := ih (hsh.balancing hs hcpu) (hsh.cpus ▸ hcpu) (by rw [hrest, hlen])
      exact ⟨hsh.trans hsh', hem⟩

theorem turn_relieve (avg : Nat) (hs : Balancing s) (hcpu : cpu < s.cpuCount) :
    Turn s.cpuCount (avg + 1) cpu s.load (relieve avg s cpu).load ∧ Balancing (relieve avg s cpu) ∧
      (relieve avg s cpu).cpuCount = s.cpuCount := by
  unfold relieve
  dsimp only
  split
  case isFalse hle => exact ⟨.inl ⟨Nat.not_lt.1 hle, rfl⟩, hs, rfl⟩
  case isTrue hgt =>
    generalize hl : (s.sched cpu).totalLoad = load at hgt
    have hc : ∀ is : List (Fin 5), ∀ s1, Shift cpu s s1 → Balancing s1 →
        let s2 := is.foldl (fun s idx => migrate cpu idx load avg ((s.sched cpu).queues idx).queue.length s) s1
        Shift cpu s s2 ∧ Balancing s2 ∧ ∀ i, i ∈ is ∨ s1.place (cpu, i) = [] → s2.place (cpu, i) = [] := by
      intro is
      induction is with
      | nil => exact fun s1 h1 hs1 => ⟨h1, hs1, fun i hi => hi.resolve_left not_mem_nil⟩
      | cons i is ih =>
        intro s1 h1 hs1
        have hcpu1 : cpu < s1.cpuCount := h1.cpus ▸ hcpu
        obtain ⟨hsh, hem⟩ := @shift_migrate s1 cpu i load avg (by omega) _ hs1 hcpu1 rfl
        obtain ⟨h2, hs2, hall⟩ := ih _ (h1.trans hsh) (hsh.balancing hs1 hcpu1)
        refine ⟨h2, hs2, fun j hj => hall j ?_⟩
        rcases hj with hj | hj
        · rcases mem_cons.1 hj with rfl | hj
          · exact .inr hem
          · exact .inl hj
        · exact .inr (suffix_nil.1 (hj ▸ hsh.own j))
    obtain ⟨hsh, hbal, hem⟩ := hc (finRange 5).reverse s (.refl hs.once) hs
    refine ⟨.inr ⟨Nat.lt_of_lt_of_eq hgt hl.symm, hsh.moves, ?_⟩, hbal, hsh.cpus⟩
    simp_all [load_eq, length_nil]

theorem turns_relieve (avg : Nat) (cpus : List Nat) (hs : Balancing s) (hcpus : ∀ c ∈ cpus, c < s.cpuCount) :
    Turns s.cpuCount (avg + 1) cpus s.load (cpus.foldl (relieve avg) s).load := by
  induction cpus generalizing s with
  | nil => exact .nil
  | cons c cpus ih =>
    obtain ⟨hturn, hbal, hc⟩ := turn_relieve avg hs (hcpus c mem_cons_self)
    refine .cons (hcpus c mem_cons_self) hturn ?_
    grind

/-- Balancing leaves no CPU with more than one process above the average exactly if none was so before, or all processes
have room on all but one CPU. -/
theorem balanceLoad_balances_iff (s : Sys) (hs : Balancing s) :
    (∀ cpu < s.cpuCount, s.balanceLoad.load cpu ≤ total s.cpuCount s.load / s.cpuCount + 1) ↔
      (∀ cpu < s.cpuCount, s.load cpu ≤ total s.cpuCount s.load / s.cpuCount + 1) ∨
        total s.cpuCount s.load ≤ (s.cpuCount - 1) * (total s.cpuCount s.load / s.cpuCount + 1) := by
  have ht : ((List.range s.cpuCount).map fun cpu => (s.sched cpu).totalLoad).sum = total s.cpuCount s.load := by
    rfl
  have hcpus := hs.cpus
  unfold balanceLoad
  rw [if_neg (by omega), ht]
  dsimp only
  split
  case isTrue hzero =>
    have hnone := Finset.sum_eq_zero_iff.1 hzero
    simp_all [Finset.mem_range]
  case isFalse => exact turns_le_iff (turns_relieve _ _ hs fun c hc => List.mem_range.1 hc)

def lopsided (pids : List Pid) : Sys :=
  let sched := { CpuScheduler.new with queues := update (fun _ => .new) 2 ⟨pids, true⟩, activeBitmap := 4 }
  (boot .new 2).setSched 0 sched

theorem balancing_lopsided {pids : List Pid} (hn : pids.Nodup) (hlen : pids.length < 2 ^ 64) :
    Balancing (lopsided pids) := by
  have hp : (lopsided pids).place = update (fun _ => []) (0, 2) pids := by
    funext ⟨c, i⟩
    cases c with
    | zero => simp [lopsided, place, setSched, PriorityQueue.new, update_apply, apply_ite PriorityQueue.queue]
    | succ c => rfl
  refine ⟨?_, Nat.le_refl 2, ?_⟩
  · have hmem : ∀ k a, a ∈ (lopsided pids).place k ↔ k = (0, 2) ∧ a ∈ pids := by
      intro k a
      rw [hp]
      by_cases hk : k = (0, 2)
      · simp [hk]
      · simp [hk]
    refine once_iff.2 ⟨fun k => ?_, fun k k' a ha ha' => ((hmem k a).1 ha).1.trans ((hmem k' a).1 ha').1.symm⟩
    rw [hp]
    by_cases hk : k = (0, 2)
    · simpa [hk] using hn
    · simp [hk]
  · have hload : (lopsided pids).load 0 = pids.length ∧ (lopsided pids).load 1 = 0 := by
      rw [load_eq, load_eq, hp]
      simp [Fin.sum_univ_succ]
    show ∑ o ∈ range 2, (lopsided pids).load o < 2 ^ 64
    rw [Finset.sum_range_succ, Finset.sum_range_one, hload.1, hload.2]
    exact hlen

theorem balanceLoad_balances_two :
    Balancing (lopsided [1, 2]) ∧ ∀ cpu < 2, (lopsided [1, 2]).balanceLoad.load cpu ≤ 2 := by
  have hs : Balancing (lopsided [1, 2]) := balancing_lopsided (by decide) (by decide)
  exact ⟨hs, (balanceLoad_balances_iff _ hs).2 (.inl (show ∀ cpu < 2, (lopsided [1, 2]).load cpu ≤ 2 by decide))⟩

/-- All four processes go to the second CPU and then back to the first one. -/
theorem balanceLoad_four : Balancing (lopsided [1, 2, 3, 4]) ∧ total 2 (lopsided [1, 2, 3, 4]).load = 4 ∧
    (lopsided [1, 2, 3, 4]).balanceLoad.load 0 = 4 ∧
      ¬∀ cpu < 2, (lopsided [1, 2, 3, 4]).balanceLoad.load cpu ≤ 4 / 2 + 1 := by
  refine ⟨balancing_lopsided (by decide) (by decide), ?_, ?_, ?_⟩ <;> decide +kernel

end AstralOS.Proc.Sys
