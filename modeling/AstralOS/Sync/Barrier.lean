import AstralOS.Lib.Run
import AstralOS.Lib.Tally

/-!
# The barrier

The model of `Barrier` of `sync/mod.rs`: `n` threads that call `wait` again and again on a barrier for `n` threads, one
atomic operation of `wait` being one step.  Each thread carries two numbers that no step reads: how many of its waits
have incremented the counter, and how many have returned.

The invariant is stated for the number `round` of generations so far.  A thread outside `wait` has been through all of
them; one that spins belongs to this round or is late from the one before; the last to arrive leaves all others
spinning until it has advanced the generation.  `barrier_synchronizes` follows: what has returned from `k` waits is
preceded by `k` increments of every thread.
-/

open Function

namespace AstralOS.Sync

structure Barrier where
  threshold : BitVec 64
  count : BitVec 64
  generation : BitVec 64
  deriving DecidableEq

def Barrier.new (n : BitVec 64) : Barrier := ⟨n, 0, 0⟩

namespace Barrier

/-- Where a thread is: the atomic operation it does next. -/
inductive Pc
  /-- Not in `wait`; the next call begins by loading the generation. -/
  | idle
  /-- Before the increment of the counter, with the generation it has loaded. -/
  | arrive (gen : BitVec 64)
  /-- The last to arrive, before it resets the counter. -/
  | reset
  /-- The last to arrive, before it advances the generation. -/
  | bump
  /-- In the loop that waits for the generation to change. -/
  | spin (gen : BitVec 64)
  deriving DecidableEq

/-- A thread, with the numbers of its waits that have incremented the counter and that have returned. -/
structure Thread where
  pc : Pc
  increments : Nat
  returns : Nat
  deriving DecidableEq

structure Threads (n : Nat) where
  barrier : Barrier
  thread : Fin n → Thread

namespace Threads

def start (n : BitVec 64) : Threads n.toNat := ⟨.new n, fun _ => ⟨.idle, 0, 0⟩⟩

def step {n : Nat} (s : Threads n) (i : Fin n) : Threads n :=
  let b := s.barrier
  let t := s.thread i
  match t.pc with
  | .idle => ⟨b, update s.thread i { t with pc := .arrive b.generation }⟩
  | .arrive gen =>
    let pc := if b.count + 1 ≥ b.threshold then Pc.reset else Pc.spin gen
    ⟨{ b with count := b.count + 1 }, update s.thread i { t with pc, increments := t.increments + 1 }⟩
  | .reset => ⟨{ b with count := 0 }, update s.thread i { t with pc := .bump }⟩
  | .bump =>
    ⟨{ b with generation := b.generation + 1 },
      update s.thread i { t with pc := .idle, returns := t.returns + 1 }⟩
  | .spin gen =>
    if b.generation = gen then s
    else ⟨b, update s.thread i { t with pc := .idle, returns := t.returns + 1 }⟩

/-- No thread has returned from a wait whose number some thread has not reached with its increments. -/
def Synchronized {n : Nat} (s : Threads n) : Prop := ∀ t u, (s.thread t).returns ≤ (s.thread u).increments

end Threads

/-! ### The invariant -/

/-- Where a thread can be when the generation has been advanced `round` times. -/
def Thread.Ok (round : Nat) (t : Thread) : Prop :=
  match t.pc with
  | .idle => t.returns = round ∧ t.increments = round
  | .arrive gen => gen = BitVec.ofNat 64 round ∧ t.returns = round ∧ t.increments = round
  | .reset | .bump => t.returns = round ∧ t.increments = round + 1
  | .spin gen =>
    gen = BitVec.ofNat 64 t.returns ∧ t.increments = t.returns + 1 ∧ (t.returns = round ∨ t.returns + 1 = round)

def Thread.Arrived (round : Nat) (t : Thread) : Prop := t.increments = round + 1

instance (round : Nat) : DecidablePred (Thread.Arrived round) := fun _ => inferInstanceAs (Decidable (_ = _))

def Thread.Last (t : Thread) : Prop := t.pc = .reset ∨ t.pc = .bump

def Thread.Spins (round : Nat) (t : Thread) : Prop := ∃ gen, t.pc = .spin gen ∧ t.returns = round

theorem Thread.Ok.bounds {round : Nat} {t : Thread} (h : t.Ok round) : t.returns ≤ round ∧ round ≤ t.increments := by
  unfold Thread.Ok at h
  split at h <;> omega

theorem Thread.Ok.spins {round : Nat} {t : Thread} (h : t.Ok round) (harr : t.Arrived round) (hlast : ¬ t.Last) :
    t.Spins round := by
  unfold Thread.Ok at h
  unfold Thread.Arrived at harr
  split at h
  case h_3 hpc => exact absurd (.inl hpc) hlast
  case h_4 hpc => exact absurd (.inr hpc) hlast
  case h_5 gen hpc => exact ⟨gen, hpc, by omega⟩
  all_goals omega

namespace Threads

variable {n : Nat} {round : Nat} {s : Threads n} {i : Fin n}

/-- What holds when the generation has been advanced `round` times. -/
structure InvAt (round : Nat) (s : Threads n) : Prop where
  threshold : s.barrier.threshold.toNat = n
  generation : s.barrier.generation = BitVec.ofNat 64 round
  threads : ∀ t, (s.thread t).Ok round
  /-- The counter counts the arrivals of the round, until the last one resets it. -/
  count : (∀ t, (s.thread t).pc ≠ .bump) → s.barrier.count.toNat = tally (Thread.Arrived round) s.thread
  reset : ∀ t, (s.thread t).pc = .bump → s.barrier.count = 0
  /-- The last to arrive is alone: all the others have arrived and spin. -/
  last : ∀ t, (s.thread t).Last → ∀ u, u ≠ t → (s.thread u).Spins round

theorem InvAt.start (n : BitVec 64) : InvAt 0 (start n) where
  threshold := rfl
  generation := rfl
  threads := fun _ => ⟨rfl, rfl⟩
  count := fun _ => (tally_eq_zero.2 fun _ => by simp [Threads.start, Thread.Arrived]).symm
  reset := by simp [Threads.start]
  last := by simp [Threads.start, Thread.Last]

theorem InvAt.synchronized (h : InvAt round s) : s.Synchronized := fun t u =>
  (h.threads t).bounds.1.trans (h.threads u).bounds.2

/-! ### Steps -/

theorem InvAt.not_last (h : InvAt round s) (hi : ¬ (s.thread i).Last) (hspin : ¬ (s.thread i).Spins round)
    (t : Fin n) : ¬ (s.thread t).Last := by
  intro ht
  by_cases hit : i = t
  · exact hi (hit ▸ ht)
  · exact hspin (h.last t ht i hit)

theorem threads_update {round' : Nat} {t' : Thread} (hok : t'.Ok round')
    (hold : ∀ t, t ≠ i → (s.thread t).Ok round') : ∀ t, (update s.thread i t' t).Ok round' :=
  (Function.forall_update_iff s.thread fun _ t => t.Ok round').2 ⟨hok, hold⟩

section

variable (h : InvAt round s)
include h

theorem InvAt.move (hnone : ∀ t, ¬ (s.thread t).Last) {b : Barrier} {t' : Thread}
    (hthr : b.threshold = s.barrier.threshold) (hgen : b.generation = s.barrier.generation) (hok : t'.Ok round)
    (hlast : ¬ t'.Last)
    (hc : b.count.toNat + (if (s.thread i).Arrived round then 1 else 0) =
      s.barrier.count.toNat + (if t'.Arrived round then 1 else 0)) :
    InvAt round ⟨b, update s.thread i t'⟩ := by
  have hnone' : ∀ t, ¬ (update s.thread i t' t).Last :=
    (Function.forall_update_iff s.thread fun _ t => ¬ t.Last).2 ⟨hlast, fun t _ => hnone t⟩
  have hta := tally_update (Thread.Arrived round) s.thread i t'
  have hold := h.count fun t ht => hnone t (.inr ht)
  refine ⟨hthr ▸ h.threshold, hgen ▸ h.generation, threads_update hok fun t _ => h.threads t, fun _ => ?_,
    fun t ht => ?_, fun t ht => ?_⟩
  · dsimp only
    omega
  · exact absurd (.inr ht) (hnone' t)
  · exact absurd ht (hnone' t)

theorem InvAt.count_succ (hn : n < 2 ^ 64) (hnone : ∀ t, ¬ (s.thread t).Last)
    (hi : (s.thread i).increments = round) {t' : Thread} (ht' : t'.Arrived round) :
    (s.barrier.count + 1).toNat = tally (Thread.Arrived round) (update s.thread i t') ∧
      (s.barrier.count + 1).toNat = s.barrier.count.toNat + 1 := by
  have hta := tally_update (Thread.Arrived round) s.thread i t'
  have hcard := tally_le_card (Thread.Arrived round) (update s.thread i t')
  have hold := h.count fun t ht => hnone t (.inr ht)
  grind [Thread.Arrived, Fintype.card_fin, BitVec.ofNat_eq_ofNat, BitVec.toNat_ofNat]

theorem InvAt.arrive_last (hn : n < 2 ^ 64) (hnone : ∀ t, ¬ (s.thread t).Last)
    (hret : (s.thread i).returns = round) (hinc : (s.thread i).increments = round)
    (hge : s.barrier.count + 1 ≥ s.barrier.threshold) :
    InvAt round ⟨{ s.barrier with count := s.barrier.count + 1 },
      update s.thread i { s.thread i with pc := .reset, increments := (s.thread i).increments + 1 }⟩ := by
  set t' : Thread := { s.thread i with pc := .reset, increments := (s.thread i).increments + 1 } with ht'
  have harr' : t'.Arrived round := by simp [ht', Thread.Arrived, hinc]
  obtain ⟨hc, -⟩ := h.count_succ hn hnone hinc harr'
  have hall : ∀ t, (update s.thread i t' t).Arrived round := by
    refine tally_eq_card.1 (Nat.le_antisymm (tally_le_card _ _) ?_)
    rw [← hc, Fintype.card_fin]
    exact h.threshold.symm.le.trans hge
  have ho : ∀ t, t ≠ i → (s.thread t).Spins round := fun t hti =>
    (h.threads t).spins (by simpa [hti] using hall t) (hnone t)
  have hnb : ∀ t, (update s.thread i t' t).pc ≠ .bump :=
    (Function.forall_update_iff s.thread fun _ t => t.pc ≠ .bump).2 ⟨by simp [ht'], fun t _ hb => hnone t (.inr hb)⟩
  refine ⟨h.threshold, h.generation, threads_update ?_ fun t _ => h.threads t, fun _ => hc,
    fun t ht => absurd ht (hnb t), fun t ht u hu => ?_⟩
  · simp [ht', Thread.Ok, hret, hinc]
  · -- only the thread that arrives now is the last one
    have hti : t = i := by
      by_contra hti
      exact hnone t (by simpa [hti] using ht)
    subst hti
    simpa [hu] using ho u hu

theorem InvAt.reset_count (hi : (s.thread i).pc = .reset) :
    InvAt round ⟨{ s.barrier with count := 0 }, update s.thread i { s.thread i with pc := .bump }⟩ := by
  have hok := h.threads i
  simp only [Thread.Ok, hi] at hok
  refine ⟨h.threshold, h.generation, threads_update ?_ fun t _ => h.threads t, fun hb => ?_, fun _ _ => rfl,
    fun t ht u hu => ?_⟩
  · simp [Thread.Ok, hok]
  · exact absurd (by simp) (hb i)
  · have hti : t = i := by
      by_contra hti
      obtain ⟨gen, hpc, -⟩ := h.last i (.inl hi) t hti
      simp [Thread.Last, hti, hpc] at ht
    subst hti
    simpa [hu] using h.last t (.inl hi) u hu

theorem InvAt.bump_generation (hi : (s.thread i).pc = .bump) :
    InvAt (round + 1) ⟨{ s.barrier with generation := s.barrier.generation + 1 },
      update s.thread i { s.thread i with pc := .idle, returns := (s.thread i).returns + 1 }⟩ := by
  have hok := h.threads i
  simp only [Thread.Ok, hi] at hok
  -- the others have arrived and spin, and that is all they do in the next round
  have ho : ∀ t, t ≠ i → (s.thread t).Ok (round + 1) ∧ ¬ (s.thread t).Arrived (round + 1) ∧ ¬ (s.thread t).Last := by
    intro t hti
    obtain ⟨gen, hpc, hret⟩ := h.last i (.inr hi) t hti
    have htok := h.threads t
    simp only [Thread.Ok, hpc] at htok
    refine ⟨?_, ?_, ?_⟩
    · simp [Thread.Ok, hpc, htok.1, htok.2.1, hret]
    · simp [Thread.Arrived, htok.2.1, hret]
    · simp [Thread.Last, hpc]
  have hnone : ∀ t, ¬ (update s.thread i
      { s.thread i with pc := .idle, returns := (s.thread i).returns + 1 } t).Last :=
    (Function.forall_update_iff s.thread fun _ t => ¬ t.Last).2 ⟨by simp [Thread.Last], fun t hti => (ho t hti).2.2⟩
  refine ⟨h.threshold, ?_, threads_update ?_ fun t hti => (ho t hti).1, fun _ => ?_,
    fun t ht => absurd (.inr ht) (hnone t), fun t ht => absurd ht (hnone t)⟩
  · simp only [h.generation]
    exact (BitVec.ofNat_add round 1).symm
  · simp [Thread.Ok, hok]
  · rw [h.reset i hi]
    refine (tally_eq_zero.2 ?_).symm
    exact (Function.forall_update_iff s.thread fun _ t => ¬ t.Arrived (round + 1)).2
      ⟨by simp [Thread.Arrived, hok], fun t hti => (ho t hti).2.1⟩

theorem InvAt.step (hn : n < 2 ^ 64) (i : Fin n) : ∃ round', InvAt round' (s.step i) := by
  have hok := h.threads i
  cases hpc : (s.thread i).pc with
  | idle =>
    simp only [Threads.step, Thread.Ok, hpc] at hok ⊢
    have hnone := h.not_last (i := i) (by simp [Thread.Last, hpc]) (by simp [Thread.Spins, hpc])
    exact ⟨round, h.move hnone rfl rfl (by simp [Thread.Ok, h.generation, hok]) (by simp [Thread.Last]) rfl⟩
  | arrive gen =>
    simp only [Threads.step, Thread.Ok, hpc] at hok ⊢
    obtain ⟨hgen, hret, hinc⟩ := hok
    have hnone := h.not_last (i := i) (by simp [Thread.Last, hpc]) (by simp [Thread.Spins, hpc])
    refine ⟨round, ?_⟩
    split
    case isTrue hge => exact h.arrive_last hn hnone hret hinc hge
    case isFalse =>
      have harr : ({ s.thread i with pc := .spin gen, increments := (s.thread i).increments + 1 } : Thread).Arrived
          round := by simp [Thread.Arrived, hinc]
      obtain ⟨-, hsucc⟩ := h.count_succ (i := i) hn hnone hinc harr
      refine h.move hnone rfl rfl ?_ (by simp [Thread.Last]) ?_
      · simp [Thread.Ok, hgen, hret, hinc]
      · simp [harr, Thread.Arrived, hinc]
        omega
  | reset =>
    simp only [Threads.step, hpc]
    exact ⟨round, h.reset_count hpc⟩
  | bump =>
    simp only [Threads.step, hpc]
    exact ⟨round + 1, h.bump_generation hpc⟩
  | spin gen =>
    simp only [Threads.step, Thread.Ok, hpc] at hok ⊢
    obtain ⟨hgen, hinc, hro⟩ := hok
    refine ⟨round, ?_⟩
    split
    case isTrue => exact h
    case isFalse hne =>
      -- the generation it waited for is over, so the thread is late from the round before
      have hlate : (s.thread i).returns + 1 = round := hro.resolve_left fun hr =>
        hne (by rw [h.generation, hgen, hr])
      have hnone := h.not_last (i := i) (by simp [Thread.Last, hpc]) (by simp [Thread.Spins]; omega)
      exact h.move hnone rfl rfl (by simp [Thread.Ok, hinc, hlate]) (by simp [Thread.Last]) rfl

end

/-- In every interleaving, no thread has returned from its `k`-th wait before all threads have incremented the counter
in their `k`-th wait. -/
theorem barrier_synchronizes (n : BitVec 64) (is : List (Fin n.toNat)) :
    Always Threads.step Synchronized (start n) is :=
  always_of_meets (I := fun s => ∃ round, InvAt round s) (fun _ ⟨_, h⟩ => h.synchronized)
    (fun _ i _ ⟨_, h⟩ _ => h.step n.isLt i) ⟨0, InvAt.start n⟩ (fun _ _ => trivial)
    (meets_of_forall (fun _ _ => trivial) _ _)

end Threads

end Barrier

end AstralOS.Sync
