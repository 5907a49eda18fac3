import AstralOS.Lib.Run
import AstralOS.Lib.RunningMean

/-!
# Access patterns

The tracker of `reality/dream.rs`: one pattern for each of up to 128 files, made anew when the least used one is replaced.
`Inv` says that a pattern is what its file's accesses since then make of it.  So the ranking of files is exact
(`hot_files_exact`).  The average interval is not: it gives the first interval the weight of two, one of them for an interval
of length 0 that never was (`avg_interval_iff`).
-/

open Function

namespace AstralOS.Reality

structure AccessPattern where
  fileId : BitVec 32
  accessCount : BitVec 32
  lastAccess : BitVec 64
  predictedNext : BitVec 64
  avgInterval : BitVec 64
  variance : BitVec 64
  deriving DecidableEq

namespace AccessPattern

def new (fileId : BitVec 32) (timestamp : BitVec 64) : AccessPattern := ⟨fileId, 1, timestamp, 0, 0, 0⟩

def update (p : AccessPattern) (timestamp : BitVec 64) : AccessPattern :=
  let interval := if timestamp < p.lastAccess then 0 else timestamp - p.lastAccess
  let n := p.accessCount.setWidth 64
  let newAvg := (p.avgInterval * n + interval) / (n + 1)
  let diff := if interval > p.avgInterval then interval - p.avgInterval else p.avgInterval - interval
  { p with
    variance := (p.variance * n + diff) / (n + 1)
    avgInterval := newAvg
    accessCount := p.accessCount + 1
    lastAccess := timestamp
    predictedNext := timestamp + newAvg }

end AccessPattern

structure AccessPatternTracker where
  patterns : Fin 128 → Option AccessPattern
  count : Nat

namespace AccessPatternTracker

def new : AccessPatternTracker := ⟨fun _ => none, 0⟩

section

variable (s : AccessPatternTracker)

def slots : List (Fin 128) := (List.finRange 128).filter (·.val < s.count)

def hasFile (fileId : BitVec 32) (i : Fin 128) : Bool := (s.patterns i).any (·.fileId = fileId)

def leastAccessed : Fin 128 :=
  (s.slots.foldl (fun (minIdx, minCount) i =>
    match s.patterns i with
    | some p => if p.accessCount < minCount then (i, p.accessCount) else (minIdx, minCount)
    | none => (minIdx, minCount)) (0, BitVec.allOnes 32)).1

def recordAccess (fileId : BitVec 32) (timestamp : BitVec 64) : AccessPatternTracker :=
  match s.slots.find? (s.hasFile fileId) with
  | some i => { s with patterns := update s.patterns i ((s.patterns i).map (·.update timestamp)) }
  | none =>
    if h : s.count < 128 then
      ⟨update s.patterns ⟨s.count, h⟩ (some (.new fileId timestamp)), s.count + 1⟩
    else { s with patterns := update s.patterns s.leastAccessed (some (.new fileId timestamp)) }

/-- The count of a file as the comparison of `get_hot_files` looks it up. -/
def countOf (fileId : BitVec 32) : BitVec 32 :=
  ((((List.finRange 128).filterMap s.patterns).find? (·.fileId = fileId)).map (·.accessCount)).getD 0

def getHotFiles (minAccesses : BitVec 32) : List (BitVec 32) :=
  let hot := s.slots.filterMap fun i =>
    (s.patterns i).bind fun p => if p.accessCount ≥ minAccesses then some p.fileId else none
  hot.mergeSort fun a b => s.countOf b ≤ s.countOf a

end

end AccessPatternTracker

/-! ### Runs -/

/-- The tracker, and for each file the times of its accesses since its pattern was created. -/
structure Tracking where
  tracker : AccessPatternTracker
  since : BitVec 32 → List (BitVec 64)

namespace Tracking

def start : Tracking := ⟨.new, fun _ => []⟩

def exec (s : Tracking) (access : BitVec 32 × BitVec 64) : Tracking :=
  ⟨s.tracker.recordAccess access.1 access.2,
    update s.since access.1
      (if ∃ i, s.tracker.hasFile access.1 i then s.since access.1 ++ [access.2] else [access.2])⟩

/-- The accesses make the pattern. -/
def Replays (p : AccessPattern) (times : List (BitVec 64)) : Prop :=
  ∃ t ts, times = t :: ts ∧ p = ts.foldl .update (.new p.fileId t)

structure Inv (s : Tracking) : Prop where
  count_le : s.tracker.count ≤ 128
  slots : ∀ i : Fin 128, (s.tracker.patterns i).isSome ↔ i.val < s.tracker.count
  distinct : ∀ i j p q, s.tracker.patterns i = some p → s.tracker.patterns j = some q → p.fileId = q.fileId → i = j
  replays : ∀ i p, s.tracker.patterns i = some p → Replays p (s.since p.fileId)

variable {s : Tracking} {i : Fin 128} {p : AccessPattern} {file : BitVec 32}

theorem hasFile_iff : s.tracker.hasFile file i ↔ ∃ p, s.tracker.patterns i = some p ∧ p.fileId = file := by
  simp [AccessPatternTracker.hasFile, Option.any_eq_true]

theorem Inv.set (h : s.Inv) {count : Nat} {times : List (BitVec 64)} (hfile : p.fileId = file)
    (ho : ∀ j q, j ≠ i → s.tracker.patterns j = some q → q.fileId ≠ file) (hle : count ≤ 128)
    (hc : ∀ j : Fin 128, j.val < count ↔ j = i ∨ j.val < s.tracker.count) (hre : Replays p times) :
    Inv ⟨⟨update s.tracker.patterns i (some p), count⟩, update s.since file times⟩ where
  count_le := hle
  slots := by
    intro j
    rw [hc]
    by_cases hj : j = i
    · simp [hj]
    · simp [hj, h.slots j]
  distinct := by
    intro j k q r hq hr hqr
    by_cases hj : j = i <;> by_cases hk : k = i
    · rw [hj, hk]
    · simp only [hj, update_self, Option.some.injEq] at hq
      simp only [update_of_ne hk] at hr
      exact absurd (hqr.symm.trans (hq ▸ hfile)) (ho k r hk hr)
    · simp only [update_of_ne hj] at hq
      simp only [hk, update_self, Option.some.injEq] at hr
      exact absurd (hqr.trans (hr ▸ hfile)) (ho j q hj hq)
    · simp only [update_of_ne hj] at hq
      simp only [update_of_ne hk] at hr
      exact h.distinct j k q r hq hr hqr
  replays := by
    intro j q hq
    dsimp only
    by_cases hj : j = i
    · simp only [hj, update_self, Option.some.injEq] at hq
      subst hq
      rwa [hfile, update_self]
    · simp only [update_of_ne hj] at hq
      rw [update_of_ne (ho j q hj hq)]
      exact h.replays j q hq

theorem Inv.exec (h : s.Inv) (access : BitVec 32 × BitVec 64) : (s.exec access).Inv := by
  obtain ⟨file, t⟩ := access
  unfold Tracking.exec AccessPatternTracker.recordAccess
  cases hfind : s.tracker.slots.find? (s.tracker.hasFile file) with
  | some i =>
    have hi := List.find?_some hfind
    obtain ⟨p, hp, hfile⟩ := hasFile_iff.1 hi
    obtain ⟨t0, ts, hs, hr⟩ := h.replays i p hp
    rw [if_pos ⟨i, hi⟩]
    simp only [hp, Option.map_some]
    refine h.set hfile (fun j q hj hq hqf => hj (h.distinct j i q p hq hp (hqf.trans hfile.symm))) h.count_le ?_
      ⟨t0, ts ++ [t], by rw [← hfile, hs]; rfl, ?_⟩
    · intro j
      have hlt := (h.slots i).1 (by rw [hp]; rfl)
      exact ⟨.inr, fun hj => hj.elim (fun hj => hj ▸ hlt) id⟩
    · rw [List.foldl_append]
      nth_rewrite 1 [hr]
      rfl
  | none =>
    have hnone : ∀ j q, s.tracker.patterns j = some q → q.fileId ≠ file := by
      intro j q hq hqf
      have hmem : j ∈ s.tracker.slots := by
        simpa [AccessPatternTracker.slots] using (h.slots j).1 (by rw [hq]; rfl)
      exact List.find?_eq_none.1 hfind j hmem (hasFile_iff.2 ⟨q, hq, hqf⟩)
    rw [if_neg fun ⟨j, hj⟩ => by
      obtain ⟨q, hq, hqf⟩ := hasFile_iff.1 hj
      exact hnone j q hq hqf]
    have hnew : Replays (.new file t) [t] := ⟨t, [], rfl, rfl⟩
    have hle := h.count_le
    dsimp only
    split
    next hroom =>
      refine h.set rfl (fun j q _ => hnone j q) hroom (fun j => ?_) hnew
      rw [Nat.lt_succ_iff_lt_or_eq, or_comm, Fin.ext_iff]
    next hfull => exact h.set rfl (fun j q _ => hnone j q) hle (fun j => by omega) hnew

theorem inv_run (accesses : List (BitVec 32 × BitVec 64)) : (run exec start accesses).Inv :=
  run_invariant (Q := fun _ => True) (fun _ access h _ => h.exec access)
    ⟨Nat.zero_le _, by simp [start, AccessPatternTracker.new], nofun, nofun⟩ fun _ _ => trivial

/-! ### Counts -/

theorem accessCount_foldl (ts : List (BitVec 64)) (p : AccessPattern) :
    (ts.foldl .update p).accessCount = p.accessCount + BitVec.ofNat 32 ts.length := by
  induction ts generalizing p with
  | nil => simp
  | cons t ts ih =>
    rw [List.foldl_cons, ih, List.length_cons, BitVec.ofNat_add, BitVec.add_comm (BitVec.ofNat 32 ts.length),
      ← BitVec.add_assoc]
    rfl

theorem length_since_le (accesses : List (BitVec 32 × BitVec 64)) (file : BitVec 32) :
    ((run exec s accesses).since file).length ≤ (s.since file).length + accesses.length := by
  induction accesses generalizing s with
  | nil => exact Nat.le_refl _
  | cons access accesses ih =>
    refine ih.trans ?_
    have hone : ((s.exec access).since file).length ≤ (s.since file).length + 1 := by
      unfold Tracking.exec
      dsimp only
      by_cases hf : file = access.1
      · subst hf
        split <;> simp
      · rw [update_of_ne hf]
        exact Nat.le_succ _
    rw [List.length_cons]
    omega

theorem Inv.countOf_eq (h : s.Inv) (hp : s.tracker.patterns i = some p) : s.tracker.countOf p.fileId = p.accessCount := by
  have hmem : p ∈ (List.finRange 128).filterMap s.tracker.patterns :=
    List.mem_filterMap.2 ⟨i, List.mem_finRange i, hp⟩
  unfold AccessPatternTracker.countOf
  cases hfind : ((List.finRange 128).filterMap s.tracker.patterns).find? (·.fileId = p.fileId) with
  | none => simpa using List.find?_eq_none.1 hfind p hmem
  | some q =>
    obtain ⟨j, -, hq⟩ := List.mem_filterMap.1 (List.mem_of_find?_eq_some hfind)
    obtain rfl := h.distinct j i q p hq hp (by simpa using List.find?_some hfind)
    grind

/-- The tracker's patterns are of different files and fill its first slots, they count the accesses since they were created,
and the hot files are ranked by them. -/
structure Exact (s : Tracking) : Prop where
  count_le : s.tracker.count ≤ 128
  slots : ∀ i : Fin 128, (s.tracker.patterns i).isSome ↔ i.val < s.tracker.count
  distinct : ∀ i j p q, s.tracker.patterns i = some p → s.tracker.patterns j = some q → p.fileId = q.fileId → i = j
  counts : ∀ i p, s.tracker.patterns i = some p → p.accessCount.toNat = (s.since p.fileId).length
  hot_nodup : ∀ m, (s.tracker.getHotFiles m).Nodup
  mem_hot : ∀ m file, file ∈ s.tracker.getHotFiles m ↔
    ∃ i p, s.tracker.patterns i = some p ∧ p.fileId = file ∧ m ≤ p.accessCount
  hot_ranked : ∀ m, (s.tracker.getHotFiles m).Pairwise fun a b => ∀ i j p q, s.tracker.patterns i = some p →
    s.tracker.patterns j = some q → p.fileId = a → q.fileId = b → q.accessCount ≤ p.accessCount

theorem hot_eq_some_iff {m : BitVec 32} :
    ((s.tracker.patterns i).bind fun p => if p.accessCount ≥ m then some p.fileId else none) = some file ↔
      ∃ p, s.tracker.patterns i = some p ∧ p.fileId = file ∧ m ≤ p.accessCount := by
  simp only [Option.bind_eq_some_iff, Option.ite_none_right_eq_some, Option.some.injEq, ge_iff_le, and_comm (a := m ≤ _)]

theorem Inv.exact (h : s.Inv) (hlt : ∀ file, (s.since file).length < 2 ^ 32) : s.Exact where
  count_le := h.count_le
  slots := h.slots
  distinct := h.distinct
  counts := by
    intro i p hp
    obtain ⟨t, ts, hs, hr⟩ := h.replays i p hp
    have hlen := hlt p.fileId
    rw [hs, List.length_cons] at hlen ⊢
    rw [hr, accessCount_foldl, BitVec.toNat_add, BitVec.toNat_ofNat]
    change (1 + _) % 2 ^ 32 = _
    omega
  hot_nodup := by
    intro m
    refine (List.mergeSort_perm _ _).nodup_iff.2 (((List.nodup_finRange 128).filter _).filterMap ?_)
    intro i j file hi hj
    obtain ⟨p, hp, hpf, -⟩ := hot_eq_some_iff.1 hi
    obtain ⟨q, hq, hqf, -⟩ := hot_eq_some_iff.1 hj
    exact h.distinct i j p q hp hq (hpf.trans hqf.symm)
  mem_hot := by
    intro m file
    rw [AccessPatternTracker.getHotFiles, List.mem_mergeSort, List.mem_filterMap]
    simp only [hot_eq_some_iff]
    refine exists_congr fun i => ⟨And.right, fun hp => ⟨?_, hp⟩⟩
    obtain ⟨p, hp, -⟩ := hp
    simpa [AccessPatternTracker.slots] using (h.slots i).1 (by rw [hp]; rfl)
  hot_ranked := by
    intro m
    refine (List.pairwise_mergeSort (fun a b c hab hbc => ?_) (fun a b => ?_) _).imp ?_
    · rw [decide_eq_true_eq] at *
      exact BitVec.le_trans hbc hab
    · rw [Bool.or_eq_true, decide_eq_true_eq, decide_eq_true_eq]
      exact BitVec.le_total ..
    · intro a b hab i j p q hp hq hpa hqb
      rw [decide_eq_true_eq, ← hpa, ← hqb, h.countOf_eq hp, h.countOf_eq hq] at hab
      exact hab

/-- Fewer accesses than a counter can count. -/
theorem hot_files_exact (accesses : List (BitVec 32 × BitVec 64)) (hlen : accesses.length < 2 ^ 32) :
    (run exec start accesses).Exact := by
  refine (inv_run accesses).exact fun file => ?_
  have hle : _ ≤ 0 + accesses.length := length_since_le (s := start) accesses file
  omega

/-- Two files, the second accessed twice. -/
theorem hot_files_exact_two : (run exec start [(1, 0), (2, 5), (2, 7)]).Exact := hot_files_exact _ (by decide)

/-! ### Intervals -/

def intervals : BitVec 64 → List (BitVec 64) → List Nat
  | _, [] => []
  | last, t :: ts => (t.toNat - last.toNat) :: intervals t ts

theorem update_spec {t : BitVec 64} (hle : p.lastAccess ≤ t) (hn : p.accessCount.toNat + 1 < 2 ^ 32)
    (hb : p.avgInterval.toNat * p.accessCount.toNat ≤ p.lastAccess.toNat) :
    (p.update t).accessCount.toNat = p.accessCount.toNat + 1 ∧ (p.update t).avgInterval.toNat =
      (p.avgInterval.toNat * p.accessCount.toNat + (t.toNat - p.lastAccess.toNat)) / (p.accessCount.toNat + 1) := by
  have hlN : p.lastAccess.toNat ≤ t.toNat := hle
  have ht := t.isLt
  unfold AccessPattern.update
  refine ⟨by rw [BitVec.toNat_add]; exact Nat.mod_eq_of_lt hn, ?_⟩
  have hc : (p.accessCount.setWidth 64).toNat = p.accessCount.toNat := by
    rw [BitVec.toNat_setWidth, Nat.mod_eq_of_lt (by omega)]
  grind [BitVec.toNat_udiv, BitVec.toNat_mul]

/-- The average is never so large that its product with the count overflows: it is at most the time since the first access. -/
theorem avgInterval_foldl {ts : List (BitVec 64)} (hn : p.accessCount.toNat + ts.length < 2 ^ 32)
    (hb : p.avgInterval.toNat * p.accessCount.toNat ≤ p.lastAccess.toNat)
    (hs : (p.lastAccess :: ts).Pairwise (· ≤ ·)) :
    (ts.foldl .update p).avgInterval.toNat =
      runningMean p.avgInterval.toNat p.accessCount.toNat (intervals p.lastAccess ts) := by
  induction ts generalizing p with
  | nil => rfl
  | cons t ts ih =>
    rw [List.length_cons] at hn
    obtain ⟨hf, hrest⟩ := List.pairwise_cons.1 hs
    have hle : p.lastAccess ≤ t := hf t List.mem_cons_self
    obtain ⟨hc, havg⟩ := update_spec hle (by omega) hb
    have hlN : p.lastAccess.toNat ≤ t.toNat := hle
    rw [List.foldl_cons, ih (by omega) ?_ hrest, hc, havg]
    · rfl
    · rw [hc, havg]
      exact (Nat.div_mul_le_self _ _).trans (show _ ≤ t.toNat by omega)

theorem predictedNext_foldl {ts : List (BitVec 64)} (hts : ts ≠ []) (t : BitVec 64) (p : AccessPattern) :
    (ts.foldl .update p).predictedNext = (t :: ts).getLastD t + (ts.foldl .update p).avgInterval := by
  rcases List.eq_nil_or_concat ts with rfl | ⟨ts, t', rfl⟩
  · exact absurd rfl hts
  · rw [List.concat_eq_append, List.foldl_append, ← List.cons_append, List.getLastD_concat]
    rfl

/-- The average lies between two intervals, and the next access is expected after it. -/
structure Plausible (p : AccessPattern) (t : BitVec 64) (ts : List (BitVec 64)) : Prop where
  low : ∃ d ∈ intervals t ts, d ≤ p.avgInterval.toNat
  high : ∃ d ∈ intervals t ts, p.avgInterval.toNat ≤ d
  next : p.predictedNext = (t :: ts).getLastD t + p.avgInterval

/-- The average of a pattern with at least two accesses is plausible exactly if the intervals exceed the smallest of them by
enough: from the last interval back, the excesses add up to the smallest interval. -/
theorem avg_interval_iff (accesses : List (BitVec 32 × BitVec 64)) (i : Fin 128) (p : AccessPattern) (t : BitVec 64)
    (ts : List (BitVec 64)) (hp : (run exec start accesses).tracker.patterns i = some p)
    (hsince : (run exec start accesses).since p.fileId = t :: ts) (hts : ts ≠ [])
    (hsorted : (t :: ts).Pairwise (· ≤ ·)) (hlen : (t :: ts).length < 2 ^ 32) :
    Plausible p t ts ↔
      ∀ m ∈ (intervals t ts).min?, m ≤ carry 1 ((intervals t ts).map (· - m)) := by
  obtain ⟨t', ts', hsince', hr⟩ := (inv_run accesses).replays i p hp
  obtain ⟨rfl, rfl⟩ := List.cons.inj (hsince.symm.trans hsince')
  have havg : p.avgInterval.toNat = runningMean 0 1 (intervals t ts) := by
    rw [hr]
    exact avgInterval_foldl (p := .new p.fileId t) (by rw [List.length_cons, Nat.add_comm] at hlen; exact hlen)
      (Nat.zero_le _) hsorted
  have hnext : p.predictedNext = (t :: ts).getLastD t + p.avgInterval := by
    rw [hr]
    exact predictedNext_foldl hts t _
  have hmin : ∀ m, m ∈ (intervals t ts).min? →
      (m ≤ p.avgInterval.toNat ↔ m ≤ carry 1 ((intervals t ts).map (· - m))) := by
    intro m hm
    rw [havg, le_runningMean_iff Nat.one_pos (List.min?_eq_some_iff.1 hm).2, Nat.zero_add]
  constructor
  · rintro ⟨⟨d, hd, hdle⟩, -, -⟩ m hm
    exact (hmin m hm).1 (((List.min?_eq_some_iff.1 hm).2 d hd).trans hdle)
  · intro h
    obtain ⟨m, hm⟩ : ∃ m, (intervals t ts).min? = some m := by
      cases ts with
      | nil => exact absurd rfl hts
      | cons t' ts => exact ⟨_, rfl⟩
    have hmem := (List.min?_eq_some_iff.1 hm).1
    have hlow := (hmin m hm).2 (h m hm)
    refine ⟨⟨m, hmem, hlow⟩, ?_, hnext⟩
    by_contra hnone
    simp only [not_exists, not_and, Nat.not_le] at hnone
    have hle := runningMean_le (a := 0) (n := 1) (m := p.avgInterval.toNat - 1) (Nat.zero_le _)
      fun d hd => Nat.le_pred_of_lt (hnone d hd)
    have := hnone m hmem
    omega

/-- The intervals 10 and 30 have the average 13. -/
theorem avg_interval_growing : Plausible (((AccessPattern.new 7 0).update 10).update 40) 0 [10, 40] :=
  (avg_interval_iff [(7, 0), (7, 10), (7, 40)] 0 _ 0 [10, 40] (by decide +kernel) (by decide +kernel) (by decide)
    (by decide) (by decide)).2 (by decide)

/-- Two accesses at the times 0 and 10 have the average interval 5. -/
theorem avg_interval_halved :
    ∃ p, (run exec start [(7, 0), (7, 10)]).tracker.patterns 0 = some p ∧
      (run exec start [(7, 0), (7, 10)]).since p.fileId = [0, 10] ∧ p.avgInterval = 5 ∧ ¬Plausible p 0 [10] :=
  ⟨(AccessPattern.new 7 0).update 10, by decide +kernel, by decide +kernel, by decide, fun h => absurd h.low (by decide)⟩

end Tracking

end AstralOS.Reality
