import AstralOS.Fs.PsychicFs
import AstralOS.Lib.Run
import AstralOS.Lib.WriteBack

/-!
# The block cache

`cached_read`, `cached_write`, `cache_insert` and `flush_cache` of PsychicFS.  An entry is in use while its access
counter is not zero; the counter goes up with every hit, so it stays off zero over fewer than `2 ^ 32` calls.  The
cache is a write-back cache in front of the disk (`lines`), and the calls behave as those of a disk that is read and
written at once (`cache_transparent`).
-/

open Function

namespace AstralOS.Fs

abbrev cacheSize : Nat := 32

instance : NeZero cacheSize := ⟨by decide⟩

structure CacheEntry where
  blockNum : BitVec 32
  data : Sector
  dirty : Bool
  accessCount : BitVec 32
  lastAccess : BitVec 64

def CacheEntry.empty : CacheEntry := ⟨0, emptySector, false, 0, 0⟩

structure BlockCache where
  cache : Fin cacheSize → CacheEntry
  cacheHits : BitVec 64
  cacheMisses : BitVec 64

namespace BlockCache

def new : BlockCache := ⟨fun _ => .empty, 0, 0⟩

def find (c : BlockCache) (blockNum : BitVec 32) : Option (Fin cacheSize) :=
  (List.finRange cacheSize).find? fun i => (c.cache i).blockNum = blockNum ∧ (c.cache i).accessCount > 0

def set (c : BlockCache) (i : Fin cacheSize) (entry : CacheEntry) : BlockCache :=
  { c with cache := update c.cache i entry }

/-- The loop of `cache_insert`: an entry that is not in use, or else the one with the oldest access. -/
def victim (c : BlockCache) : List (Fin cacheSize) → BitVec 64 → Fin cacheSize → Fin cacheSize
  | [], _, minIdx => minIdx
  | i :: rest, minAccess, minIdx =>
    if (c.cache i).accessCount = 0 then i
    else if (c.cache i).lastAccess < minAccess then c.victim rest (c.cache i).lastAccess i
    else c.victim rest minAccess minIdx

/-- The entry is written back if it is dirty and in use; whether that succeeds is not looked at. -/
def writeBack (c : BlockCache) (d : Disk) (i : Fin cacheSize) : Disk :=
  if (c.cache i).dirty ∧ (c.cache i).accessCount > 0 then
    (d.diskWriteSector (c.cache i).blockNum.toNat (c.cache i).data).getD d
  else d

def cacheInsert (c : BlockCache) (d : Disk) (blockNum : BitVec 32) (data : Sector) (dirty : Bool) (now : BitVec 64) :
    BlockCache × Disk :=
  let minIdx := c.victim (List.finRange cacheSize) (BitVec.allOnes 64) 0
  (c.set minIdx ⟨blockNum, data, dirty, 1, now⟩, c.writeBack d minIdx)

def cachedRead (c : BlockCache) (d : Disk) (blockNum : BitVec 32) (now : BitVec 64) :
    Option Sector × BlockCache × Disk :=
  match c.find blockNum with
  | some i =>
    let entry := c.cache i
    let c := c.set i { entry with accessCount := entry.accessCount + 1, lastAccess := now }
    (some entry.data, { c with cacheHits := c.cacheHits + 1 }, d)
  | none =>
    let c := { c with cacheMisses := c.cacheMisses + 1 }
    match d.diskReadSector blockNum.toNat with
    | some buffer => (some buffer, c.cacheInsert d blockNum buffer false now)
    | none => (none, c, d)

def cachedWrite (c : BlockCache) (d : Disk) (blockNum : BitVec 32) (data : Sector) (now : BitVec 64) :
    Bool × BlockCache × Disk :=
  match c.find blockNum with
  | some i =>
    let entry := c.cache i
    (true, c.set i { entry with data, dirty := true, accessCount := entry.accessCount + 1, lastAccess := now }, d)
  | none => (true, c.cacheInsert d blockNum data true now)

def flushFrom : List (Fin cacheSize) → Bool → BlockCache → Disk → Bool × BlockCache × Disk
  | [], success, c, d => (success, c, d)
  | i :: rest, success, c, d =>
    if (c.cache i).dirty ∧ (c.cache i).accessCount > 0 then
      match d.diskWriteSector (c.cache i).blockNum.toNat (c.cache i).data with
      | some d => flushFrom rest success (c.set i { c.cache i with dirty := false }) d
      | none => flushFrom rest false c d
    else flushFrom rest success c d

def flushCache (c : BlockCache) (d : Disk) : Bool × BlockCache × Disk := flushFrom (List.finRange cacheSize) true c d

end BlockCache

/-! ### The cache stands for the blocks -/

def CacheEntry.line (e : CacheEntry) : Line Nat Sector := ⟨e.blockNum.toNat, e.data, e.dirty, e.accessCount ≠ 0⟩

namespace BlockCache

variable {c : BlockCache} {d : Disk} {content : Nat → Sector} {n : Nat} {i : Fin cacheSize}

def lines (c : BlockCache) : Fin cacheSize → Line Nat Sector := fun i => (c.cache i).line

/-- The cache in front of the sectors stands for the contents, and no entry has been used more than `n` times. -/
structure Stands (c : BlockCache) (sectors content : Nat → Sector) (n : Nat) : Prop where
  represents : Represents c.lines sectors content
  count : ∀ i, (c.cache i).accessCount.toNat ≤ n

def evicted (c : BlockCache) : Fin cacheSize := c.victim (List.finRange cacheSize) (BitVec.allOnes 64) 0

/-- The block whose data `cache_insert` loses: those of a dirty entry that cannot be written back. -/
def lost (c : BlockCache) (d : Disk) : Option Nat :=
  let entry := c.cache c.evicted
  if entry.dirty ∧ entry.accessCount > 0 ∧ d.fails entry.blockNum.toNat then some entry.blockNum.toNat else none

def revert (sectors content : Nat → Sector) : Option Nat → Nat → Sector
  | some block => update content block (sectors block)
  | none => content

/-- The cache and a disk that never fails stand for the contents, and no entry has been used more than `n` times. -/
structure Holds (c : BlockCache) (d : Disk) (content : Nat → Sector) (n : Nat) : Prop where
  represents : Represents c.lines d.sectors content
  works : ∀ sector, d.fails sector = false
  count : ∀ i, (c.cache i).accessCount.toNat ≤ n

theorem Holds.stands (h : Holds c d content n) : Stands c d.sectors content n := ⟨h.represents, h.count⟩

theorem lost_of_works (h : ∀ sector, d.fails sector = false) : c.lost d = none := by simp [lost, h]

theorem lines_set (entry : CacheEntry) : (c.set i entry).lines = update c.lines i entry.line := by
  funext j
  by_cases hj : j = i
  · subst hj
    simp [lines, set]
  · simp [lines, set, hj]

theorem pos_iff (x : BitVec 32) : 0#32 < x ↔ x ≠ 0#32 := by
  grind

variable {blockNum : BitVec 32}

theorem find_some (h : c.find blockNum = some i) : (c.cache i).blockNum = blockNum ∧ (c.lines i).valid := by
  have hf := List.find?_some h
  simpa [pos_iff, lines, CacheEntry.line] using hf

theorem find_none (h : c.find blockNum = none) : ∀ i, (c.lines i).valid → (c.lines i).key ≠ blockNum.toNat := by
  intro i hv hkey
  have hnot := List.find?_eq_none.1 h i (List.mem_finRange i)
  have hb : (c.cache i).blockNum = blockNum := BitVec.eq_of_toNat_eq hkey
  simp_all [lines, CacheEntry.line, pos_iff]

variable {sectors : Nat → Sector}

theorem Stands.hit (h : Stands c sectors content n) (hn : n + 1 < 2 ^ 32) (hv : (c.lines i).valid) :
    decide ((c.cache i).accessCount + 1 ≠ 0) = (c.lines i).valid ∧ ((c.cache i).accessCount + 1).toNat ≤ n + 1 := by
  have hc := h.count i
  grind

theorem count_set {entry : CacheEntry} (h : ∀ j, (c.cache j).accessCount.toNat ≤ n)
    (hen : entry.accessCount.toNat ≤ n) (j : Fin cacheSize) : ((c.set i entry).cache j).accessCount.toNat ≤ n := by
  by_cases hj : j = i
  · subst hj
    simpa [set] using hen
  · simpa [set, hj] using h j

theorem back_iff : (c.cache i).dirty ∧ (c.cache i).accessCount > 0 ↔ (c.lines i).dirty ∧ (c.lines i).valid := by
  simp [lines, CacheEntry.line, pos_iff]

theorem writeBack_eq (d : Disk) (i : Fin cacheSize) : c.writeBack d i =
    { d with sectors :=
        if ((c.lines i).dirty ∧ (c.lines i).valid) ∧ d.fails (c.lines i).key = false then
          update d.sectors (c.lines i).key (c.lines i).data
        else d.sectors } := by
  unfold BlockCache.writeBack
  by_cases hback : (c.cache i).dirty ∧ (c.cache i).accessCount > 0
  · rw [if_pos hback, Disk.diskWriteSector, show (c.cache i).blockNum.toNat = (c.lines i).key from rfl]
    cases hf : d.fails (c.lines i).key with
    | true => simp
    | false =>
      rw [if_pos (show ((c.lines i).dirty ∧ (c.lines i).valid) ∧ false = false from ⟨back_iff.1 hback, rfl⟩)]
      rfl
  · rw [if_neg hback, if_neg fun h => hback (back_iff.2 h.1)]

theorem Stands.cacheInsert (h : Stands c d.sectors content n) (hmiss : c.find blockNum = none)
    {data : Sector} (dirty : Bool) (hdata : dirty = false → data = d.sectors blockNum.toNat) (now : BitVec 64) :
    Stands (c.cacheInsert d blockNum data dirty now).1 (c.cacheInsert d blockNum data dirty now).2.sectors
      (update (revert d.sectors content (c.lost d)) blockNum.toNat data) (n + 1) := by
  have hfr := find_none hmiss
  show Stands (c.set c.evicted ⟨blockNum, data, dirty, 1, now⟩) (c.writeBack d c.evicted).sectors _ _
  refine ⟨?_, count_set (fun j => Nat.le_succ_of_le (h.count j)) (by change 1 ≤ n + 1; omega)⟩
  have hev := h.represents.evict c.evicted hfr hdata
  rw [lines_set, writeBack_eq]
  by_cases hback : (c.lines c.evicted).dirty ∧ (c.lines c.evicted).valid
  · obtain ⟨hd, hc⟩ := back_iff.2 hback
    cases hfa : d.fails (c.lines c.evicted).key with
    | true =>
      have hlost : c.lost d = some (c.lines c.evicted).key := if_pos ⟨hd, hc, hfa⟩
      rw [hlost, if_neg (by simp)]
      exact h.represents.discard hback.2 hfr hdata
    | false =>
      have hlost : c.lost d = none := if_neg fun hl => Bool.false_ne_true (hfa.symm.trans hl.2.2)
      rw [if_pos hback] at hev
      rw [hlost, if_pos ⟨hback, rfl⟩]
      exact hev
  · have hlost : c.lost d = none := if_neg fun hl => hback (back_iff.1 ⟨hl.1, hl.2.1⟩)
    rw [if_neg hback] at hev
    rw [hlost, if_neg fun hb => hback hb.1]
    exact hev

theorem lost_ne (hmiss : c.find blockNum = none) : c.lost d ≠ some blockNum.toNat := by
  intro hlost
  unfold lost at hlost
  dsimp only at hlost
  split_ifs at hlost with hback
  exact find_none hmiss c.evicted (back_iff.1 ⟨hback.1, hback.2.1⟩).2 (Option.some.inj hlost)

theorem writeBack_of_lost {k : Nat} (h : c.lost d = some k) : c.writeBack d c.evicted = d := by
  unfold lost at h
  dsimp only at h
  split_ifs at h with hback
  have hw : d.diskWriteSector (c.cache c.evicted).blockNum.toNat (c.cache c.evicted).data = none := if_pos hback.2.2
  rw [BlockCache.writeBack, if_pos ⟨hback.1, hback.2.1⟩, hw, Option.getD_none]

theorem revert_of_ne {lost : Option Nat} {k : Nat} (h : lost ≠ some k) : revert sectors content lost k = content k := by
  cases lost with
  | none => rfl
  | some block => exact update_of_ne (fun hk => h (congrArg some hk.symm)) _ _

theorem Stands.sectors_update (h : Stands c sectors content n) (hv : (c.lines i).valid) (k : Nat) :
    update sectors (c.lines i).key (c.lines i).data k = sectors k ∨
      update sectors (c.lines i).key (c.lines i).data k = content k := by
  by_cases hk : k = (c.lines i).key
  · subst hk
    right
    rw [update_self, h.represents.cached hv]
  · left
    rw [update_of_ne hk]

theorem Stands.sectors_writeBack (h : Stands c d.sectors content n) (i : Fin cacheSize) (k : Nat) :
    (c.writeBack d i).sectors k = d.sectors k ∨ (c.writeBack d i).sectors k = content k := by
  rw [writeBack_eq]
  split_ifs with hback
  · exact h.sectors_update hback.1.2 k
  · exact .inl rfl

theorem fails_writeBack (i : Fin cacheSize) : (c.writeBack d i).fails = d.fails := by rw [writeBack_eq]

theorem disk_cachedRead (c : BlockCache) {d : Disk} (blockNum : BitVec 32) (now : BitVec 64) :
    (c.cachedRead d blockNum now).2.2 = d ∨ (c.cachedRead d blockNum now).2.2 = c.writeBack d c.evicted := by
  unfold BlockCache.cachedRead
  cases c.find blockNum with
  | some i => exact .inl rfl
  | none =>
    cases d.diskReadSector blockNum.toNat with
    | some buffer => exact .inr rfl
    | none => exact .inl rfl

theorem disk_cachedWrite (c : BlockCache) {d : Disk} (blockNum : BitVec 32) (data : Sector) (now : BitVec 64) :
    (c.cachedWrite d blockNum data now).2.2 = d ∨ (c.cachedWrite d blockNum data now).2.2 = c.writeBack d c.evicted := by
  unfold BlockCache.cachedWrite
  cases c.find blockNum with
  | some i => exact .inl rfl
  | none => exact .inr rfl

theorem Stands.lines_hit (h : Stands c sectors content n) (hn : n + 1 < 2 ^ 32)
    (hv : (c.lines i).valid) (data : Sector) (dirty : Bool) (now : BitVec 64) :
    (c.set i ⟨(c.cache i).blockNum, data, dirty, (c.cache i).accessCount + 1, now⟩).lines =
      update c.lines i { c.lines i with data, dirty } := by
  rw [lines_set]
  congr 1
  simp only [CacheEntry.line, (h.hit hn hv).1]
  rfl

section

variable (h : Stands c d.sectors content n)
include h

theorem Stands.cachedRead_hit (hn : n + 1 < 2 ^ 32)
    (hfind : c.find blockNum = some i) (now : BitVec 64) :
    (c.cachedRead d blockNum now).1 = some (content blockNum.toNat) ∧
      Stands (c.cachedRead d blockNum now).2.1 (c.cachedRead d blockNum now).2.2.sectors content (n + 1) := by
  obtain ⟨hb, hv⟩ := find_some hfind
  have hdata : (c.cache i).data = content blockNum.toNat := hb ▸ h.represents.cached hv
  have hl := h.lines_hit hn hv (c.cache i).data (c.cache i).dirty now
  rw [show ({ c.lines i with data := (c.cache i).data, dirty := (c.cache i).dirty } : Line Nat Sector) = c.lines i from rfl,
    update_eq_self] at hl
  simp only [BlockCache.cachedRead, hfind]
  refine ⟨congrArg some hdata, ?_, count_set (fun j => Nat.le_succ_of_le (h.count j)) (h.hit hn hv).2⟩
  exact (congrArg (fun ls => Represents ls d.sectors content) hl).mpr h.represents

theorem Stands.cachedRead_miss (hfind : c.find blockNum = none)
    (hw : d.fails blockNum.toNat = false) (now : BitVec 64) :
    (c.cachedRead d blockNum now).1 = some (content blockNum.toNat) ∧
      Stands (c.cachedRead d blockNum now).2.1 (c.cachedRead d blockNum now).2.2.sectors
        (revert d.sectors content (c.lost d)) (n + 1) := by
  have hc : d.sectors blockNum.toNat = content blockNum.toNat := h.represents.missed (find_none hfind)
  have hread : d.diskReadSector blockNum.toNat = some (d.sectors blockNum.toNat) := by simp [Disk.diskReadSector, hw]
  have hm : Stands { c with cacheMisses := c.cacheMisses + 1 } d.sectors content n := ⟨h.represents, h.count⟩
  have hi := hm.cacheInsert hfind false (fun _ => rfl) now
  simp only [BlockCache.cachedRead, hfind, hread]
  refine ⟨congrArg some hc, ?_⟩
  -- the block that is read is not the one that is lost, so it has the contents of the disk
  have hlost : ({ c with cacheMisses := c.cacheMisses + 1 } : BlockCache).lost d = c.lost d := rfl
  have hsame : d.sectors blockNum.toNat = revert d.sectors content (c.lost d) blockNum.toNat := by
    rw [revert_of_ne (lost_ne hfind), hc]
  rwa [hlost, hsame, update_eq_self, ← hsame] at hi

theorem Stands.cachedRead_fails (hfind : c.find blockNum = none)
    (hf : d.fails blockNum.toNat = true) (now : BitVec 64) :
    Stands (c.cachedRead d blockNum now).2.1 (c.cachedRead d blockNum now).2.2.sectors content (n + 1) := by
  have hread : d.diskReadSector blockNum.toNat = none := by simp [Disk.diskReadSector, hf]
  simp only [BlockCache.cachedRead, hfind, hread]
  exact ⟨h.represents, fun j => Nat.le_succ_of_le (h.count j)⟩

end

theorem cachedWrite_fst (c : BlockCache) (d : Disk) (blockNum : BitVec 32) (data : Sector) (now : BitVec 64) :
    (c.cachedWrite d blockNum data now).1 = true := by
  grind [BlockCache.cachedWrite]

section

variable (h : Stands c d.sectors content n)
include h

theorem Stands.cachedWrite_hit (hn : n + 1 < 2 ^ 32)
    (hfind : c.find blockNum = some i) (data : Sector) (now : BitVec 64) :
    Stands (c.cachedWrite d blockNum data now).2.1 (c.cachedWrite d blockNum data now).2.2.sectors
      (update content blockNum.toNat data) (n + 1) := by
  obtain ⟨hb, hv⟩ := find_some hfind
  simp only [BlockCache.cachedWrite, hfind]
  refine ⟨?_, count_set (fun j => Nat.le_succ_of_le (h.count j)) (h.hit hn hv).2⟩
  rw [h.lines_hit hn hv data true now, ← hb]
  exact h.represents.write hv

theorem Stands.cachedWrite_miss (hfind : c.find blockNum = none)
    (data : Sector) (now : BitVec 64) :
    Stands (c.cachedWrite d blockNum data now).2.1 (c.cachedWrite d blockNum data now).2.2.sectors
      (update (revert d.sectors content (c.lost d)) blockNum.toNat data) (n + 1) := by
  simp only [BlockCache.cachedWrite, hfind]
  exact h.cacheInsert hfind true (by simp) now

theorem Stands.flushFrom (is : List (Fin cacheSize)) (success : Bool)
    (hc : success = true → ∀ j, j ∉ is → (c.lines j).valid → (c.lines j).dirty = false) :
    Stands (BlockCache.flushFrom is success c d).2.1 (BlockCache.flushFrom is success c d).2.2.sectors content n ∧
      (∀ k, (BlockCache.flushFrom is success c d).2.2.sectors k = d.sectors k ∨
        (BlockCache.flushFrom is success c d).2.2.sectors k = content k) ∧
      ((BlockCache.flushFrom is success c d).1 = true → ∀ j, ((BlockCache.flushFrom is success c d).2.1.lines j).valid →
        ((BlockCache.flushFrom is success c d).2.1.lines j).dirty = false) := by
  induction is generalizing c d success with
  | nil => exact ⟨h, fun _ => .inl rfl, fun hs j => hc hs j (by simp)⟩
  | cons i is ih =>
    unfold BlockCache.flushFrom
    by_cases hback : (c.cache i).dirty ∧ (c.cache i).accessCount > 0
    · have hv := (back_iff.1 hback).2
      rw [if_pos hback]
      cases hf : d.fails (c.lines i).key with
      | true =>
        have hw : d.diskWriteSector (c.cache i).blockNum.toNat (c.cache i).data = none := if_pos hf
        simp_all [hw]
      | false =>
        have hw : d.diskWriteSector (c.cache i).blockNum.toNat (c.cache i).data =
            some { d with sectors := update d.sectors (c.lines i).key (c.lines i).data } := by
          rw [Disk.diskWriteSector, if_neg (by rw [show (c.cache i).blockNum.toNat = (c.lines i).key from rfl, hf]; simp)]
          rfl
        have hl : (c.set i { c.cache i with dirty := false }).lines =
            update c.lines i { c.lines i with dirty := false } := lines_set _
        have hst : Stands (c.set i { c.cache i with dirty := false })
            (update d.sectors (c.lines i).key (c.lines i).data) content n := by
          refine ⟨?_, count_set h.count (h.count i)⟩
          rw [hl]
          exact h.represents.clean hv
        rw [hw]
        obtain ⟨hrest, hse, hdone⟩ := ih (d := { d with sectors := _ }) hst success fun hs j hj hjv => by
          rw [hl] at hjv ⊢
          by_cases hji : j = i
          · subst hji
            simp
          · simp_all
        refine ⟨hrest, fun k => ?_, hdone⟩
        rcases hse k with hk | hk
        · exact (h.sectors_update hv k).imp hk.trans hk.trans
        · exact .inr hk
    · rw [if_neg hback]
      refine ih h success fun hs j hj hjv => ?_
      by_cases hji : j = i
      · subst hji
        by_contra hd
        exact hback (back_iff.2 ⟨by simpa using hd, hjv⟩)
      · exact hc hs j (by simp [hji, hj]) hjv

theorem Stands.flushCache :
    Stands (c.flushCache d).2.1 (c.flushCache d).2.2.sectors content n ∧
      (∀ k, (c.flushCache d).2.2.sectors k = d.sectors k ∨ (c.flushCache d).2.2.sectors k = content k) ∧
      ((c.flushCache d).1 = true → (c.flushCache d).2.2.sectors = content) := by
  obtain ⟨hst, hse, hdone⟩ := h.flushFrom (List.finRange cacheSize) true fun _ j hj =>
    absurd (List.mem_finRange j) hj
  exact ⟨hst, hse, fun hs => hst.represents.store_eq (hdone hs)⟩

end

theorem flushFrom_fst (hd : ∀ sector, d.fails sector = false) (is : List (Fin cacheSize)) (success : Bool) :
    (flushFrom is success c d).1 = success := by
  induction is generalizing c d with
  | nil => rfl
  | cons i is ih =>
    unfold flushFrom
    split_ifs with hback
    · rw [Disk.diskWriteSector, hd]
      exact ih hd
    · exact ih hd

theorem flushCache_fst (hd : ∀ sector, d.fails sector = false) : (c.flushCache d).1 = true := flushFrom_fst hd _ _

theorem fails_flushFrom (is : List (Fin cacheSize)) (success : Bool) :
    (flushFrom is success c d).2.2.fails = d.fails := by
  induction is generalizing c d success with
  | nil => rfl
  | cons i is ih =>
    unfold flushFrom Disk.diskWriteSector
    split_ifs
    · exact ih false
    · exact ih (d := { d with sectors := _ }) success
    · exact ih success

theorem fails_flushCache : (c.flushCache d).2.2.fails = d.fails := fails_flushFrom _ _

end BlockCache

/-! ### Runs -/

/-- A call with the reading of the clock that it takes. -/
inductive CacheCall
  | read (blockNum : BitVec 32) (now : BitVec 64)
  | write (blockNum : BitVec 32) (data : Sector) (now : BitVec 64)
  | flush

inductive Answer
  | read (buffer : Option Sector)
  | done (success : Bool)

structure CachedDisk where
  cache : BlockCache
  disk : Disk

namespace CachedDisk

def answer (s : CachedDisk) : CacheCall → CachedDisk × Answer
  | .read blockNum now =>
    let (buffer, cache, disk) := s.cache.cachedRead s.disk blockNum now
    (⟨cache, disk⟩, .read buffer)
  | .write blockNum data now =>
    let (success, cache, disk) := s.cache.cachedWrite s.disk blockNum data now
    (⟨cache, disk⟩, .done success)
  | .flush =>
    let (success, cache, disk) := s.cache.flushCache s.disk
    (⟨cache, disk⟩, .done success)

def call (s : CachedDisk) (c : CacheCall) : CachedDisk := (s.answer c).1

def loses (s : CachedDisk) : CacheCall → Option Nat
  | .read blockNum _ =>
    if (s.cache.find blockNum).isNone ∧ s.disk.fails blockNum.toNat = false then s.cache.lost s.disk else none
  | .write blockNum _ _ => if (s.cache.find blockNum).isNone then s.cache.lost s.disk else none
  | .flush => none

end CachedDisk

def CacheCall.written (content : Nat → Sector) : CacheCall → Nat → Sector
  | .write blockNum data _ => update content blockNum.toNat data
  | .read _ _ | .flush => content

/-- What a call returns on a disk without a cache, and that the disk is up to date after a flush. -/
inductive CacheCall.Answers (content : Nat → Sector) : CacheCall → CachedDisk × Answer → Prop
  | read (blockNum : BitVec 32) (now : BitVec 64) (s : CachedDisk) :
      Answers content (.read blockNum now) (s, .read (some (content blockNum.toNat)))
  | write (blockNum : BitVec 32) (data : Sector) (now : BitVec 64) (s : CachedDisk) :
      Answers content (.write blockNum data now) (s, .done true)
  | flush {s : CachedDisk} (hsectors : s.disk.sectors = content) : Answers content .flush (s, .done true)

namespace CachedDisk

variable {s : CachedDisk} {content : Nat → Sector} {n : Nat}

theorem stands_call (h : s.cache.Stands s.disk.sectors content n) (hn : n + 1 < 2 ^ 32) (c : CacheCall) :
    (s.call c).cache.Stands (s.call c).disk.sectors
      (c.written (BlockCache.revert s.disk.sectors content (s.loses c))) (n + 1) := by
  cases c with
  | read blockNum now =>
    cases hfind : s.cache.find blockNum with
    | some i =>
      rw [show s.loses (.read blockNum now) = none by simp [loses, hfind]]
      exact (h.cachedRead_hit hn hfind now).2
    | none =>
      cases hf : s.disk.fails blockNum.toNat with
      | true =>
        rw [show s.loses (.read blockNum now) = none by simp [loses, hf]]
        exact h.cachedRead_fails hfind hf now
      | false =>
        rw [show s.loses (.read blockNum now) = s.cache.lost s.disk by simp [loses, hfind, hf]]
        exact (h.cachedRead_miss hfind hf now).2
  | write blockNum data now =>
    cases hfind : s.cache.find blockNum with
    | some i =>
      rw [show s.loses (.write blockNum data now) = none by simp [loses, hfind]]
      exact h.cachedWrite_hit hn hfind data now
    | none =>
      rw [show s.loses (.write blockNum data now) = s.cache.lost s.disk by simp [loses, hfind]]
      exact h.cachedWrite_miss hfind data now
  | flush => exact ⟨h.flushCache.1.represents, fun i => Nat.le_succ_of_le (h.flushCache.1.count i)⟩

theorem disk_call (s : CachedDisk) (c : CacheCall) :
    (s.call c).disk = s.disk ∨ (s.call c).disk = s.cache.writeBack s.disk s.cache.evicted ∨ c = .flush := by
  cases c with
  | read blockNum now => exact (s.cache.disk_cachedRead blockNum now).imp_right .inl
  | write blockNum data now => exact (s.cache.disk_cachedWrite blockNum data now).imp_right .inl
  | flush => exact .inr (.inr rfl)

theorem sectors_call (h : s.cache.Stands s.disk.sectors content n) (c : CacheCall) (k : Nat) :
    (s.call c).disk.sectors k = s.disk.sectors k ∨ (s.call c).disk.sectors k = content k := by
  rcases disk_call s c with hdisk | hdisk | rfl
  · exact .inl (by rw [hdisk])
  · rw [hdisk]
    exact h.sectors_writeBack s.cache.evicted k
  · exact h.flushCache.2.1 k

theorem fails_call (s : CachedDisk) (c : CacheCall) : (s.call c).disk.fails = s.disk.fails := by
  rcases disk_call s c with hdisk | hdisk | rfl
  · rw [hdisk]
  · rw [hdisk, BlockCache.fails_writeBack]
  · exact BlockCache.fails_flushCache

theorem loses_of_works (hd : ∀ sector, s.disk.fails sector = false) (c : CacheCall) : s.loses c = none := by
  cases c <;> simp [loses, BlockCache.lost_of_works hd]

theorem answer_spec (h : s.cache.Holds s.disk content n) (hn : n + 1 < 2 ^ 32) (c : CacheCall) :
    c.Answers content (s.answer c) ∧ (s.call c).cache.Holds (s.call c).disk (c.written content) (n + 1) := by
  have hst := stands_call h.stands hn c
  rw [loses_of_works h.works] at hst
  refine ⟨?_, hst.represents, fun k => by rw [fails_call, h.works], hst.count⟩
  cases c with
  | read blockNum now =>
    have hread : (s.cache.cachedRead s.disk blockNum now).1 = some (content blockNum.toNat) := by
      cases hfind : s.cache.find blockNum with
      | some i => exact (h.stands.cachedRead_hit hn hfind now).1
      | none => exact (h.stands.cachedRead_miss hfind (h.works _) now).1
    simp only [answer, hread]
    exact .read blockNum now _
  | write blockNum data now =>
    have hw : (s.cache.cachedWrite s.disk blockNum data now).1 = true := BlockCache.cachedWrite_fst _ _ _ _ _
    simp only [answer, hw]
    exact .write blockNum data now _
  | flush =>
    have hsu := BlockCache.flushCache_fst (c := s.cache) h.works
    simp only [answer, hsu]
    exact .flush (h.stands.flushCache.2.2 hsu)

theorem run_spec (h : s.cache.Holds s.disk content n) (calls : List CacheCall) (hn : n + calls.length < 2 ^ 32) :
    (run call s calls).cache.Holds (run call s calls).disk (calls.foldl CacheCall.written content)
      (n + calls.length) := by
  induction calls generalizing s content n with
  | nil => exact h
  | cons c calls ih =>
    rw [List.length_cons] at hn ⊢
    have hstep := (answer_spec h (by omega) c).2
    have hrest := ih hstep (by omega)
    rwa [Nat.add_right_comm, Nat.add_assoc] at hrest

theorem holds_new {disk : Disk} (hd : ∀ sector, disk.fails sector = false) :
    BlockCache.new.Holds disk disk.sectors 0 :=
  ⟨.of_invalid (fun _ => rfl) _, hd, fun _ => Nat.le_refl _⟩

/-- In every run of fewer than `2 ^ 32` calls on a disk that works, every call answers as on the disk without the cache
after the same writes. -/
theorem cache_transparent (disk : Disk) (hd : ∀ sector, disk.fails sector = false) (calls : List CacheCall)
    (hlen : calls.length < 2 ^ 32) (before : List CacheCall) (c : CacheCall) (after : List CacheCall)
    (hcalls : calls = before ++ c :: after) :
    c.Answers (before.foldl CacheCall.written disk.sectors) ((run call ⟨.new, disk⟩ before).answer c) := by
  subst hcalls
  rw [List.length_append, List.length_cons] at hlen
  have hrun := run_spec (s := ⟨.new, disk⟩) (holds_new hd) before (by omega)
  exact (answer_spec hrun (by omega) c).1

def runEvict : List CacheCall :=
  (List.range 40).map fun b => .write (.ofNat 32 b) (Vector.replicate 512 (.ofNat 8 b)) (.ofNat 64 b)

def blank : Disk := ⟨true, fun _ => emptySector, fun _ => false⟩

theorem cache_transparent_runEvict :
    (runEvict ++ CacheCall.read 3 40 :: [.flush]).length < 2 ^ 32 ∧ (CacheCall.read 3 40).Answers
      (runEvict.foldl CacheCall.written blank.sectors) ((run call ⟨.new, blank⟩ runEvict).answer (.read 3 40)) := by
  have hlen : (runEvict ++ CacheCall.read 3 40 :: [.flush]).length < 2 ^ 32 := by simp [runEvict]
  have hread := cache_transparent blank (fun _ => rfl) (runEvict ++ CacheCall.read 3 40 :: [.flush]) hlen runEvict
    (.read 3 40) [.flush] (by rfl)
  exact ⟨hlen, hread⟩

end CachedDisk

end AstralOS.Fs
