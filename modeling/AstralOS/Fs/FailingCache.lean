import AstralOS.Fs.BlockCache

/-!
# The block cache in front of a failing disk

`cache_insert` makes place by writing a dirty entry back, and does not look at whether that succeeds.  If it does not, what
the entry held is lost, although the write was acknowledged and every later `flush_cache` may succeed.  Any sector may fail in
any call here; `flush_keeps_iff` says for one write whether it is on the disk after a flush.
-/

open Function

namespace AstralOS.Fs

structure FailingCall where
  fails : Nat → Bool
  call : CacheCall

namespace CachedDisk

def failing (s : CachedDisk) (fails : Nat → Bool) : CachedDisk := { s with disk := { s.disk with fails } }

def attempt (s : CachedDisk) (a : FailingCall) : CachedDisk := (s.failing a.fails).call a.call

def Keeps (block : BitVec 32) (data : Sector) (s : CachedDisk) (a : FailingCall) : Prop :=
  (s.failing a.fails).loses a.call = some block.toNat → s.disk.sectors block.toNat = data

def Spares (block : BitVec 32) (a : FailingCall) : Prop := ∀ data now, a.call ≠ .write block data now

variable {s : CachedDisk} {content : Nat → Sector} {n : Nat} {block : BitVec 32} {data : Sector} {a : FailingCall}
  {as : List FailingCall}

theorem stands_attempt (h : s.cache.Stands s.disk.sectors content n) (hn : n + 1 < 2 ^ 32) (a : FailingCall) :
    (s.attempt a).cache.Stands (s.attempt a).disk.sectors
      (a.call.written (BlockCache.revert s.disk.sectors content ((s.failing a.fails).loses a.call))) (n + 1) :=
  stands_call (s := s.failing a.fails) h hn a.call

theorem sectors_attempt (h : s.cache.Stands s.disk.sectors content n) (a : FailingCall) (k : Nat) :
    (s.attempt a).disk.sectors k = s.disk.sectors k ∨ (s.attempt a).disk.sectors k = content k :=
  sectors_call (s := s.failing a.fails) h a.call k

theorem written_of_spares (h : Spares block a) (content : Nat → Sector) :
    a.call.written content block.toNat = content block.toNat := by
  cases hcall : a.call with
  | write other data now =>
    refine update_of_ne (fun heq => ?_) _ _
    obtain rfl := BitVec.eq_of_toNat_eq heq
    exact h data now hcall
  | read _ _ => rfl
  | flush => rfl

theorem disk_of_loses {c : CacheCall} {k : Nat} (h : s.loses c = some k) : (s.call c).disk = s.disk := by
  have hlost : s.cache.lost s.disk = some k := by
    cases c <;> simp only [loses] at h
    case flush => cases h
    all_goals
      split_ifs at h
      exact h
  rcases disk_call s c with hdisk | hdisk | rfl
  · exact hdisk
  · rw [hdisk, BlockCache.writeBack_of_lost hlost]
  · cases h

theorem content_attempt (h : Spares block a) (sectors content : Nat → Sector) (lost : Option Nat) :
    a.call.written (BlockCache.revert sectors content lost) block.toNat =
      if lost = some block.toNat then sectors block.toNat else content block.toNat := by
  rw [written_of_spares h]
  split_ifs with hlost
  · rw [hlost]
    exact update_self _ _ _
  · exact BlockCache.revert_of_ne hlost

section

variable (h : s.cache.Stands s.disk.sectors content n)
include h

theorem stands_run (hn : n + as.length < 2 ^ 32) :
    ∃ content', (run attempt s as).cache.Stands (run attempt s as).disk.sectors content' (n + as.length) := by
  induction as generalizing s content n with
  | nil => exact ⟨content, h⟩
  | cons a as ih =>
    rw [List.length_cons] at hn ⊢
    rw [show n + (as.length + 1) = n + 1 + as.length by omega]
    exact ih (stands_attempt h (by omega) a) (by omega)

theorem content_stays (hn : n + as.length < 2 ^ 32)
    (hs : ∀ a ∈ as, Spares block a) (hdisk : s.disk.sectors block.toNat = content block.toNat) :
    ∃ content', (run attempt s as).cache.Stands (run attempt s as).disk.sectors content' (n + as.length) ∧
      content' block.toNat = content block.toNat := by
  induction as generalizing s content n with
  | nil => exact ⟨content, h, rfl⟩
  | cons a as ih =>
    have hc := content_attempt (hs a (by simp)) s.disk.sectors content ((s.failing a.fails).loses a.call)
    rw [hdisk, ite_self] at hc
    rw [List.length_cons] at hn ⊢
    rw [show n + (as.length + 1) = n + 1 + as.length by omega, ← hc]
    refine ih (stands_attempt h (by omega) a) (by omega) (fun b hb => hs b (by simp [hb])) ?_
    rw [hc]
    rcases sectors_attempt h a block.toNat with hk | hk
    · rw [hk, hdisk]
    · exact hk

theorem content_iff (hn : n + as.length < 2 ^ 32)
    (hsp : ∀ a ∈ as, Spares block a) (hdata : content block.toNat = data) :
    ∃ content', (run attempt s as).cache.Stands (run attempt s as).disk.sectors content' (n + as.length) ∧
      (content' block.toNat = data ↔ Meets attempt (Keeps block data) s as) := by
  induction as generalizing s content n with
  | nil => exact ⟨content, h, by simp [Meets, hdata]⟩
  | cons a as ih =>
    have hc := content_attempt (hsp a (by simp)) s.disk.sectors content ((s.failing a.fails).loses a.call)
    have hstep := stands_attempt h (by rw [List.length_cons] at hn; omega) a
    have hrest : ∀ b ∈ as, Spares block b := fun b hb => hsp b (by simp [hb])
    rw [List.length_cons] at hn ⊢
    rw [show n + (as.length + 1) = n + 1 + as.length by omega]
    by_cases hk : Keeps block data s a
    · have hdata' : a.call.written (BlockCache.revert s.disk.sectors content ((s.failing a.fails).loses a.call))
          block.toNat = data := by
        rw [hc]
        split_ifs with hlost
        · exact hk hlost
        · exact hdata
      obtain ⟨content', hst, hiff⟩ := ih hstep (by omega) hrest hdata'
      exact ⟨content', hst, hiff.trans (by simp [Meets, hk])⟩
    · -- the data are lost here, and from now on the disk has something else
      obtain ⟨hlost, ho⟩ := Classical.not_imp.1 hk
      rw [if_pos hlost] at hc
      have hdisk : (s.attempt a).disk.sectors block.toNat = s.disk.sectors block.toNat := by
        rw [attempt, disk_of_loses hlost]
        rfl
      obtain ⟨content', hst, hsame⟩ := content_stays hstep (by omega) hrest (hdisk.trans hc.symm)
      refine ⟨content', hst, ?_⟩
      grind [Meets]

theorem sectors_of_flush {fails : Nat → Bool}
    (hf : (s.cache.flushCache (s.failing fails).disk).1 = true) :
    ((s.failing fails).call .flush).disk.sectors = content :=
  (BlockCache.Stands.flushCache (d := (s.failing fails).disk) h).2.2 hf

end

/-- **A write in front of a failing disk.**  After a flush that succeeds, the disk has the data of the latest write of a block
exactly if no call since that write lost them, by failing to write the block back when its entry was replaced, while the disk
had other data. -/
theorem flush_keeps_iff (disk : Disk) (before after : List FailingCall) (block : BitVec 32) (data : Sector)
    (now : BitVec 64) (fails fails' : Nat → Bool) (hlen : before.length + after.length + 2 < 2 ^ 32)
    (hlatest : ∀ a ∈ after, Spares block a)
    (hflush : (((run attempt ⟨.new, disk⟩ (before ++ ⟨fails, .write block data now⟩ :: after)).failing fails').answer
      .flush).2 = .done true) :
    (((run attempt ⟨.new, disk⟩ (before ++ ⟨fails, .write block data now⟩ :: after)).failing fails').call
      .flush).disk.sectors block.toNat = data ↔
      Meets attempt (Keeps block data) (run attempt ⟨.new, disk⟩ (before ++ [⟨fails, .write block data now⟩])) after := by
  have hnew : (BlockCache.new).Stands disk.sectors disk.sectors 0 :=
    ⟨.of_invalid (fun _ => rfl) _, fun _ => Nat.le_refl _⟩
  obtain ⟨content, hb⟩ : ∃ content, (run attempt ⟨.new, disk⟩ before).cache.Stands
      (run attempt ⟨.new, disk⟩ before).disk.sectors content (0 + before.length) := stands_run hnew (by omega)
  have hw := stands_attempt hb (by omega) ⟨fails, .write block data now⟩
  have hm := content_iff hw (show _ + after.length < 2 ^ 32 by omega) hlatest (update_self _ _ _)
  obtain ⟨content', ha, hiff⟩ := hm
  rw [run_append, run_cons] at hflush ⊢
  rw [run_append, run_cons, run_nil, ← hiff]
  rw [sectors_of_flush ha (Answer.done.inj hflush)]

theorem answer_flush (s : CachedDisk) : ((s.failing fun _ => false).answer .flush).2 = .done true := by
  have hf := BlockCache.flushCache_fst (c := s.cache) (d := (s.failing fun _ => false).disk) fun _ => rfl
  exact congrArg Answer.done hf

def writeOnce : CachedDisk := run attempt ⟨.new, blank⟩ [⟨fun _ => false, .write 5 emptySector 0⟩]

theorem flush_keeps_iff_writeOnce :
    ((writeOnce.failing fun _ => false).answer .flush).2 = .done true ∧
      ((writeOnce.failing fun _ => false).call .flush).disk.sectors 5 = emptySector :=
  ⟨answer_flush writeOnce, (flush_keeps_iff blank [] [] 5 emptySector 0 (fun _ => false) (fun _ => false) (by decide)
    (by simp) (answer_flush writeOnce)).2 trivial⟩

def fill (b : Nat) : CacheCall := .write (.ofNat 32 b) (Vector.replicate 512 (.ofNat 8 (b + 1))) (.ofNat 64 b)

/-- After block 0, blocks 1 to 32 are written; the last of them takes the place of block 0, while sector 0 fails. -/
def fillOn : List FailingCall :=
  ((List.range 31).map fun b => ⟨fun _ => false, fill (b + 1)⟩) ++ [⟨fun sector => sector = 0, fill 32⟩]

theorem spares_fillOn : ∀ a ∈ fillOn, Spares 0 a := by
  intro a ha data now hcall
  have hbl : ∀ b < 33, b ≠ 0 → BitVec.ofNat 32 b ≠ 0 := by decide
  simp only [fillOn, List.mem_append, List.mem_map, List.mem_range, List.mem_singleton] at ha
  rcases ha with ⟨b, hb, rfl⟩ | rfl
  · exact hbl (b + 1) (by omega) (by omega) (CacheCall.write.inj hcall).1
  · exact hbl 32 (by decide) (by decide) (CacheCall.write.inj hcall).1

/-- All sectors can be written again, and yet the flush that follows reports success without block 0 on the disk. -/
theorem evicted_write_is_lost :
    ¬ ∀ (disk : Disk) (before after : List FailingCall) (block : BitVec 32) (data : Sector) (now : BitVec 64)
      (fails fails' : Nat → Bool), before.length + after.length + 2 < 2 ^ 32 → (∀ a ∈ after, Spares block a) →
      (((run attempt ⟨.new, disk⟩ (before ++ ⟨fails, .write block data now⟩ :: after)).failing fails').answer
        .flush).2 = .done true →
      (((run attempt ⟨.new, disk⟩ (before ++ ⟨fails, .write block data now⟩ :: after)).failing fails').call
        .flush).disk.sectors block.toNat = data := by
  intro h
  have hlost := h blank [] fillOn 0 (Vector.replicate 512 1) 0 (fun _ => false) (fun _ => false) (by decide) spares_fillOn
    (answer_flush _)
  have hbyte := congrArg (fun sector : Sector => byteAt sector 0) hlost
  revert hbyte
  decide +kernel

end CachedDisk

end AstralOS.Fs
