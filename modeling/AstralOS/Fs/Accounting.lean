import Mathlib.Algebra.BigOperators.Group.List.Basic
import AstralOS.Fs.Clean

/-!
# Block accounting and remounting

Two properties of whole runs from a fresh file system.  `Exact`: the bitmap and the free counter agree with the
extents of the files in use.  `Remounts`: unmounting and mounting again keeps the bitmap and the counter.  Both hold
in a clean file system, and both are broken by the first write that allocates blocks: it marks bits 128 places
beyond those of its blocks, and it does not flag the bitmap as changed.  So the runs in which they hold throughout
are the runs in which no write allocates (`accounting_exact_iff`, `remount_keeps_counts_iff`).
-/

namespace AstralOS.Fs

open List

def Extent.covers (e : Extent) (b : Nat) : Bool :=
  e.physicalBlock.toNat ≤ b && b < e.physicalBlock.toNat + e.count.toNat

def coverCount (d : Disk) (b : Nat) : Nat :=
  ((List.range 256).map fun k =>
    if (inodeAt d k).inUse = 0 then 0 else (inodeAt d k).extents.toList.countP (·.covers b)).sum

/-- A data block is reported allocated exactly if one extent of one inode in use covers it, and the free counter is
the number of blocks that are reported free. -/
def Exact (s : FsState) : Prop :=
  ∃ pfs, s.psychicFs = some pfs ∧
    (∀ b, 128 ≤ b → b < 8192 → (pfs.isBlockAllocated b = true ↔ coverCount s.disk b = 1)) ∧
    pfs.superblock.freeBlocks.toNat = pfs.countFreeBlocks

def Remounts (s : FsState) : Prop :=
  (fsMount (fsUnmount s)).2.psychicFs.map PsychicFs.counts = s.psychicFs.map PsychicFs.counts

variable {s : FsState} {pfs : PsychicFs} {name : String} {k : Nat} {data : List Byte}

/-! ### Counting covers -/

theorem count_range' (st c b : Nat) :
    (List.range' st c).count b = if decide (st ≤ b) && decide (b < st + c) then 1 else 0 := by
  grind

theorem countP_covers (inode : Inode) (b : Nat) :
    inode.extents.toList.countP (·.covers b) = inode.blocks.count b := by
  unfold Inode.blocks
  induction inode.extents.toList with
  | nil => rfl
  | cons e es ih =>
    rw [countP_cons, flatMap_cons, count_append, ih, count_range', Nat.add_comm]
    rfl

theorem sum_map_range_single {f : Nat → Nat} {n k : Nat} (hk : k < n) (h : ∀ j, j < n → j ≠ k → f j = 0) :
    ((List.range n).map f).sum = f k := by
  induction n with
  | zero => omega
  | succ n ih =>
    rw [range_succ, map_append, sum_append, map_singleton, sum_singleton]
    rcases Nat.lt_or_ge k n with hlt | hge
    · rw [ih hlt fun j hj => h j (by omega), h n (by omega) (by omega), Nat.add_zero]
    · obtain rfl : k = n := by omega
      have hz : ((range k).map f).sum = 0 := by
        grind [sum_eq_zero]
      rw [hz, Nat.zero_add]

theorem coverCount_single {d : Disk} (hk : k < 256) (hu : (inodeAt d k).inUse ≠ 0)
    (h : ∀ j, j < 256 → j ≠ k → (inodeAt d j).inUse ≠ 0 → (inodeAt d j).blocks = []) (b : Nat) :
    coverCount d b = (inodeAt d k).blocks.count b := by
  unfold coverCount
  rw [sum_map_range_single hk, if_neg hu, countP_covers]
  intro j hj hjk
  by_cases huj : (inodeAt d j).inUse = 0
  · rw [if_pos huj]
  · rw [if_neg huj, countP_covers, h j hj hjk huj, count_nil]

theorem coverCount_zero {d : Disk} (h : ∀ j, j < 256 → (inodeAt d j).inUse ≠ 0 → (inodeAt d j).blocks = [])
    (b : Nat) : coverCount d b = 0 := by
  unfold coverCount
  rw [sum_eq_zero]
  intro x hx
  obtain ⟨j, hj, rfl⟩ := mem_map.1 hx
  have hj' := mem_range.1 hj
  by_cases huj : (inodeAt d j).inUse = 0
  · rw [if_pos huj]
  · rw [if_neg huj, countP_covers, h j hj' huj, count_nil]

/-! ### Accounting -/

theorem Clean.exact (h : Clean s pfs) : Exact s := by
  refine ⟨pfs, h.ready.fs_eq, fun b h1 h2 => ?_, ?_⟩
  · have hfree := ((Fs.free_iff pfs b).1 ((h.free_iff b).2 ⟨h1, h2⟩)).2.2
    rw [hfree, coverCount_zero h.noBlocks]
    simp
  · simp [PsychicFs.countFreeBlocks, length_range, h.free, h.bitmap]

theorem test_claim_clean (h : Clean s pfs) {n : Nat} (hn : 0 < n) :
    (pfs.counts.claim 128 n).bitmap.test 0 = false ∧ (pfs.counts.claim 128 n).bitmap.test 128 = true := by
  rw [Counts.test_claim, Counts.test_claim]
  refine ⟨?_, ?_⟩
  · rw [show pfs.counts.bitmap.test 0 = false from h.bitmap 0]
    simp
  · grind

theorem test_claimN_clean (n : Nat) (c : Counts) : (Outcome.claimN 128 (n + 1) c).bitmap.test 128 = true := by
  rw [Outcome.claimN, Counts.test_claim]
  simp

theorem Clean.not_exact (h : Clean s pfs) {c : Call} (hc : c.Allocates s) : ¬ Exact (Fs.exec s c) := by
  cases c with
  | format | mount | unmount | sync | create _ | delete _ => exact hc.elim
  | write name data =>
    obtain ⟨s0, k, hcl, hn, -, heq⟩ := h.target hc
    have hpos := blocksNeeded_pos hc.1
    rintro ⟨pfs', hfs, hiff, -⟩
    simp only [Fs.exec, heq] at hfs hiff
    rcases hcl.writeFile_cases hn hc.1 rfl with ⟨-, -, hw⟩ | ⟨-, hfail⟩
    · -- block 128 belongs to the file but is reported free
      obtain ⟨pfs1, hr1, hcou, -⟩ := hw.ready
      obtain rfl : pfs' = pfs1 := Option.some.inj (hfs.symm.trans hr1.fs_eq)
      have hbit := (test_claim_clean hcl hpos).1
      rw [← hcou] at hbit
      have hfree := ((Fs.free_iff pfs' 128).1 ⟨by omega, by omega, hbit⟩).2.2
      have huse := ((hw.named k name).2 hn).2.1
      have hcov : coverCount (writeFile k (inodeAt s0.disk k) data s0).2.disk 128 = 1 := by
        rw [coverCount_single hn.1 huse, hw.blocks, count_range', if_pos (by simp; omega)]
        intro j hj hjk hu
        rw [hw.other j hj hjk] at hu ⊢
        exact hcl.noBlocks j hj hu
      grind
    · -- block 256 is reported allocated but belongs to no file
      rw [hfail] at hfs hiff
      obtain rfl : _ = pfs' := Option.some.inj hfs
      have hcov := coverCount_zero (d := s0.disk) hcl.noBlocks 256
      have ha : (pfs.setCounts (Outcome.claimN 128 5 pfs.counts)).isBlockAllocated 256 = true := by
        by_contra hne
        have := (Fs.free_iff _ 256).2 ⟨by omega, by omega, by simpa using hne⟩
        rw [PsychicFs.counts_setCounts] at this
        have hbit := test_claimN_clean 4 pfs.counts
        rw [this.2.2] at hbit
        cases hbit
      have := (hiff 256 (by omega) (by omega)).1 ha
      rw [show coverCount (s0.withCounts pfs (Outcome.claimN 128 5 pfs.counts)).disk 256 = 0 from hcov] at this
      omega

/-- The accounting is exact throughout a run from a fresh file system exactly if no write in it allocates. -/
theorem accounting_exact_iff {s : FsState} (hd : s.disk.Sound) {cs : List Call} (hon : ∀ c ∈ cs, c.Online) :
    Always exec Exact (formatMount s) cs ↔ Meets exec (fun s c => ¬ c.Allocates s) (formatMount s) cs := by
  refine always_iff_meets (I := fun s => ∃ pfs, Clean s pfs) (R := Call.Online) ?_ ?_ ?_ (clean_formatMount hd).1 hon
  · rintro s ⟨pfs, h⟩
    exact h.exact
  · rintro s c hc ⟨pfs, h⟩ hq
    exact h.exec hc hq
  · rintro s c - ⟨pfs, h⟩ hq
    exact h.not_exact (not_not.1 hq)

theorem accounting_exact_iff_create :
    blankState.disk.Sound ∧ (Always exec Exact (formatMount blankState) [.create "a"] ↔
      Meets exec (fun s c => ¬ c.Allocates s) (formatMount blankState) [.create "a"]) :=
  ⟨sound_blankState, accounting_exact_iff sound_blankState fun c hc => by
    rw [mem_singleton.1 hc]
    trivial⟩

theorem allocates_fresh (hd : s.disk.Sound) (hlen : (strBytes name).length < 48)
    (hnul : (0 : Byte) ∉ strBytes name) (hdata : data ≠ []) : (Call.write name data).Allocates (formatMount s) := by
  have hem := (clean_formatMount hd).2
  refine ⟨hdata, Or.inr ⟨⟨hlen, fun k hk => hk.2.1 (hem k hk.1), 0, by omega, hem 0 (by omega)⟩, hnul⟩⟩

/-- After one byte has been written to a fresh file system its block is reported free. -/
theorem accounting_broken_by_write : ¬ Exact (run exec (formatMount blankState) [.write "a" [1]]) := by
  obtain ⟨⟨pfs, h⟩, -⟩ := clean_formatMount sound_blankState
  rw [run_cons, run_nil]
  exact h.not_exact (allocates_fresh sound_blankState (by decide) (by decide) (by decide))

/-! ### Remounting -/

theorem remount_counts (h : Ready s pfs) :
    (fsMount (fsUnmount s)).2.psychicFs.map PsychicFs.counts =
      some ⟨if pfs.bitmapDirty then pfs.blockBitmap else diskBitmap s.disk,
        if pfs.superblockDirty then pfs.superblock.freeBlocks else (diskSuperblock s.disk).freeBlocks⟩ := by
  have hdisk : (fsUnmount s).disk = s.disk.synced pfs := by
    unfold fsUnmount
    rw [fsSync_eq h]
  have hf : Formatted (fsUnmount s).disk := by
    rw [hdisk]
    exact h.synced.toFormatted
  rw [fsMount_eq hf, hdisk]
  grind [Option.map_some, PsychicFs.counts, mountedFs, diskBitmap_synced, diskSuperblock_synced]

theorem Clean.remounts (h : Clean s pfs) : Remounts s := by
  unfold Remounts
  rw [remount_counts h.ready, h.ready.fs_eq, h.flag, h.free, h.freeOnDisk, ite_self]
  have hb : diskBitmap s.disk = pfs.blockBitmap :=
    Bitmap.ext_test (by omega) fun i _ => by rw [h.onDisk, h.bitmap]
  simp only [Bool.false_eq_true, ↓reduceIte, hb, Option.map_some, PsychicFs.counts, h.free]

theorem not_remounts (h : Ready s pfs) (hflag : pfs.bitmapDirty = false)
    (hbit : pfs.counts.bitmap.test 128 = true) (hdisk : (diskBitmap s.disk).test 128 = false) : ¬ Remounts s := by
  intro hre
  unfold Remounts at hre
  rw [remount_counts h, h.fs_eq, hflag] at hre
  grind

theorem Clean.not_remounts (h : Clean s pfs) {c : Call} (hc : c.Allocates s) : ¬ Remounts (Fs.exec s c) := by
  cases c with
  | format | mount | unmount | sync | create _ | delete _ => exact hc.elim
  | write name data =>
    obtain ⟨s0, k, hcl, hn, -, heq⟩ := h.target hc
    have hpos := blocksNeeded_pos hc.1
    simp only [Fs.exec, heq]
    rcases hcl.writeFile_cases hn hc.1 rfl with ⟨-, -, hw⟩ | ⟨-, hfail⟩
    · obtain ⟨pfs1, hr1, hco, hflag⟩ := hw.ready
      refine Fs.not_remounts hr1 hflag ?_ ?_
      · rw [hco]
        exact (test_claim_clean hcl hpos).2
      · rw [hw.onDisk pfs hcl.ready.fs_eq (hcl.noBlocks k hn.1 hn.2.1) hcl.flag]
        exact hcl.onDisk 128
    · rw [hfail]
      exact Fs.not_remounts (hcl.ready.withCounts _) hcl.flag (test_claimN_clean 4 pfs.counts) (hcl.onDisk 128)

/-- Remounting keeps the bitmap and the counter throughout a run exactly if no write in it allocates. -/
theorem remount_keeps_counts_iff {s : FsState} (hd : s.disk.Sound) {cs : List Call} (hon : ∀ c ∈ cs, c.Online) :
    Always exec Remounts (formatMount s) cs ↔ Meets exec (fun s c => ¬ c.Allocates s) (formatMount s) cs := by
  refine always_iff_meets (I := fun s => ∃ pfs, Clean s pfs) (R := Call.Online) ?_ ?_ ?_ (clean_formatMount hd).1 hon
  · rintro s ⟨pfs, h⟩
    exact h.remounts
  · rintro s c hc ⟨pfs, h⟩ hq
    exact h.exec hc hq
  · rintro s c - ⟨pfs, h⟩ hq
    exact h.not_remounts (not_not.1 hq)

theorem remount_keeps_counts_iff_create :
    blankState.disk.Sound ∧ (Always exec Remounts (formatMount blankState) [.create "a"] ↔
      Meets exec (fun s c => ¬ c.Allocates s) (formatMount blankState) [.create "a"]) :=
  ⟨sound_blankState, remount_keeps_counts_iff sound_blankState fun c hc => by
    rw [mem_singleton.1 hc]
    trivial⟩

/-- After one byte has been written to a fresh file system, remounting loses the mark. -/
theorem remount_loses_write : ¬ Remounts (run exec (formatMount blankState) [.write "a" [1]]) := by
  obtain ⟨⟨pfs, h⟩, -⟩ := clean_formatMount sound_blankState
  rw [run_cons, run_nil]
  exact h.not_remounts (allocates_fresh sound_blankState (by decide) (by decide) (by decide))

end AstralOS.Fs
