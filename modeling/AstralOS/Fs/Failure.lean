import Mathlib.Data.Finset.Interval
import Mathlib.Order.Interval.Finset.Nat
import AstralOS.Fs.Clean

/-!
# Failed writes

`fs_write` frees the old blocks of the file before it allocates new ones and returns early if the allocation fails.
The inode and the data stay as they were, but the bitmap and the counter do not.  A failed write keeps them only if
no block was free to begin with, or in the degenerate case in which the counter is zero and the blocks marked are
those released (`fs_write_failure_iff`).  The counter is bounded by the clear bits in every reachable state
(`budget_run`), so that it never wraps around.
-/

namespace AstralOS.Fs

open Finset

/-! ### Counting marks -/

def marks (m : Bitmap 8 1024) : Nat := ((Finset.range 8192).filter fun i => m.test i = true).card

theorem marks_le (m : Bitmap 8 1024) : marks m ≤ 8192 := by
  have := card_filter_le (range 8192) fun i => m.test i = true
  rwa [card_range] at this

variable {m : Bitmap 8 1024}

theorem marks_clear {j : Nat} (hj : m.test j = true) : marks (m.clear j) + 1 = marks m := by
  have hlt : j < 8192 := by
    by_contra hge
    rw [Bitmap.test_of_length_le (by omega) _ (by omega)] at hj
    cases hj
  have hset : (range 8192).filter (fun i => (m.clear j).test i = true) =
      ((range 8192).filter fun i => m.test i = true).erase j := by
    ext i
    simp only [mem_filter, mem_erase, mem_range, Bitmap.test_clear (show 0 < 8 by omega),
      Bool.and_eq_true, decide_eq_true_eq]
    constructor
    · grind
    · grind
  grind [marks]

theorem marks_le_add {m' : Bitmap 8 1024} {A : Finset Nat}
    (h : ∀ i, m'.test i = true → m.test i = true ∨ i ∈ A) : marks m' ≤ marks m + A.card := by
  refine le_trans (card_le_card ?_) (card_union_le _ _)
  intro i hi
  rw [mem_filter] at hi
  rw [mem_union, mem_filter]
  rcases h i hi.2 with h' | h'
  · exact Or.inl ⟨hi.1, h'⟩
  · exact Or.inr h'

theorem marks_zero (h : ∀ i, m.test i = false) : marks m = 0 := by
  grind [marks, card_eq_zero, filter_eq_empty_iff]

namespace Counts

def Within (c : Counts) : Prop := c.free.toNat + marks c.bitmap ≤ 8192

theorem toNat_free_claim (c : Counts) (start : Nat) {count : Nat} (hc : count < 2 ^ 32) :
    (c.claim start count).free.toNat = c.free.toNat - count := by
  have hco : (BitVec.ofNat 32 count).toNat = count := by
    rw [BitVec.toNat_ofNat]
    omega
  unfold claim
  split
  · grind [BitVec.lt_def]
  · rename_i hle
    rw [BitVec.lt_def, hco] at hle
    rw [BitVec.toNat_sub, hco]
    omega

theorem marks_claim (c : Counts) (start count : Nat) :
    marks (c.claim start count).bitmap ≤ marks c.bitmap + count := by
  have h : marks (c.claim start count).bitmap ≤ marks c.bitmap + (Finset.Ico start (start + count)).card := by
    apply marks_le_add
    intro i hi
    rw [test_claim, Bool.or_eq_true, decide_eq_true_eq] at hi
    rcases hi with hi | hi
    · exact Or.inl hi
    · exact Or.inr (mem_Ico.2 ⟨hi.1, hi.2.1⟩)
  rwa [Nat.card_Ico, Nat.add_sub_cancel_left] at h

variable {c : Counts}

theorem Within.claim (h : c.Within) (start : Nat) {count : Nat} (hc : count < 2 ^ 32) :
    (c.claim start count).Within := by
  unfold Within at h ⊢
  rw [toNat_free_claim c start hc]
  have h1 := marks_claim c start count
  have h2 := marks_le (c.claim start count).bitmap
  omega

theorem Within.release (h : c.Within) (b : Nat) :
    (c.release b).free.toNat + marks (c.release b).bitmap = c.free.toNat + marks c.bitmap := by
  unfold Within at h
  unfold Counts.release
  split
  · rename_i hb
    have hm := marks_clear hb.2
    simp [BitVec.toNat_add]
    omega
  · rfl

theorem Within.foldl_release (h : c.Within) (blocks : List Nat) :
    (blocks.foldl Counts.release c).free.toNat + marks (blocks.foldl Counts.release c).bitmap =
      c.free.toNat + marks c.bitmap := by
  induction blocks generalizing c with
  | nil => rfl
  | cons b blocks ih =>
    have hb := h.release b
    rw [List.foldl_cons, ih (by unfold Within at h ⊢; omega), hb]

theorem toNat_free_claimN (c : Counts) (b j : Nat) : (Outcome.claimN b j c).free.toNat = c.free.toNat - j := by
  induction j with
  | zero => rfl
  | succ j ih =>
    rw [Outcome.claimN, toNat_free_claim _ _ (by omega), ih]
    omega

theorem test_claimN (c : Counts) (b : Nat) {j : Nat} (hj : 1 ≤ j) (i : Nat) :
    (Outcome.claimN b j c).bitmap.test i = (c.bitmap.test i || decide (i = b ∧ i < 8192)) := by
  induction j, hj using Nat.le_induction with
  | base =>
    grind [Outcome.claimN, test_claim]
  | succ j hj ih =>
    rw [Outcome.claimN, test_claim, ih, Bool.or_assoc, ← Bool.decide_or]
    congr 2
    apply propext
    omega

theorem Within.claimN (h : c.Within) (b j : Nat) : (Outcome.claimN b j c).Within := by
  induction j with
  | zero => exact h
  | succ j ih => exact ih.claim b (by omega)

end Counts

variable {c : Counts} {n : Nat}

theorem Outcome.Valid.within {o : Outcome} (ho : o.Valid c n) (hn : 0 < n) (h : c.Within) :
    (o.counts c n).Within ∧ (o.counts c n).free.toNat ≤ c.free.toNat := by
  have hc : ∀ (j b r m : Nat), m < 2 ^ 32 → ((claimN b j c).claim r m).Within ∧
      ((claimN b j c).claim r m).free.toNat ≤ c.free.toNat := by
    intro j b r m hm
    refine ⟨(h.claimN b j).claim r hm, ?_⟩
    rw [Counts.toNat_free_claim _ _ hm, Counts.toNat_free_claimN]
    omega
  cases o with
  | full => exact ⟨h, Nat.le_refl _⟩
  | run r =>
    have := Counts.IsRun.bounds ho.1 hn
    exact hc 0 r r n (by omega)
  | split b j r =>
    have := Counts.IsRun.bounds ho.2.2.2.2.1 (by have := ho.2.2.1; omega)
    exact hc j b r (n - j) (by omega)
  | noSlot b r =>
    cases r with
    | none => exact hc 4 b b 1 (by omega)
    | some r =>
      have := Counts.IsRun.bounds ho.2.2.1 (by have := ho.1; omega)
      exact hc 4 b r (n - 4) (by omega)

/-! ### The counter along runs -/

variable {s : FsState} {pfs : PsychicFs} {inode : Inode} {name : String} {k : Nat} {data : List Byte}

/-- Between calls the bitmap is never flagged, and the counter stays within the bitmap in memory and on disk, also
where only one of the two has reached the disk. -/
structure Budget (s : FsState) : Prop where
  disk : (diskSuperblock s.disk).freeBlocks.toNat + marks (diskBitmap s.disk) ≤ 8192
  flag : ∀ pfs, s.psychicFs = some pfs → pfs.bitmapDirty = false
  mem : ∀ pfs, s.psychicFs = some pfs → pfs.counts.Within
  cross : ∀ pfs, s.psychicFs = some pfs → pfs.superblock.freeBlocks.toNat + marks (diskBitmap s.disk) ≤ 8192

theorem budget_of_mounted (hfs : s.psychicFs = some pfs) (hflag : pfs.bitmapDirty = false) (hmem : pfs.counts.Within)
    (hdisk : (diskSuperblock s.disk).freeBlocks.toNat + marks (diskBitmap s.disk) ≤ 8192)
    (hc : pfs.superblock.freeBlocks.toNat + marks (diskBitmap s.disk) ≤ 8192) : Budget s := by
  have hu : ∀ pfs', s.psychicFs = some pfs' → pfs = pfs' :=
    fun _ hpfs' => Option.some.inj (hfs.symm.trans hpfs')
  exact ⟨hdisk, fun pfs' h => hu pfs' h ▸ hflag, fun pfs' h => hu pfs' h ▸ hmem,
    fun pfs' h => hu pfs' h ▸ hc⟩

section

variable (h : Budget s)
include h

theorem Budget.congr {d : Disk} (h0 : d.sectors 0 = s.disk.sectors 0)
    (h65 : d.sectors 65 = s.disk.sectors 65) (h66 : d.sectors 66 = s.disk.sectors 66) (clock : Nat → BitVec 64) :
    Budget { s with disk := d, clock := clock } := by
  have hsb : diskSuperblock d = diskSuperblock s.disk := by
    unfold diskSuperblock
    rw [h0]
  have hbm : diskBitmap d = diskBitmap s.disk := by
    unfold diskBitmap
    rw [h65, h66]
  exact ⟨by rw [hsb, hbm]; exact h.disk, h.flag, h.mem, by rw [hbm]; exact h.cross⟩

theorem Budget.setInode (hk : k < 256) (inode : Inode) (clock : Nat → BitVec 64) :
    Budget { s with disk := s.disk.setInode k inode, clock := clock } :=
  h.congr (Disk.sectors_setInode hk (by omega) _) (Disk.sectors_setInode hk (by omega) _)
    (Disk.sectors_setInode hk (by omega) _) clock

theorem Budget.fsSync (hr : Ready s pfs) : Budget (fsSync s) := by
  have hflag := h.flag pfs hr.fs_eq
  have hc := h.cross pfs hr.fs_eq
  have hbm : diskBitmap (s.disk.synced pfs) = diskBitmap s.disk := by
    rw [diskBitmap_synced, hflag]
    rfl
  have hfree : pfs.synced.superblock.freeBlocks = pfs.superblock.freeBlocks :=
    congrArg Counts.free pfs.counts_synced
  rw [fsSync_eq hr]
  refine budget_of_mounted rfl rfl ?_ ?_ ?_
  · rw [PsychicFs.counts_synced]
    exact h.mem pfs hr.fs_eq
  · simp only [hbm, diskSuperblock_synced]
    split
    · exact hc
    · exact h.disk
  · simp only [hbm, hfree]
    exact hc

theorem Budget.freeBlock (hr : Ready s pfs) (b : Nat) : Budget (freeBlock b s) := by
  rcases freeBlock_cases hr b with ⟨-, heq⟩ | ⟨-, -, heq⟩
  · rw [heq]
    exact h
  · -- the block is freed and everything is written back, so memory and disk agree
    have hmem := h.mem pfs hr.fs_eq
    have hw : (pfs.counts.release b).Within := by
      have := hmem.release b
      unfold Counts.Within at hmem ⊢
      omega
    rw [heq]
    generalize hp : (pfs.setCounts (pfs.counts.release b)).markDirty = p
    have hbd : p.bitmapDirty = true := by rw [← hp]; rfl
    have hsd : p.superblockDirty = true := by rw [← hp]; rfl
    have hc : p.counts = pfs.counts.release b := by rw [← hp]; rfl
    have hdisk : (diskSuperblock (s.disk.synced p)).freeBlocks.toNat + marks (diskBitmap (s.disk.synced p)) ≤ 8192 := by
      rw [diskSuperblock_synced, diskBitmap_synced, hbd, hsd]
      rw [← hc] at hw
      exact hw
    have hsync : p.synced.counts.Within := by
      rw [PsychicFs.counts_synced, hc]
      exact hw
    refine budget_of_mounted rfl rfl hsync hdisk ?_
    simp only [diskBitmap_synced, hbd, ↓reduceIte]
    exact hsync

theorem Budget.freeExtents (hinv : Inv s) (hok : FileOk inode) : Budget (freeExtents inode s) := by
  cases hfs : s.psychicFs with
  | none => rw [freeExtents_unmounted hfs]; exact h
  | some pfs =>
    have hr := hinv.ready pfs hfs
    obtain ⟨runs, hruns⟩ := hok.runs
    rw [freeExtents_eq hruns]
    clear hfs hruns
    induction blocksOf runs generalizing s pfs with
    | nil => exact h
    | cons b bs ih =>
      obtain ⟨pfs', hr', -⟩ := (freeBlock_spec hr b).ready
      have hinv' : Inv (Fs.freeBlock b s) := hr'.inv (hinv.files.sameFiles (freeBlock_spec hr b).files)
      exact ih (h.freeBlock hr b) hinv' pfs' hr'

theorem Budget.withCounts (hr : Ready s pfs) (hc : c.Within)
    (hle : c.free.toNat ≤ pfs.superblock.freeBlocks.toNat) : Budget (s.withCounts pfs c) := by
  have hcr := h.cross pfs hr.fs_eq
  exact budget_of_mounted rfl (h.flag pfs hr.fs_eq) hc h.disk (le_trans (Nat.add_le_add_right hle _) hcr)

theorem Budget.writeFile (hinv : Inv s) (hk : k < 256) (hok : FileOk inode) (data : List Byte) :
    Budget (writeFile k inode data s).2 := by
  rcases eq_or_ne data [] with rfl | hdata
  · rw [writeFile_nil hinv.sound hk]
    exact h.setInode hk _ _
  cases hfs : s.psychicFs with
  | none => rw [writeFile_unmounted hfs hdata]; exact h
  | some pfs =>
    have hpos := blocksNeeded_pos hdata
    obtain ⟨s1, pfs1, o, hrel, hv, hc⟩ := writeFile_cases (hinv.ready pfs hfs) hk hok hpos
    have h1 : Budget s1 := by
      rw [hrel.state]
      exact h.freeExtents hinv hok
    obtain ⟨hw, hle⟩ := hv.within hpos (h1.mem pfs1 hrel.ready.fs_eq)
    have h2 := h1.withCounts hrel.ready hw hle
    have hr2 := hrel.ready.withCounts (o.counts pfs1.counts ((data.length + 512 - 1) / 512))
    rcases hc data rfl with ⟨-, heq⟩ | ⟨inode', -, hok', -, -, -, heq⟩
    · rw [heq]
      exact h2
    · rw [heq]
      have hlow : ∀ {n : Nat}, n = 0 ∨ 65 ≤ n → n < 128 → ((storeBlocks data inode'.blocks
          (List.range inode'.blocks.length) s1.disk).setInode k inode').sectors n = s1.disk.sectors n := by
        intro n hn hlt
        rw [Disk.sectors_setInode hk hn, sectors_storeBlocks_low hok' s1.disk hlt]
      exact (h2.congr (hlow (by omega) (by omega)) (hlow (by omega) (by omega)) (hlow (by omega) (by omega)) _).fsSync
        (ready_stored hr2 hk hok')

theorem Budget.created (hk : k < 256) (name : String) : Budget (created k name s) :=
  h.setInode hk _ _

theorem Budget.fsCreate (hd : s.disk.Sound) (name : String) : Budget (fsCreate name s).2 := by
  rcases fsCreate_cases hd name with ⟨-, heq⟩ | ⟨-, k, hk, -, heq⟩
  · rw [heq]; exact h
  · rw [heq]; exact h.created hk name

theorem Budget.syncAny (hinv : Inv s) : Budget (Fs.fsSync s) := by
  cases hfs : s.psychicFs with
  | none =>
    unfold Fs.fsSync
    rw [hfs]
    exact h
  | some pfs => exact h.fsSync (hinv.ready pfs hfs)

theorem Budget.exec (hinv : Inv s) (c : Call) : Budget (exec s c) := by
  cases c with
  | format =>
    obtain ⟨d, heq, -, hsb, -, h65, h66⟩ := fsFormat_spec hinv.sound
    have hzero : marks (diskBitmap d) = 0 := by
      apply marks_zero
      intro i
      rw [diskBitmap_empty h65 h66]
      exact Bitmap.test_replicate_zero (by omega) i
    simp only [Fs.exec, heq]
    refine ⟨?_, h.flag, h.mem, fun pfs hpfs => ?_⟩
    · rw [hsb, hzero]
      decide
    · have hmem : pfs.superblock.freeBlocks.toNat + marks pfs.blockBitmap ≤ 8192 := h.mem pfs hpfs
      simp only [hzero]
      omega
  | mount =>
    simp only [Fs.exec, fsMount_eq hinv.toFormatted]
    exact budget_of_mounted rfl rfl h.disk h.disk h.disk
  | unmount =>
    have hs := h.syncAny hinv
    exact ⟨hs.disk, fun _ hp => (Option.some_ne_none _ hp.symm).elim, fun _ hp => (Option.some_ne_none _ hp.symm).elim,
      fun _ hp => (Option.some_ne_none _ hp.symm).elim⟩
  | sync => exact h.syncAny hinv
  | create name => exact h.fsCreate hinv.sound name
  | write name data =>
    simp only [Fs.exec]
    rcases fsWrite_cases hinv.sound name with ⟨k, hn, -, heq⟩ | ⟨-, -, heq⟩ | ⟨-, -, k, hk, -, heq⟩
    · rw [heq]; exact h.writeFile hinv hn.1 (hinv.fileOk hn) data
    · rw [heq]; exact h.fsCreate hinv.sound name
    · rw [heq]; exact (h.created hk name).writeFile (hinv.created hk name) hk (fileOk_newFile _ _ _) data
  | delete name =>
    simp only [Fs.exec]
    rcases fsDelete_cases hinv name with ⟨-, heq⟩ | ⟨k, hn, heq⟩
    · rw [heq]; exact h
    · rw [heq]; exact (h.freeExtents hinv (hinv.fileOk hn)).setInode hn.1 _ _

end

theorem Clean.budget (h : Clean s pfs) : Budget s := by
  have hdisk := marks_zero h.onDisk
  have hmem := marks_zero h.bitmap
  refine budget_of_mounted h.ready.fs_eq h.flag ?_ ?_ ?_
  · simp [Counts.Within, PsychicFs.counts, hmem, h.free]
  · rw [h.freeOnDisk, hdisk]
    decide
  · rw [h.free, hdisk]
    decide

theorem budget_run (hd : s.disk.Sound) (cs : List Call) : Budget (run Fs.exec (formatMount s) cs) := by
  obtain ⟨⟨pfs, hc⟩, -⟩ := clean_formatMount hd
  exact (run_invariant (P := fun s => Inv s ∧ Budget s) (Q := fun _ => True)
    (fun _ c h _ => ⟨h.1.exec c, h.2.exec h.1 c⟩) ⟨hc.inv, hc.budget⟩ fun _ _ => trivial).2

/-! ### Failed writes -/

/-- If the write fails, then bitmap and counter, the inode of the file and the contents of all files are kept. -/
def KeptOnFailure (s : FsState) (name : String) (data : List Byte) : Prop :=
  (fsWrite name data s).1 = false →
    (fsWrite name data s).2.psychicFs.map PsychicFs.counts = s.psychicFs.map PsychicFs.counts ∧
    findInodeByName name (fsWrite name data s).2.disk = findInodeByName name s.disk ∧
    ∀ other, fsRead other (fsWrite name data s).2 = fsRead other s

/-- The bits that a failing allocation of `n` blocks sets: that of the lowest free block `b`, and those of the run
of `n - 4` blocks for which no slot is left. -/
def Retaken (F : Nat → Prop) (n b i : Nat) : Prop :=
  i = b ∨ ∃ r, IsFirstRun (fun x => F x ∧ x ≠ b + 128) (n - 4) r ∧ r ≤ i ∧ i < r + (n - 4)

/-- The counter is zero, the bits set by the failing allocation were set before, and so were those released with the
old blocks of the file only if the allocation sets them again. -/
def Coincides (s : FsState) (name : String) (n b : Nat) : Prop :=
  ∃ pfs k inode, s.psychicFs = some pfs ∧ findInodeByName name s.disk = some (k, inode) ∧
    pfs.superblock.freeBlocks = 0 ∧
    ∀ i, i < 8192 → (Retaken (FreeFor s name) n b i → pfs.isBlockAllocated (i + 128) = true) ∧
      (pfs.isBlockAllocated (i + 128) = true → i + 128 ∈ inode.blocks → Retaken (FreeFor s name) n b i)

/-- A write of `n` blocks succeeds or fails without a trace: nothing is mounted, there is no data, no block is free,
the blocks are found in one run or in few enough steps, or the marks happen to coincide. -/
def FailureHarmless (s : FsState) (name : String) (n : Nat) : Prop :=
  s.psychicFs = none ∨ n = 0 ∨ (∀ b, ¬ FreeFor s name b) ∨ (∃ r, IsRun (FreeFor s name) n r) ∨
    ∃ b, IsFirstRun (FreeFor s name) 1 b ∧
      (n ≤ 4 ∨ (∃ r, IsRun (fun x => FreeFor s name x ∧ x ≠ b + 128) (n - 3) r) ∨ Coincides s name n b)

theorem fsRead_sameFiles {s' : FsState} (h : Inv s) (hs : SameFiles s.disk s'.disk) (other : String) :
    fsRead other s' = fsRead other s := by
  have hd' := hs.sound h.sound
  have hfind := findInodeByName_congr h.sound hd' (fun _ hk => hs.inodeAt_eq hk) other
  unfold fsRead
  rw [hfind]
  rcases findInodeByName_cases h.sound other with ⟨k, hn, heq⟩ | ⟨-, heq⟩
  · rw [heq]
    simp only
    have hok := h.fileOk hn
    obtain ⟨runs, hr⟩ := hok.runs
    have hlt : ∀ b ∈ (inodeAt s.disk k).blocks, b < 8192 := fun b hb => (hok.bounds b hb).2
    rw [readBlocks_eq h.sound hr hlt hok.length, readBlocks_eq hd' hr hlt hok.length]
    have hlen := hok.length
    rw [fileContent_congr (by omega) fun b hb => hs.sectors b ?_ ?_ ?_]
    all_goals
      have := (hok.bounds _ ‹_›).1
      omega
  · rw [heq]

section NoSlot

variable {c : Counts} {blocks : List Nat} {n b : Nat} {r : Option Nat}

def NoSlotBits (n b : Nat) (r : Option Nat) (i : Nat) : Prop :=
  i = b ∨ ∃ r', r = some r' ∧ r' ≤ i ∧ i < r' + (n - 4)

theorem test_noSlot (c : Counts) (n b : Nat) (r : Option Nat) {i : Nat} (hi : i < 8192) :
    ((Outcome.noSlot b r).counts c n).bitmap.test i = true ↔ c.bitmap.test i = true ∨ NoSlotBits n b r i := by
  unfold NoSlotBits
  cases r with
  | none =>
    rw [Outcome.counts, Counts.test_claimN c b (by omega)]
    simp [hi]
  | some r =>
    rw [Outcome.counts, Counts.test_claim, Counts.test_claimN c b (by omega)]
    simp [hi, or_assoc]

theorem noSlot_taken (ho : (Outcome.noSlot b r).Valid c n) :
    ∃ t, 3 ≤ t ∧ ((Outcome.noSlot b r).counts c n).free.toNat = c.free.toNat - t ∧
      marks ((Outcome.noSlot b r).counts c n).bitmap + 3 ≤ marks c.bitmap + t := by
  have h4 : 4 < n := ho.1
  cases r with
  | none =>
    have hcard : marks ((Outcome.noSlot b none).counts c n).bitmap ≤ marks c.bitmap + ({b} : Finset Nat).card := by
      apply marks_le_add
      intro i hi
      rw [Outcome.counts, Counts.test_claimN c b (by omega), Bool.or_eq_true, decide_eq_true_eq] at hi
      exact hi.imp_right fun h => mem_singleton.2 h.1
    rw [card_singleton] at hcard
    exact ⟨5, by omega, Counts.toNat_free_claimN c b 5, by omega⟩
  | some r =>
    have hb := Counts.IsRun.bounds ho.2.2.1 (by omega)
    have hcard : marks ((Outcome.noSlot b (some r)).counts c n).bitmap ≤
        marks c.bitmap + (insert b (Finset.Ico r (r + (n - 4)))).card := by
      apply marks_le_add
      intro i hi
      rw [Outcome.counts, Counts.test_claim, Counts.test_claimN c b (by omega), Bool.or_eq_true, Bool.or_eq_true,
        decide_eq_true_eq, decide_eq_true_eq] at hi
      rw [mem_insert, mem_Ico]
      rcases hi with (hi | hi) | hi
      · exact Or.inl hi
      · exact Or.inr (Or.inl hi.1)
      · exact Or.inr (Or.inr ⟨hi.1, hi.2.1⟩)
    have hins := card_insert_le b (Finset.Ico r (r + (n - 4)))
    rw [Nat.card_Ico] at hins
    refine ⟨n, by omega, ?_, by omega⟩
    rw [Outcome.counts, Counts.toNat_free_claim _ _ (by omega), Counts.toNat_free_claimN]
    omega

theorem noSlot_counts_eq_iff (hw : c.Within) (hbl : ∀ x ∈ blocks, 128 ≤ x)
    (ho : (Outcome.noSlot b r).Valid (blocks.foldl Counts.release c) n) :
    (Outcome.noSlot b r).counts (blocks.foldl Counts.release c) n = c ↔
      c.free = 0 ∧ ∀ i, i < 8192 → (NoSlotBits n b r i → c.bitmap.test i = true) ∧
        (c.bitmap.test i = true → i + 128 ∈ blocks → NoSlotBits n b r i) := by
  have hsum := hw.foldl_release blocks
  obtain ⟨t, ht, hfree, hm⟩ := noSlot_taken ho
  have htest : ∀ i, i < 8192 → (((Outcome.noSlot b r).counts (blocks.foldl Counts.release c) n).bitmap.test i = true ↔
      (c.bitmap.test i = true ∧ i + 128 ∉ blocks) ∨ NoSlotBits n b r i) := by
    intro i hi
    rw [test_noSlot _ n b r hi, Counts.test_foldl_release blocks c hbl, Bool.and_eq_true, decide_eq_true_eq]
  generalize (Outcome.noSlot b r).counts (blocks.foldl Counts.release c) n = c' at hfree hm htest ⊢
  constructor
  · rintro rfl
    refine ⟨?_, fun i hi => ?_⟩
    · apply BitVec.eq_of_toNat_eq
      grind
    · have := htest i hi
      constructor
      · intro h
        exact this.2 (Or.inr h)
      · intro h hmem
        rcases this.1 h with h' | h'
        · exact absurd hmem h'.2
        · exact h'
  · rintro ⟨hz, hbits⟩
    have hbi : c'.bitmap = c.bitmap := by
      apply Bitmap.ext_test (by omega)
      intro i hi
      rw [Bool.eq_iff_iff, htest i hi]
      obtain ⟨h1, h2⟩ := hbits i hi
      constructor
      · rintro (h | h)
        · exact h.1
        · exact h1 h
      · intro h
        by_cases hmem : i + 128 ∈ blocks
        · exact Or.inr (h2 h hmem)
        · exact Or.inl ⟨h, hmem⟩
    have hz' : c.free.toNat = 0 := by rw [hz]; rfl
    have hfree' : c'.free = c.free := by
      apply BitVec.eq_of_toNat_eq
      rw [hbi] at hm
      omega
    obtain ⟨bitmap, free⟩ := c
    obtain ⟨bitmap', free'⟩ := c'
    simp_all [hbi, hfree']

end NoSlot

theorem keptOnFailure_of_failed (h : Inv s) (hr : Ready s pfs) {s1 : FsState} {pfs1 : PsychicFs}
    (hrel : Released s pfs inode s1 pfs1) (heq : fsWrite name data s = (false, s1.withCounts pfs1 c)) :
    KeptOnFailure s name data ↔ c = pfs.counts := by
  unfold KeptOnFailure
  rw [heq, hr.fs_eq]
  have hfind : findInodeByName name s1.disk = findInodeByName name s.disk :=
    findInodeByName_congr h.sound hrel.ready.sound (fun _ hk => hrel.files.inodeAt_eq hk) name
  constructor
  · intro hk
    exact Option.some.inj (hk rfl).1
  · rintro rfl _
    exact ⟨rfl, hfind, fun other => fsRead_sameFiles h hrel.files other⟩

theorem isBlockAllocated_add (pfs : PsychicFs) {i : Nat} (hi : i < 8192) :
    pfs.isBlockAllocated (i + 128) = pfs.blockBitmap.test i := by
  simp [PsychicFs.isBlockAllocated]
  omega

theorem fsWrite_of_found (hd : s.disk.Sound) (hfind : findInodeByName name s.disk = some (k, inode)) :
    Named s.disk k name ∧ inodeAt s.disk k = inode ∧ ∀ data, fsWrite name data s = writeFile k inode data s := by
  rcases fsWrite_cases hd name with ⟨j, hj, hfind', heq⟩ | ⟨hnone, -⟩ | ⟨hc, -⟩
  · grind
  all_goals
    rcases findInodeByName_cases hd name with ⟨j, hj, -⟩ | ⟨-, hfind'⟩
    · first | exact absurd hj (hnone j) | exact absurd hj (hc.2.1 j)
    · rw [hfind'] at hfind
      cases hfind

theorem Released.eq_of_full {s1 : FsState} {pfs1 : PsychicFs} (hrel : Released s pfs inode s1 pfs1)
    (hok : FileOk inode) (hfull : ∀ x, ¬ pfs1.counts.Free x) : pfs1 = pfs := by
  have hnil : inode.blocks = [] := by
    by_contra hne
    obtain ⟨x, hx⟩ := List.exists_mem_of_ne_nil _ hne
    have hfree := (Counts.free_foldl_release (c := pfs.counts) (fun b hb => (hok.bounds b hb).1) x).2
      ⟨(hok.bounds x hx).1, (hok.bounds x hx).2, Or.inr hx⟩
    rw [← hrel.counts] at hfree
    exact hfull x hfree
  exact (hrel.nil hnil).2

theorem noSlotBits_iff_retaken {b : Nat} {r : Option Nat} (ho : (Outcome.noSlot b r).Valid c n)
    (i : Nat) : NoSlotBits n b r i ↔ Retaken c.Free n b i := by
  obtain ⟨-, -, hrest⟩ := ho
  unfold NoSlotBits Retaken
  rw [← Counts.free_claim_one]
  refine or_congr_right ?_
  cases r with
  | none =>
    constructor
    · rintro ⟨r', hr', -⟩
      cases hr'
    · rintro ⟨r', hr', -⟩
      exact absurd hr'.1 (hrest r')
  | some r =>
    constructor
    · grind
    · rintro ⟨r', hr', hi⟩
      obtain rfl := hrest.unique hr'
      exact ⟨_, rfl, hi⟩

theorem coincides_iff (hfs : s.psychicFs = some pfs) (hfind : findInodeByName name s.disk = some (k, inode))
    (n b : Nat) : Coincides s name n b ↔ pfs.superblock.freeBlocks = 0 ∧ ∀ i, i < 8192 →
      (Retaken (FreeFor s name) n b i → pfs.blockBitmap.test i = true) ∧
        (pfs.blockBitmap.test i = true → i + 128 ∈ inode.blocks → Retaken (FreeFor s name) n b i) := by
  unfold Coincides
  rw [hfs, hfind]
  constructor
  · rintro ⟨pfs', k', inode', h1, h2, hz, hi⟩
    obtain rfl := Option.some.inj h1
    obtain ⟨-, rfl⟩ := Prod.mk.inj (Option.some.inj h2)
    refine ⟨hz, fun i hlt => ?_⟩
    have := hi i hlt
    rwa [isBlockAllocated_add pfs hlt] at this
  · rintro ⟨hz, hi⟩
    refine ⟨pfs, k, inode, rfl, rfl, hz, fun i hlt => ?_⟩
    rw [isBlockAllocated_add pfs hlt]
    exact hi i hlt

theorem failureHarmless_of_noSlot {b : Nat} {r : Option Nat} (hfs : s.psychicFs ≠ none)
    (hF : c.Free = FreeFor s name) (ho : (Outcome.noSlot b r).Valid c n) :
    FailureHarmless s name n ↔ Coincides s name n b := by
  obtain ⟨h4, hs, -⟩ := ho
  unfold FailureHarmless
  rw [← hF]
  constructor
  · rintro (hnone | hz | hfull | ⟨r', hr'⟩ | ⟨b', hb', hor⟩)
    · exact absurd hnone hfs
    · omega
    · exact absurd (isRun_one.1 hs.first.1) (hfull b)
    · exact absurd hr' (hs.none r')
    · obtain rfl := hs.first.unique hb'
      rcases hor with hle | ⟨r', hr'⟩ | hc
      · omega
      · rw [← Counts.free_claim_one] at hr'
        exact absurd hr' (hs.later 3 (by omega) (by omega) r')
      · exact hc
  · intro hc
    exact Or.inr (Or.inr (Or.inr (Or.inr ⟨b, hs.first, Or.inr (Or.inr hc)⟩)))

theorem keptOnFailure_iff (h : Inv s) (hb : Budget s) (hfind : findInodeByName name s.disk = some (k, inode))
    (data : List Byte) : KeptOnFailure s name data ↔ FailureHarmless s name ((data.length + 512 - 1) / 512) := by
  obtain ⟨hn, rfl, heq⟩ := fsWrite_of_found h.sound hfind
  rcases eq_or_ne data [] with rfl | hdata
  · refine ⟨fun _ => Or.inr (Or.inl rfl), fun _ hfail => ?_⟩
    rw [heq, writeFile_nil h.sound hn.1] at hfail
    cases hfail
  cases hfs : s.psychicFs with
  | none =>
    refine ⟨fun _ => Or.inl hfs, fun _ _ => ?_⟩
    simp [heq, writeFile_unmounted hfs hdata]
  | some pfs =>
    have hr := h.ready pfs hfs
    have hok := h.fileOk hn
    have hpos := blocksNeeded_pos hdata
    generalize hlen : (data.length + 512 - 1) / 512 = n at hpos
    obtain ⟨s1, pfs1, o, hrel, hv, hc⟩ := writeFile_cases hr hn.1 hok hpos
    have hF := free_released hr hok hfind hrel
    have hsu : ∀ bs, o.blocks n = some bs → KeptOnFailure s name data := by
      intro bs hbs hfail
      rcases hc data hlen with ⟨hnone, -⟩ | ⟨inode', -, -, -, -, -, hw⟩
      · rw [hnone] at hbs
        cases hbs
      · grind
    have hf : o.blocks n = none → (KeptOnFailure s name data ↔ o.counts pfs1.counts n = pfs.counts) := by
      intro hnone
      rcases hc data hlen with ⟨-, hw⟩ | ⟨inode', hbs, -⟩
      · exact keptOnFailure_of_failed h hr hrel (by rw [heq, hw])
      · rw [hnone] at hbs
        cases hbs
    cases o with
    | full =>
      refine ⟨fun _ => Or.inr (Or.inr (Or.inl (hF ▸ hv))), fun _ => (hf rfl).2 ?_⟩
      rw [hrel.eq_of_full hok hv]
      rfl
    | run r => exact ⟨fun _ => Or.inr (Or.inr (Or.inr (Or.inl ⟨r, hF ▸ hv.1⟩))), fun _ => hsu _ rfl⟩
    | split b j r =>
      obtain ⟨h1, h3, hjn, hst, hrun⟩ := hv
      refine ⟨fun _ => Or.inr (Or.inr (Or.inr (Or.inr ⟨b, hF ▸ hst.first, Or.inr (Or.inl ⟨r, ?_⟩)⟩))),
        fun _ => hsu _ rfl⟩
      rw [← hF, ← Counts.free_claim_one]
      exact hrun.1.mono (by omega)
    | noSlot b r =>
      have hbits := noSlotBits_iff_retaken hv
      rw [hf rfl, failureHarmless_of_noSlot (by rw [hfs]; simp) hF hv, coincides_iff hfs hfind, ← hF]
      rw [hrel.counts] at hv hbits ⊢
      rw [noSlot_counts_eq_iff (hb.mem pfs hfs) (fun x hx => (hok.bounds x hx).1) hv]
      simp only [hbits]
      rfl

/-- In every state reached by calls, a failed write to an existing file leaves no trace exactly if it is harmless. -/
theorem fs_write_failure_iff {s : FsState} (hd : s.disk.Sound) (cs : List Call) {name : String} {k : Nat}
    {inode : Inode} (hfind : findInodeByName name (run exec (formatMount s) cs).disk = some (k, inode))
    (data : List Byte) :
    KeptOnFailure (run exec (formatMount s) cs) name data ↔
      FailureHarmless (run exec (formatMount s) cs) name ((data.length + 512 - 1) / 512) :=
  keptOnFailure_iff (inv_run hd cs) (budget_run hd cs) hfind data

theorem run_create (s : FsState) (name : String) : run exec s [.create name] = (fsCreate name s).2 := rfl

theorem exists_created (hd : s.disk.Sound) (hlen : (strBytes name).length < 48)
    (hnul : (0 : Byte) ∉ strBytes name) :
    ∃ k, Named (run exec (formatMount s) [.create name]).disk k name ∧
      findInodeByName name (run exec (formatMount s) [.create name]).disk =
        some (k, inodeAt (run exec (formatMount s) [.create name]).disk k) := by
  obtain ⟨⟨pfs, hcl⟩, hem⟩ := clean_formatMount hd
  have hinv : Inv (run exec (formatMount s) [.create name]) := inv_run hd _
  have hnone : ∀ k, ¬ Named (formatMount s).disk k name := fun k hk => hk.2.1 (hem k hk.1)
  rcases fsCreate_cases hcl.inv.sound name with ⟨hnot, -⟩ | ⟨hc, k, hk, hfree, heq⟩
  · exact absurd ⟨hlen, hnone, 0, by omega, hem 0 (by omega)⟩ hnot
  · have hs : run exec (formatMount s) [.create name] = created k name (formatMount s) := by
      rw [run_create, heq]
      rfl
    have hn : Named (run exec (formatMount s) [.create name]).disk k name := by
      rw [hs]
      exact (named_created hk hfree hlen hnul).2 (Or.inr ⟨rfl, rfl⟩)
    rcases findInodeByName_cases hinv.sound name with ⟨j, hj, hfind⟩ | ⟨hnone', -⟩
    · exact ⟨j, hj, hfind⟩
    · exact absurd hn (hnone' k)

theorem fs_write_failure_iff_created :
    ∃ k inode, findInodeByName "a" (run exec (formatMount blankState) [.create "a"]).disk = some (k, inode) ∧
      (KeptOnFailure (run exec (formatMount blankState) [.create "a"]) "a" [1] ↔
        FailureHarmless (run exec (formatMount blankState) [.create "a"]) "a"
          ((([1] : List Byte).length + 512 - 1) / 512)) := by
  obtain ⟨k, -, hfind⟩ := exists_created sound_blankState (show (strBytes "a").length < 48 by decide) (by decide)
  exact ⟨k, _, hfind, fs_write_failure_iff sound_blankState [.create "a"] hfind [1]⟩

theorem counts_failed_write (h : Clean s pfs) (hfind : findInodeByName name s.disk = some (k, inode))
    (hlen : (data.length + 512 - 1) / 512 = n) (hn : 8064 < n) :
    (fsWrite name data s).1 = false ∧
      (fsWrite name data s).2.psychicFs.map PsychicFs.counts ≠ s.psychicFs.map PsychicFs.counts := by
  have hdata : data ≠ [] := by
    rintro rfl
    simp at hlen
    omega
  rcases fsWrite_cases h.inv.sound name with ⟨j, hj, -, heq⟩ | ⟨hnone, -⟩ | ⟨hc, -⟩
  · rcases h.writeFile_cases hj hdata hlen with ⟨hle, -⟩ | ⟨-, hfail⟩
    · omega
    · rw [heq, hfail, h.ready.fs_eq]
      refine ⟨rfl, fun hco => ?_⟩
      have hbit := congrArg (fun c : Counts => c.bitmap.test 128) (Option.some.inj hco)
      simp only [PsychicFs.counts_setCounts, Counts.test_claimN _ _ (show 1 ≤ 5 by omega)] at hbit
      rw [show pfs.counts.bitmap.test 128 = false from h.bitmap 128] at hbit
      simp at hbit
  all_goals
    rcases findInodeByName_cases h.inv.sound name with ⟨j, hj, -⟩ | ⟨-, hfind'⟩
    · first | exact absurd hj (hnone j) | exact absurd hj (hc.2.1 j)
    · rw [hfind'] at hfind
      cases hfind

/-- Writing 8065 blocks to an existing file of a fresh file system fails, but changes the bitmap. -/
theorem fs_write_failure_changes_bitmap :
    (findInodeByName "a" (run exec (formatMount blankState) [.create "a"]).disk).isSome ∧
      (fsWrite "a" (List.replicate (512 * 8065) 0) (run exec (formatMount blankState) [.create "a"])).1 = false ∧
      (fsWrite "a" (List.replicate (512 * 8065) 0)
        (run exec (formatMount blankState) [.create "a"])).2.psychicFs.map PsychicFs.counts ≠
        (run exec (formatMount blankState) [.create "a"]).psychicFs.map PsychicFs.counts := by
  obtain ⟨⟨pfs, hc⟩, -⟩ := clean_formatMount sound_blankState
  obtain ⟨k, -, hfind⟩ := exists_created sound_blankState (show (strBytes "a").length < 48 by decide) (by decide)
  generalize hdata : List.replicate (512 * 8065) (0 : Byte) = data
  have hlen : (data.length + 512 - 1) / 512 = 8065 := by rw [← hdata, List.length_replicate]
  exact ⟨by rw [hfind]; rfl, counts_failed_write (hc.fsCreate "a") hfind hlen (by omega)⟩

end AstralOS.Fs
