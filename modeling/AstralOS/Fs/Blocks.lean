import AstralOS.Fs.Runs
import AstralOS.Fs.Table

/-!
# Freeing, searching and marking blocks

What the block functions do to a mounted file system.  All of them act on the bitmap and the free counter
(`Counts`): `freeBlock` is `Counts.release`, which clears the bit `b - 128` of block `b`, and
`allocateContiguousBlocks` is `Counts.claim`, which sets the bits `b` of the blocks.  `findContiguousBlocks` is
first fit over the blocks whose bit `b - 128` is clear (`findContiguousBlocks_spec`).  Freeing also writes the
superblock and the bitmap back to their sectors; the inode table and the data blocks are never touched
(`SameFiles`).
-/

namespace AstralOS.Fs

open List hiding Vector

/-! ### Bitmap and counter -/

structure Counts where
  bitmap : Bitmap 8 1024
  free : BitVec 32

def PsychicFs.counts (pfs : PsychicFs) : Counts := ⟨pfs.blockBitmap, pfs.superblock.freeBlocks⟩

def PsychicFs.setCounts (pfs : PsychicFs) (c : Counts) : PsychicFs :=
  { pfs with blockBitmap := c.bitmap, superblock := { pfs.superblock with freeBlocks := c.free } }

namespace Counts

def Free (c : Counts) (b : Nat) : Prop := 128 ≤ b ∧ b < 8192 ∧ c.bitmap.test (b - 128) = false

def release (c : Counts) (b : Nat) : Counts :=
  if 128 ≤ b ∧ c.bitmap.test (b - 128) = true then ⟨c.bitmap.clear (b - 128), c.free + 1⟩ else c

def claim (c : Counts) (start count : Nat) : Counts where
  bitmap := (List.range count).foldl (fun (m : Bitmap 8 1024) i => m.mark (start + i)) c.bitmap
  free := if c.free < BitVec.ofNat 32 count then 0 else c.free - BitVec.ofNat 32 count

theorem test_release (c : Counts) (b i : Nat) :
    (c.release b).bitmap.test i = (c.bitmap.test i && decide (¬ (128 ≤ b ∧ i = b - 128))) := by
  unfold release
  by_cases hb : 128 ≤ b
  · by_cases ht : c.bitmap.test (b - 128) = true
    · rw [if_pos ⟨hb, ht⟩, Bitmap.test_clear (by omega)]
      simp only [hb, true_and, ne_eq, eq_comm (a := i)]
    · rw [if_neg (fun h => ht h.2)]
      by_cases hi : i = b - 128
      · grind
      · simp only [hi, and_false, not_false_eq_true, decide_true, Bool.and_true]
  · grind

theorem test_foldl_release (blocks : List Nat) (c : Counts) (hb : ∀ b ∈ blocks, 128 ≤ b) (i : Nat) :
    (blocks.foldl release c).bitmap.test i = (c.bitmap.test i && decide (i + 128 ∉ blocks)) := by
  induction blocks generalizing c with
  | nil => simp
  | cons b blocks ih =>
    rw [foldl_cons, ih _ (fun x hx => hb x (by simp [hx])), test_release, Bool.and_assoc]
    congr 1
    rw [Bool.eq_iff_iff]
    simp [Bool.and_eq_true, mem_cons]
    omega

theorem free_foldl_release {blocks : List Nat} {c : Counts} (hb : ∀ b ∈ blocks, 128 ≤ b) (b : Nat) :
    (blocks.foldl release c).Free b ↔ 128 ≤ b ∧ b < 8192 ∧ (c.bitmap.test (b - 128) = false ∨ b ∈ blocks) := by
  unfold Free
  rw [test_foldl_release blocks c hb]
  constructor
  · rintro ⟨h1, h2, h3⟩
    refine ⟨h1, h2, ?_⟩
    rw [show b - 128 + 128 = b by omega] at h3
    by_cases hm : b ∈ blocks
    · exact Or.inr hm
    · simpa [hm] using h3
  · grind

theorem test_foldl_mark (m : Bitmap 8 1024) (start count i : Nat) :
    ((List.range count).foldl (fun (m : Bitmap 8 1024) j => m.mark (start + j)) m).test i =
      (m.test i || decide (start ≤ i ∧ i < start + count ∧ i < 8192)) := by
  induction count with
  | zero => simp; omega
  | succ count ih =>
    rw [range_succ, foldl_append, foldl_cons, foldl_nil, Bitmap.test_mark (by omega), ih,
      Bool.or_assoc]
    congr 1
    rw [Bool.eq_iff_iff]
    simp only [Bool.or_eq_true, decide_eq_true_eq, Bool.and_eq_true]
    omega

theorem test_claim (c : Counts) (start count i : Nat) :
    (c.claim start count).bitmap.test i =
      (c.bitmap.test i || decide (start ≤ i ∧ i < start + count ∧ i < 8192)) :=
  test_foldl_mark c.bitmap start count i

theorem free_claim (c : Counts) (start count b : Nat) :
    (c.claim start count).Free b ↔ c.Free b ∧ ¬ (start + 128 ≤ b ∧ b < start + count + 128) := by
  unfold Free
  rw [test_claim]
  constructor
  · grind
  · grind

end Counts

/-! ### Mounted states -/

/-- The superblock has the magic number and the geometry that `fsFormat` writes. -/
structure Superblock.Good (sb : Superblock) : Prop where
  magic : sb.magic = fsMagic
  total : sb.totalBlocks = 8192

def diskSuperblock (d : Disk) : Superblock := bytesToSuperblock (d.sectors 0)

/-- A sound disk with a PsychicFS on it. -/
structure Formatted (d : Disk) : Prop where
  sound : d.Sound
  good : (diskSuperblock d).Good

/-- The file system on the disk is mounted as `pfs`. -/
structure Ready (s : FsState) (pfs : PsychicFs) : Prop extends Formatted s.disk where
  fs_eq : s.psychicFs = some pfs
  mounted : pfs.mounted = true
  super : pfs.superblock.Good

/-- The two disks agree on the inode table and on the data blocks. -/
structure SameFiles (d d' : Disk) : Prop where
  present : d'.present = d.present
  fails : d'.fails = d.fails
  sectors : ∀ n, n ≠ 0 → n ≠ 65 → n ≠ 66 → d'.sectors n = d.sectors n

theorem SameFiles.refl (d : Disk) : SameFiles d d := ⟨rfl, rfl, fun _ _ _ _ => rfl⟩

variable {d d' : Disk}

theorem SameFiles.trans {d'' : Disk} (h : SameFiles d d') (h' : SameFiles d' d'') : SameFiles d d'' :=
  ⟨h'.present.trans h.present, h'.fails.trans h.fails,
    fun n h0 h1 h2 => (h'.sectors n h0 h1 h2).trans (h.sectors n h0 h1 h2)⟩

theorem SameFiles.setSector (d : Disk) {n : Nat} (hn : n = 0 ∨ n = 65 ∨ n = 66) (b : Sector) :
    SameFiles d (d.setSector n b) := by
  refine ⟨rfl, rfl, fun m h0 h1 h2 => ?_⟩
  rw [Disk.sectors_setSector, if_neg (by omega)]

theorem SameFiles.sound (h : SameFiles d d') (hd : d.Sound) : d'.Sound :=
  ⟨by rw [h.present]; exact hd.1, by rw [h.fails]; exact hd.2⟩

theorem SameFiles.inodeAt_eq (h : SameFiles d d') {k : Nat} (hk : k < 256) : inodeAt d' k = inodeAt d k :=
  inodeAt_congr hk fun n h1 h2 => h.sectors n (by omega) (by omega) (by omega)

/-! ### Writing back -/

def diskBitmap (d : Disk) : Bitmap 8 1024 :=
  Vector.ofFn fun i => if i.val < 512 then byteAt (d.sectors 65) i.val else byteAt (d.sectors 66) (i.val - 512)

theorem low_lt (i : Fin 512) : i.val < 1024 := by omega

theorem high_lt (i : Fin 512) : 512 + i.val < 1024 := by omega

def Disk.synced (d : Disk) (pfs : PsychicFs) : Disk :=
  let d := if pfs.bitmapDirty then
      (d.setSector 65 (Vector.ofFn fun i => getElem pfs.blockBitmap i.val (low_lt i))).setSector 66
        (Vector.ofFn fun i => getElem pfs.blockBitmap (512 + i.val) (high_lt i))
    else d
  if pfs.superblockDirty then d.setSector 0 (superblockToBytes { pfs.superblock with dirty := 0 }) else d

def PsychicFs.synced (pfs : PsychicFs) : PsychicFs :=
  { pfs with
    bitmapDirty := false
    superblockDirty := false
    superblock := if pfs.superblockDirty then { pfs.superblock with dirty := 0 } else pfs.superblock }

variable {pfs : PsychicFs}

theorem PsychicFs.sync_eq (hd : d.Sound) (hm : pfs.mounted = true) : pfs.sync d = (true, pfs.synced, d.synced pfs) := by
  have h65 := fun b => hd.diskWriteSector_eq (show 65 < 8192 by omega) b
  have h66 := fun n c b => (hd.setSector n c).diskWriteSector_eq (show 66 < 8192 by omega) b
  have h0 := fun b => hd.diskWriteSector_eq (show 0 < 8192 by omega) b
  have h0' := fun n c m c' b => ((hd.setSector n c).setSector m c').diskWriteSector_eq (show 0 < 8192 by omega) b
  obtain ⟨mounted, superblock, bitmap, bd, sd⟩ := pfs
  grind [sync, writeBitmapToDisk, synced, Disk.synced]

theorem sameFiles_synced (d : Disk) (pfs : PsychicFs) : SameFiles d (d.synced pfs) := by
  unfold Disk.synced
  have h : SameFiles d (if pfs.bitmapDirty then
      (d.setSector 65 (Vector.ofFn fun i => pfs.blockBitmap[i.val])).setSector 66
        (Vector.ofFn fun i => pfs.blockBitmap[512 + i.val]) else d) := by
    split
    · exact (SameFiles.setSector d (by omega) _).trans (SameFiles.setSector _ (by omega) _)
    · exact SameFiles.refl d
  simp only
  split
  · exact h.trans (SameFiles.setSector _ (by omega) _)
  · exact h

theorem diskBitmap_synced (d : Disk) (pfs : PsychicFs) :
    diskBitmap (d.synced pfs) = if pfs.bitmapDirty then pfs.blockBitmap else diskBitmap d := by
  have hsb : ∀ d' : Disk, diskBitmap (if pfs.superblockDirty then
      d'.setSector 0 (superblockToBytes { pfs.superblock with dirty := 0 }) else d') = diskBitmap d' := by
    intro d'
    split <;> simp [diskBitmap]
  unfold Disk.synced
  rw [hsb]
  split
  · unfold diskBitmap
    apply Vector.ext
    intro i hi
    rw [Vector.getElem_ofFn]
    simp only [Disk.sectors_setSector, ↓reduceIte, Nat.reduceEqDiff]
    split
    · rename_i h
      rw [byteAt_ofFn _ h]
    · rw [byteAt_ofFn _ (by omega)]
      grind
  · rfl

theorem diskSuperblock_synced (d : Disk) (pfs : PsychicFs) :
    diskSuperblock (d.synced pfs) =
      if pfs.superblockDirty then { pfs.superblock with dirty := 0 } else diskSuperblock d := by
  unfold Disk.synced
  simp only
  split
  · simp [diskSuperblock, bytesToSuperblock_superblockToBytes]
  · unfold diskSuperblock
    split <;> simp

@[simp] theorem PsychicFs.counts_synced (pfs : PsychicFs) : pfs.synced.counts = pfs.counts := by
  grind [synced, counts]

theorem good_dirty {sb : Superblock} (h : sb.Good) (b : BitVec 8) : { sb with dirty := b }.Good :=
  ⟨h.magic, h.total⟩

variable {s : FsState}

theorem Ready.synced (h : Ready s pfs) :
    Ready { s with disk := s.disk.synced pfs, psychicFs := some pfs.synced } pfs.synced := by
  refine ⟨⟨(sameFiles_synced s.disk pfs).sound h.sound, ?_⟩, rfl, h.mounted, ?_⟩
  · simp only [diskSuperblock_synced]
    split
    · exact good_dirty h.super 0
    · exact h.good
  · unfold PsychicFs.synced
    split
    · exact good_dirty h.super 0
    · exact h.super

theorem fsSync_eq (h : Ready s pfs) :
    fsSync s = { s with disk := s.disk.synced pfs, psychicFs := some pfs.synced } := by
  unfold fsSync
  simp only [h.fs_eq, PsychicFs.sync_eq h.sound h.mounted]

theorem Ready.setCounts (h : Ready s pfs) (c : Counts) :
    Ready { s with psychicFs := some (pfs.setCounts c) } (pfs.setCounts c) :=
  ⟨h.toFormatted, rfl, h.mounted, ⟨h.super.magic, h.super.total⟩⟩

@[simp] theorem PsychicFs.counts_setCounts (pfs : PsychicFs) (c : Counts) : (pfs.setCounts c).counts = c := rfl

/-! ### Freeing -/

/-- Freeing leads to a mounted state with the given counts; inode table, data blocks and clock are kept. -/
structure Freed (s : FsState) (c : Counts) (s' : FsState) : Prop where
  ready : ∃ pfs', Ready s' pfs' ∧ pfs'.counts = c
  files : SameFiles s.disk s'.disk
  clock : s'.clock = s.clock

section

variable (h : Ready s pfs)
include h

theorem Ready.freed : Freed s pfs.counts s :=
  ⟨⟨pfs, h, rfl⟩, SameFiles.refl _, rfl⟩

theorem freeBlock_cases (b : Nat) : (pfs.counts.release b = pfs.counts ∧ freeBlock b s = s) ∨
    (128 ≤ b ∧ pfs.blockBitmap.test (b - 128) = true ∧
      freeBlock b s = { s with
        disk := s.disk.synced (pfs.setCounts (pfs.counts.release b)).markDirty
        psychicFs := some (pfs.setCounts (pfs.counts.release b)).markDirty.synced }) := by
  unfold freeBlock
  simp only [h.fs_eq]
  by_cases hb : b < 128
  · left
    rw [if_pos hb, Counts.release, if_neg (by omega)]
    exact ⟨rfl, rfl⟩
  · rw [if_neg hb]
    by_cases ht : pfs.blockBitmap.test (b - 128) = true
    · right
      have hidx : (b - 128) / 8 < 1024 := by
        by_contra hge
        rw [Bitmap.test_of_length_le (by omega) _ (show 8 * 1024 ≤ b - 128 by omega)] at ht
        cases ht
      have hrel : pfs.counts.release b = ⟨pfs.blockBitmap.clear (b - 128), pfs.superblock.freeBlocks + 1⟩ := by
        rw [Counts.release, if_pos ⟨by omega, ht⟩]
        rfl
      refine ⟨by omega, ht, ?_⟩
      rw [if_pos hidx, if_neg (by simp [ht]), PsychicFs.sync_eq h.sound (by exact h.mounted), hrel]
      rfl
    · left
      have hf : pfs.blockBitmap.test (b - 128) = false := by simpa using ht
      refine ⟨by rw [Counts.release, if_neg (fun hh => ht hh.2)], ?_⟩
      simp only [hf, ↓reduceIte, ite_self]

theorem Ready.markDirty : Ready { s with psychicFs := some pfs.markDirty } pfs.markDirty :=
  ⟨h.toFormatted, rfl, h.mounted, h.super⟩

theorem freeBlock_spec (b : Nat) : Freed s (pfs.counts.release b) (freeBlock b s) := by
  rcases freeBlock_cases h b with ⟨hrel, heq⟩ | ⟨-, -, heq⟩
  · rw [heq, hrel]
    exact h.freed
  · rw [heq]
    exact ⟨⟨_, (h.setCounts _).markDirty.synced, PsychicFs.counts_synced _⟩,
      sameFiles_synced s.disk (pfs.setCounts (pfs.counts.release b)).markDirty, rfl⟩

end

theorem Freed.trans {s' s'' : FsState} {c c' : Counts} (h : Freed s c s')
    (h' : ∀ pfs', Ready s' pfs' → pfs'.counts = c → Freed s' c' s'') : Freed s c' s'' := by
  obtain ⟨pfs', hr, hc⟩ := h.ready
  have := h' pfs' hr hc
  exact ⟨this.ready, h.files.trans this.files, this.clock.trans h.clock⟩

theorem foldl_freeBlock_spec (blocks : List Nat) (h : Ready s pfs) :
    Freed s (blocks.foldl Counts.release pfs.counts) (blocks.foldl (fun s b => freeBlock b s) s) := by
  induction blocks generalizing s pfs with
  | nil => exact h.freed
  | cons b blocks ih =>
    apply (freeBlock_spec h b).trans
    grind

variable {count : Nat}

theorem freeBlockRange_eq {start : Nat} (s : FsState) (hs : start + count < 2 ^ 32) (hc : count < 2 ^ 16) :
    freeBlockRange (BitVec.ofNat 32 start) (BitVec.ofNat 16 count) s =
      (List.range' start count).foldl (fun s b => freeBlock b s) s := by
  unfold freeBlockRange
  have e1 : (BitVec.ofNat 16 count).toNat = count := by simp; omega
  have e2 : (BitVec.ofNat 32 start).toNat = start := by simp; omega
  rw [e1, e2, range'_eq_map_range, foldl_map]
  apply foldl_ext
  grind

variable {inode : Inode}

theorem freeExtents_eq {runs : List (Nat × Nat)} (h : inode.HasRuns runs) (s : FsState) :
    freeExtents inode s = (blocksOf runs).foldl (fun s b => freeBlock b s) s := by
  have key : ∀ (runs : List (Nat × Nat)) (l k : Nat) (s : FsState), (∀ r ∈ runs, 0 < r.2) →
      (∀ r ∈ runs, r.1 + r.2 < 2 ^ 32) → total runs < 2 ^ 16 →
      (layout l runs ++ replicate k Extent.empty).foldl (fun s ext =>
        if !ext.isEmpty then freeBlockRange ext.physicalBlock ext.count s else s) s =
      (blocksOf runs).foldl (fun s b => freeBlock b s) s := by
    intro runs
    induction runs with
    | nil =>
      intro l k s _ _ _
      induction k with
      | zero => rfl
      | succ k ih => simpa [replicate_succ, Extent.isEmpty, Extent.empty] using ih
    | cons r runs ih =>
      intro l k s hpos hphys ht
      obtain ⟨st, c⟩ := r
      have hc : 0 < c := hpos (st, c) (by simp)
      have hp := hphys (st, c) (by simp)
      simp only [total_cons] at ht
      have hne : (BitVec.ofNat 16 c == 0) = false := ofNat_beq_zero hc (by omega)
      rw [layout, cons_append, foldl_cons, if_pos (by simp only [Extent.isEmpty, hne, Bool.not_false]),
        freeBlockRange_eq s hp (by omega), blocksOf_cons]
      grind
  unfold freeExtents
  rw [h.extents_eq]
  exact key runs 0 _ s h.pos h.phys h.total_lt

theorem freeExtents_spec (h : Ready s pfs) {runs : List (Nat × Nat)} (hi : inode.HasRuns runs) :
    Freed s ((blocksOf runs).foldl Counts.release pfs.counts) (freeExtents inode s) := by
  rw [freeExtents_eq hi]
  exact foldl_freeBlock_spec _ h

theorem freeExtents_nil (hi : inode.HasRuns []) (s : FsState) : freeExtents inode s = s := by
  rw [freeExtents_eq hi]
  rfl

/-! ### Searching and marking -/

theorem isBlockAllocated_eq (b : Nat) (hb : b < 8192) :
    pfs.isBlockAllocated b = (decide (b < 128) || pfs.blockBitmap.test (b - 128)) := by
  unfold PsychicFs.isBlockAllocated
  by_cases h : b < 128
  · simp [h]
  · simp [h, ↓reduceIte, decide_false, Bool.false_or]
    omega

theorem free_iff (pfs : PsychicFs) (b : Nat) :
    pfs.counts.Free b ↔ 128 ≤ b ∧ b < 8192 ∧ pfs.isBlockAllocated b = false := by
  unfold Counts.Free PsychicFs.counts
  constructor
  · rintro ⟨h1, h2, h3⟩
    simp [isBlockAllocated_eq b h2, h3, h1]
    omega
  · rintro ⟨h1, h2, h3⟩
    simp_all [isBlockAllocated_eq b h2]

def PsychicFs.FreeBlock (pfs : PsychicFs) (b : Nat) : Prop :=
  128 ≤ b ∧ b < pfs.superblock.totalBlocks.toNat ∧ pfs.isBlockAllocated b = false

theorem freeBlock_iff (pfs : PsychicFs) (b : Nat) :
    pfs.FreeBlock b ↔ 128 ≤ b ∧ b < pfs.superblock.totalBlocks.toNat ∧ pfs.isBlockAllocated b = false :=
  Iff.rfl

theorem findContiguousBlocks_first (h : s.psychicFs = some pfs) (hc : 0 < count) :
    match findContiguousBlocks count s with
    | some r => IsFirstRun pfs.FreeBlock count r
    | none => ∀ r, ¬ IsRun pfs.FreeBlock count r := by
  unfold findContiguousBlocks
  simp only [h]
  by_cases ht : 128 ≥ pfs.superblock.totalBlocks.toNat
  · rw [if_pos ht]
    intro r hr
    have := (freeBlock_iff pfs _).1 (hr 0 hc)
    omega
  · have hle : 128 ≤ pfs.superblock.totalBlocks.toNat := Nat.le_of_not_ge ht
    rw [if_neg ht]
    cases hr : scanRun pfs.isBlockAllocated count (range' 128 (pfs.superblock.totalBlocks.toNat - 128)) 0 0 with
    | some r => exact isFirstRun_of_scanRun hc hle (freeBlock_iff pfs) hr
    | none =>
      have hnone := not_isRun_of_scanRun hc hle (freeBlock_iff pfs) hr
      dsimp only
      split
      · rename_i r hfind
        -- the second pass for a single block finds nothing the first one missed
        split at hfind
        · rename_i h1
          subst h1
          have hmem := mem_of_find?_eq_some hfind
          have hprop := find?_some hfind
          rw [mem_range'_1] at hmem
          exact absurd (isRun_one.2 ((freeBlock_iff pfs r).2 ⟨by omega, by omega, by simpa using hprop⟩)) (hnone r)
        · cases hfind
      · exact hnone

/-- The search finds the lowest run of free data blocks, and fails exactly if there is none. -/
theorem findContiguousBlocks_exact (s : FsState) (pfs : PsychicFs) {count : Nat} (hc : 1 ≤ count) :
    (∀ r, findContiguousBlocks count { s with psychicFs := some pfs } = some r ↔ IsFirstRun pfs.FreeBlock count r) ∧
      (findContiguousBlocks count { s with psychicFs := some pfs } = none ↔ ∀ r, ¬ IsRun pfs.FreeBlock count r) := by
  have hf := findContiguousBlocks_first (s := { s with psychicFs := some pfs }) rfl hc
  cases hr : findContiguousBlocks count { s with psychicFs := some pfs } with
  | some r =>
    rw [hr] at hf
    refine ⟨fun r' => ⟨fun h => Option.some.inj h ▸ hf, fun h => congrArg some (hf.unique h)⟩, nofun, ?_⟩
    exact fun h => absurd hf.1 (h r)
  | none =>
    rw [hr] at hf
    exact ⟨fun r' => ⟨nofun, fun h => absurd h.1 (hf r')⟩, fun _ => hf, fun _ => rfl⟩

/-- All blocks free, four of them data blocks. -/
theorem findContiguousBlocks_exact_four :
    1 ≤ 4 ∧ IsFirstRun (PsychicFs.FreeBlock { PsychicFs.new with superblock := ⟨0, 0, 132, 0, 0, 0, 0, 0, 0⟩ }) 4 128 :=
  ⟨by decide, ((findContiguousBlocks_exact ⟨⟨true, fun _ => emptySector, fun _ => false⟩, none, fun _ => 0⟩ _
    (by decide)).1 128).1 (by decide +kernel)⟩

theorem findContiguousBlocks_spec (h : Ready s pfs) (hc : 0 < count) : match findContiguousBlocks count s with
    | some r => IsFirstRun pfs.counts.Free count r
    | none => ∀ r, ¬ IsRun pfs.counts.Free count r := by
  have ht : pfs.superblock.totalBlocks.toNat = 8192 := by
    rw [h.super.total]
    rfl
  have hfree : pfs.FreeBlock = pfs.counts.Free := by
    funext b
    rw [PsychicFs.FreeBlock, ht]
    exact propext (free_iff pfs b).symm
  rw [← hfree]
  exact findContiguousBlocks_first h.fs_eq hc

theorem allocateContiguousBlocks_eq (h : s.psychicFs = some pfs) (start count : Nat) :
    allocateContiguousBlocks start count s =
      (true, { s with psychicFs := some (pfs.setCounts (pfs.counts.claim start count)) }) := by
  unfold allocateContiguousBlocks
  simp only [h]
  rfl

end AstralOS.Fs
