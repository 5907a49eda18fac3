import AstralOS.Fs.Accounting

/-!
# The mark of an unclean shutdown

The superblock has a dirty byte, and `fs_mount` warns if it finds it set.  It then sets the byte itself, but only in
memory, and `sync` clears it before it writes the superblock.  So every write to the superblock sector leaves the byte
clear there (`DiskWrite`), and all that the calls do to the disk is a run of such writes (`reaches_exec`).  A crash can
come between any two of them, or between two changes in memory (`Move`); the byte tells of it only as long as the
sector is the one that was found when the disk was mounted (`crash_detectable_iff`).
-/

namespace AstralOS.Fs

/-- A write of the file system to the disk: to the superblock with the dirty byte clear, or to another sector. -/
inductive DiskWrite
  | superblock (sb : Superblock) (hdirty : sb.dirty = 0)
  | sector (n : Nat) (hn : n ≠ 0) (buffer : Sector)

def Disk.apply (d : Disk) : DiskWrite → Disk
  | .superblock sb _ => d.setSector 0 (superblockToBytes sb)
  | .sector n _ buffer => d.setSector n buffer

/-- What happens at once: a change in memory or a write to the disk. -/
inductive Move
  | memory (psychicFs : Option PsychicFs) (clock : Nat → BitVec 64)
  | disk (w : DiskWrite)

def FsState.move (s : FsState) : Move → FsState
  | .memory psychicFs clock => { s with psychicFs, clock }
  | .disk w => { s with disk := s.disk.apply w }

def Reaches (d d' : Disk) : Prop := ∃ ws, run Disk.apply d ws = d'

namespace Reaches

variable {d d' d'' : Disk}

theorem refl (d : Disk) : Reaches d d := ⟨[], rfl⟩

theorem trans (h : Reaches d d') (h' : Reaches d' d'') : Reaches d d'' := by
  obtain ⟨ws, rfl⟩ := h
  obtain ⟨ws', rfl⟩ := h'
  exact ⟨ws ++ ws', run_append d ws ws'⟩

theorem sector {n : Nat} {buffer : Sector} (hn : n ≠ 0) (h : d.diskWriteSector n buffer = some d') : Reaches d d' := by
  unfold Disk.diskWriteSector at h
  split_ifs at h
  exact ⟨[.sector n hn buffer], Option.some.inj h⟩

theorem superblock {sb : Superblock} (hd : sb.dirty = 0) (h : d.diskWriteSector 0 (superblockToBytes sb) = some d') :
    Reaches d d' := by
  unfold Disk.diskWriteSector at h
  split_ifs at h
  exact ⟨[.superblock sb hd], Option.some.inj h⟩

theorem foldl {α : Type} {f : FsState → α → FsState} (h : ∀ s a, Reaches s.disk (f s a).disk) (s : FsState)
    (as : List α) : Reaches s.disk (as.foldl f s).disk := by
  induction as generalizing s with
  | nil => exact refl _
  | cons a as ih => exact (h s a).trans (ih (f s a))

end Reaches

/-! ### Synchronising, formatting and mounting -/

theorem reaches_writeBitmapToDisk (pfs : PsychicFs) (d : Disk) : Reaches d (pfs.writeBitmapToDisk d).2 := by
  unfold PsychicFs.writeBitmapToDisk
  dsimp only
  split
  · exact .refl d
  · rename_i d1 h1
    have hf := Reaches.sector (by decide) h1
    split
    · exact hf
    · rename_i d2 h2
      exact hf.trans (.sector (by decide) h2)

theorem reaches_sync (pfs : PsychicFs) (d : Disk) : Reaches d (pfs.sync d).2.2 := by
  have hb := reaches_writeBitmapToDisk pfs d
  unfold PsychicFs.sync
  rcases hw : pfs.writeBitmapToDisk d with ⟨ok, d'⟩
  rw [hw] at hb
  -- whether or not the bitmap was written, the superblock is tried next
  cases ok <;> dsimp only <;> split_ifs
  all_goals first | exact .refl d | exact hb | split
  all_goals first | exact .refl d | exact hb | rename_i hs
  all_goals first | exact .superblock rfl hs | exact hb.trans (.superblock rfl hs)

theorem reaches_fsSync (s : FsState) : Reaches s.disk (fsSync s).disk := by
  unfold fsSync
  cases s.psychicFs with
  | none => exact .refl _
  | some pfs => exact reaches_sync pfs s.disk

theorem reaches_clearInodeTable (is : List Nat) (d : Disk) : Reaches d (clearInodeTable is d).2 := by
  induction is generalizing d with
  | nil => exact .refl d
  | cons i is ih =>
    unfold clearInodeTable
    cases h : d.diskWriteSector (1 + i) emptySector with
    | none => exact .refl d
    | some d' => exact (Reaches.sector (by omega) h).trans (ih d')

theorem reaches_fsFormat (s : FsState) : Reaches s.disk (fsFormat s).2.disk := by
  unfold fsFormat
  split_ifs
  · exact .refl _
  · split
    · exact .refl _
    · rename_i d1 h1
      have hs := Reaches.superblock rfl h1
      have hc := hs.trans (reaches_clearInodeTable (List.range 64) d1)
      split
      · grind
      · rename_i d2 h2
        rw [h2] at hc
        split
        · exact hc
        · rename_i d3 h3
          have hf := hc.trans (.sector (by decide) h3)
          split
          · exact hf
          · rename_i d4 h4
            exact hf.trans (.sector (by decide) h4)

theorem disk_fsMount (s : FsState) : (fsMount s).2.disk = s.disk := by
  unfold fsMount
  split_ifs
  · rfl
  · split
    · rfl
    · dsimp only
      split_ifs
      · rfl
      · split <;> rfl

/-! ### Files -/

theorem reaches_writeInode (k : Nat) (inode : Inode) (d : Disk) : Reaches d (writeInode k inode d).2 := by
  unfold writeInode
  dsimp only
  split
  · exact .refl d
  · split
    · exact .refl d
    · rename_i d' hw
      have hr := Reaches.sector (by omega) hw
      split <;> exact hr

theorem reaches_fsCreate (name : String) (s : FsState) : Reaches s.disk (fsCreate name s).2.disk := by
  unfold fsCreate
  split_ifs
  · exact .refl _
  · exact .refl _
  · split
    · exact .refl _
    · exact reaches_writeInode _ _ _

theorem reaches_freeBlock (b : Nat) (s : FsState) : Reaches s.disk (freeBlock b s).disk := by
  unfold freeBlock
  split
  · exact .refl _
  · dsimp only
    split_ifs
    · exact .refl _
    · exact .refl _
    · exact reaches_sync _ _
    · exact .refl _

theorem reaches_freeExtents (inode : Inode) (s : FsState) : Reaches s.disk (freeExtents inode s).disk := by
  refine Reaches.foldl (fun s ext => ?_) s _
  split_ifs
  · exact Reaches.foldl (fun s i => reaches_freeBlock _ s) s _
  · exact .refl _

def Inode.High (inode : Inode) : Prop :=
  ∀ e ∈ inode.extents.toList, e = Extent.empty ∨ 128 ≤ e.physicalBlock.toNat ∧ e.physicalBlock.toNat < 2 ^ 31

theorem Inode.high_clearExtents (inode : Inode) : inode.clearExtents.High := by
  intro e he
  simp_all [clearExtents, Vector.toList_replicate, List.mem_replicate]

variable {inode : Inode}

theorem Inode.High.getD (h : inode.High) (i : Nat) :
    inode.extents.getD i Extent.empty = Extent.empty ∨ 128 ≤ (inode.extents.getD i Extent.empty).physicalBlock.toNat ∧
      (inode.extents.getD i Extent.empty).physicalBlock.toNat < 2 ^ 31 := by
  by_cases hi : i < 4
  · rw [show inode.extents.getD i Extent.empty = inode.extents[i] by simp [Vector.getD, Array.getD, hi]]
    exact h _ (by simp)
  · exact .inl (by simp [Vector.getD, Array.getD, hi])

theorem Inode.High.addExtent (h : inode.High) {start : BitVec 32} (hlow : 128 ≤ start.toNat)
    (hhigh : start.toNat < 2 ^ 31) (count : BitVec 16) : (inode.addExtent start count).2.High := by
  have hset : ∀ i (e : Extent), 128 ≤ e.physicalBlock.toNat ∧ e.physicalBlock.toNat < 2 ^ 31 →
      ∀ e' ∈ (inode.extents.setIfInBounds i e).toList,
        e' = Extent.empty ∨ 128 ≤ e'.physicalBlock.toNat ∧ e'.physicalBlock.toNat < 2 ^ 31 := by
    intro i e he e' he'
    rw [Vector.toList_setIfInBounds] at he'
    rcases List.mem_or_eq_of_mem_set he' with hold | rfl
    · exact h e' hold
    · exact .inr he
  unfold Inode.addExtent
  dsimp only
  split
  · exact h
  · split
    · rename_i hadj
      refine hset _ _ ((h.getD _).resolve_left fun hem => ?_)
      -- an empty extent ends at block 0, so `start` does not continue it
      have hs := hadj.2
      rw [hem] at hs
      rw [← hs] at hlow
      exact absurd hlow (by decide)
    · split
      · exact hset _ _ ⟨hlow, hhigh⟩
      · exact h

theorem Inode.High.getPhysicalBlock (h : inode.High) {logical : BitVec 16} {b : BitVec 32}
    (hb : inode.getPhysicalBlock logical = some b) : b.toNat ≠ 0 := by
  obtain ⟨e, he, htr⟩ := List.exists_of_findSome?_eq_some hb
  unfold Extent.translate at htr
  split_ifs at htr with hc
  rcases h e he with rfl | ⟨hlow, hhigh⟩
  · simp [Extent.contains, Extent.isEmpty, Extent.empty] at hc
  · grind

variable {s : FsState}

theorem findContiguousBlocks_bounds {count b : Nat} (hc : 0 < count)
    (h : findContiguousBlocks count s = some b) : 128 ≤ b ∧ b < 8320 := by
  cases hfs : s.psychicFs with
  | none => simp [findContiguousBlocks, hfs] at h
  | some pfs =>
    have hf := findContiguousBlocks_first hfs hc
    rw [h] at hf
    obtain ⟨hge, -, hfree⟩ := hf.1 0 hc
    grind [PsychicFs.isBlockAllocated]

theorem disk_allocateContiguousBlocks (start count : Nat) (s : FsState) :
    (allocateContiguousBlocks start count s).2.disk = s.disk := by
  unfold allocateContiguousBlocks
  split <;> rfl

theorem Inode.High.allocated {inode' : Inode} (h : inode.High) {k b : Nat} {count : BitVec 16}
    {ok : Bool} (hk : 0 < k) (hb : findContiguousBlocks k s = some b)
    (hadd : inode.addExtent (BitVec.ofNat 32 b) count = (ok, inode')) : inode'.High := by
  obtain ⟨hlow, hhigh⟩ := findContiguousBlocks_bounds hk hb
  have hnat : (BitVec.ofNat 32 b).toNat = b := by
    rw [BitVec.toNat_ofNat]
    omega
  have hhigh' : (inode.addExtent (BitVec.ofNat 32 b) count).2.High := h.addExtent (by omega) (by omega) count
  rwa [hadd] at hhigh'

theorem allocateBlocks_high (n : Nat) (h : inode.High) (s : FsState) :
    (allocateBlocks n inode s).2.2.disk = s.disk ∧ (allocateBlocks n inode s).2.1.High := by
  fun_induction allocateBlocks n inode s with
  | case1 => exact ⟨rfl, h⟩
  | case2 n inode s hn chunk b hb s' inode' hadd ih =>
    obtain ⟨hdisk, hhigh⟩ := ih (h.allocated (by omega) hb hadd)
    exact ⟨hdisk.trans (disk_allocateContiguousBlocks _ _ s), hhigh⟩
  | case3 n inode s hn chunk b hb s' inode' hadd =>
    exact ⟨disk_allocateContiguousBlocks _ _ s, h.allocated (by omega) hb hadd⟩
  | case4 n inode s hn chunk _ _ b hb s' inode' hadd ih =>
    obtain ⟨hdisk, hhigh⟩ := ih (h.allocated Nat.one_pos hb hadd)
    exact ⟨hdisk.trans (disk_allocateContiguousBlocks _ _ s), hhigh⟩
  | case5 n inode s hn chunk _ _ b hb s' inode' hadd =>
    exact ⟨disk_allocateContiguousBlocks _ _ s, h.allocated Nat.one_pos hb hadd⟩
  | case6 => exact ⟨rfl, h⟩
  | case7 => exact ⟨rfl, h⟩

theorem reaches_writeBlocks (data : List Byte) (h : inode.High) (ls : List Nat) (d : Disk) :
    Reaches d (writeBlocks data inode ls d).2 := by
  induction ls generalizing d with
  | nil => exact .refl d
  | cons l ls ih =>
    unfold writeBlocks
    split
    · exact .refl d
    · rename_i b hb
      split
      · exact .refl d
      · rename_i d' hw
        exact (Reaches.sector (h.getPhysicalBlock hb) hw).trans (ih d')

theorem reaches_writeFile (k : Nat) (inode : Inode) (data : List Byte) (s : FsState) :
    Reaches s.disk (writeFile k inode data s).2.disk := by
  unfold writeFile
  dsimp only
  split_ifs
  · exact reaches_writeInode _ _ _
  · have hfree := reaches_freeExtents inode s
    have ha := allocateBlocks_high ((data.length + 512 - 1) / 512) inode.high_clearExtents (freeExtents inode s)
    split
    · grind
    · rename_i inode1 s1 h
      rw [h] at ha
      rw [← ha.1] at hfree
      have hb := hfree.trans (reaches_writeBlocks data ha.2 (List.range ((data.length + 512 - 1) / 512)) s1.disk)
      split
      · rename_i d h
        rwa [h] at hb
      · rename_i d h
        rw [h] at hb
        refine hb.trans ?_
        split_ifs
        · exact Reaches.trans (reaches_writeInode _ _ d)
            (reaches_fsSync { s1 with disk := (writeInode k _ d).2, clock := _ })
        · exact reaches_writeInode _ _ d

theorem reaches_fsWrite (name : String) (data : List Byte) (s : FsState) :
    Reaches s.disk (fsWrite name data s).2.disk := by
  unfold fsWrite
  split
  · exact reaches_writeFile _ _ _ _
  · have hc := reaches_fsCreate name s
    split
    · rename_i s' h
      rwa [h] at hc
    · rename_i s' h
      rw [h] at hc
      split
      · exact hc.trans (reaches_writeFile _ _ _ _)
      · exact hc

theorem reaches_fsDelete (name : String) (s : FsState) : Reaches s.disk (fsDelete name s).2.disk := by
  unfold fsDelete
  split
  · exact .refl _
  · rename_i k inode _
    dsimp only
    refine (reaches_freeExtents inode s).trans (Reaches.trans ?_ (reaches_writeInode _ _ _))
    split_ifs
    · exact reaches_freeBlock _ _
    · exact .refl _

theorem reaches_exec (s : FsState) (c : Call) : Reaches s.disk (exec s c).disk := by
  cases c with
  | format => exact reaches_fsFormat s
  | mount => exact disk_fsMount s ▸ .refl _
  | unmount | sync => exact reaches_fsSync s
  | create name => exact reaches_fsCreate name s
  | write name data => exact reaches_fsWrite name data s
  | delete name => exact reaches_fsDelete name s

theorem exec_moves (s : FsState) (c : Call) : ∃ ms, run FsState.move s ms = exec s c := by
  obtain ⟨ws, hws⟩ := reaches_exec s c
  have hdisk : ∀ (ws : List DiskWrite) (s : FsState),
      run FsState.move s (ws.map .disk) = { s with disk := run Disk.apply s.disk ws } := by
    intro ws
    induction ws with
    | nil => exact fun s => rfl
    | cons w ws ih => exact fun s => ih _
  refine ⟨ws.map .disk ++ [.memory (exec s c).psychicFs (exec s c).clock], ?_⟩
  rw [run_append, hdisk, hws]
  rfl

/-! ### Crashes -/

def Saved (s : FsState) : Prop :=
  ∀ pfs, s.psychicFs = some pfs → pfs.blockBitmap = diskBitmap s.disk ∧ pfs.superblock = diskSuperblock s.disk

def Unmarked (d₀ d : Disk) : Prop := d.sectors 0 = d₀.sectors 0 ∨ (diskSuperblock d).dirty = 0

variable {d₀ : Disk}

theorem Unmarked.apply {d : Disk} (h : Unmarked d₀ d) (w : DiskWrite) : Unmarked d₀ (d.apply w) := by
  cases w with
  | superblock sb hd =>
    right
    simp [diskSuperblock, Disk.apply, bytesToSuperblock_superblockToBytes, hd]
  | sector n hn buffer =>
    have hsame : (d.setSector n buffer).sectors 0 = d.sectors 0 := by simp [hn.symm]
    simpa only [Unmarked, diskSuperblock, Disk.apply, hsame] using h

theorem Unmarked.move (h : Unmarked d₀ s.disk) (m : Move) : Unmarked d₀ (s.move m).disk := by
  cases m with
  | memory psychicFs clock => exact h
  | disk w => exact h.apply w

theorem Saved.remounts {pfs : PsychicFs} (hs : Saved s) (h : Ready s pfs) : Remounts s := by
  obtain ⟨hb, hsu⟩ := hs pfs h.fs_eq
  unfold Remounts
  rw [remount_counts h, h.fs_eq, ← hb, ← hsu, ite_self, ite_self]
  rfl

end AstralOS.Fs
