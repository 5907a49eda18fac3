import AstralOS.Fs.Reach

/-!
# Clean file systems

A file system is clean as long as no block has been marked and no file has blocks, in memory and on disk.  It is so
after formatting and mounting (`clean_formatMount`), and every call keeps it so except a write of data to a file
that exists or can be created (`Clean.exec`).  Such a write goes to the blocks from 128 on, or fails after block 128
has been handed out four times (`Clean.writeFile_cases`).
-/

namespace AstralOS.Fs

variable {s : FsState} {pfs : PsychicFs} {inode : Inode} {name : String} {k : Nat} {data : List Byte}

/-- No block is marked and no file has blocks, in memory and on disk. -/
structure Clean (s : FsState) (pfs : PsychicFs) : Prop where
  inv : Inv s
  ready : Ready s pfs
  bitmap : ∀ i, pfs.blockBitmap.test i = false
  free : pfs.superblock.freeBlocks = 8064
  flag : pfs.bitmapDirty = false
  onDisk : ∀ i, (diskBitmap s.disk).test i = false
  freeOnDisk : (diskSuperblock s.disk).freeBlocks = 8064
  noBlocks : ∀ k, k < 256 → (inodeAt s.disk k).inUse ≠ 0 → (inodeAt s.disk k).blocks = []

def Call.Allocates (s : FsState) : Call → Prop
  | .write name data =>
    data ≠ [] ∧ ((∃ k, Named s.disk k name) ∨ (Creatable s.disk name ∧ (0 : Byte) ∉ strBytes name))
  | _ => False

/-! ### A fresh file system -/

theorem diskBitmap_empty {d : Disk} (h1 : d.sectors 65 = emptySector) (h2 : d.sectors 66 = emptySector) :
    diskBitmap d = Vector.replicate 1024 0 := by
  have hz : ∀ i, i < 512 → byteAt emptySector i = 0 := by
    intro i hi
    rw [byteAt_of_lt _ hi]
    simp [emptySector]
  apply Vector.ext
  intro i hi
  unfold diskBitmap
  rw [Vector.getElem_ofFn, Vector.getElem_replicate, h1, h2]
  split
  · exact hz i ‹_›
  · exact hz _ (by omega)

theorem clean_formatMount (hd : s.disk.Sound) :
    (∃ pfs, Clean (formatMount s) pfs) ∧ ∀ k, k < 256 → (inodeAt (formatMount s).disk k).inUse = 0 := by
  have hinv := inv_formatMount hd
  obtain ⟨d, heq, hf, hsb, hfree, h65, h66⟩ := fsFormat_spec hd
  have hs : formatMount s = { s with disk := d, psychicFs := some (mountedFs d) } := by
    unfold formatMount
    rw [heq, fsMount_eq hf]
  have hb : ∀ i, (diskBitmap d).test i = false := by
    intro i
    rw [diskBitmap_empty h65 h66]
    exact Bitmap.test_replicate_zero (by omega) i
  have hnone : ∀ k, k < 256 → (inodeAt (formatMount s).disk k).inUse = 0 := by
    rw [hs]
    exact hfree
  refine ⟨⟨mountedFs d, hinv, hinv.ready _ (by rw [hs]), hb, ?_, rfl, by rw [hs]; exact hb, ?_, ?_⟩,
    hnone⟩
  · unfold mountedFs
    rw [hsb]
    rfl
  · rw [hs, hsb]
    rfl
  · simp_all

def blankState : FsState := ⟨⟨true, fun _ => emptySector, fun _ => false⟩, none, fun _ => 0⟩

theorem sound_blankState : blankState.disk.Sound := ⟨rfl, fun _ _ => rfl⟩

/-! ### Calls that keep it clean -/

theorem diskBitmap_setInode {d : Disk} (hk : k < 256) (inode : Inode) :
    diskBitmap (d.setInode k inode) = diskBitmap d := by
  unfold diskBitmap
  rw [Disk.sectors_setInode hk (by omega), Disk.sectors_setInode hk (by omega)]

theorem diskSuperblock_setInode {d : Disk} (hk : k < 256) (inode : Inode) :
    diskSuperblock (d.setInode k inode) = diskSuperblock d := by
  unfold diskSuperblock
  rw [Disk.sectors_setInode hk (by omega)]

section

variable (h : Clean s pfs)
include h

theorem Clean.setInode (hk : k < 256) (hi : inode.inUse ≠ 0 → FileOk inode)
    (hb : inode.inUse ≠ 0 → inode.blocks = []) (clock : Nat → BitVec 64) :
    Clean { s with disk := s.disk.setInode k inode, clock := clock } pfs where
  inv := h.inv.setInode hk hi clock
  ready := h.ready.setDisk (h.inv.toFormatted.setInode hk inode) clock
  bitmap := h.bitmap
  free := h.free
  flag := h.flag
  onDisk := by
    simp only [diskBitmap_setInode hk]
    exact h.onDisk
  freeOnDisk := by
    simp only [diskSuperblock_setInode hk]
    exact h.freeOnDisk
  noBlocks := by
    intro j hj hu
    simp only [inodeAt_setInode] at hu ⊢
    split at hu
    · rename_i hjk
      rw [if_pos hjk]
      exact hb hu
    · rename_i hjk
      rw [if_neg hjk]
      exact h.noBlocks j hj hu

theorem Clean.created (hk : k < 256) (name : String) : Clean (created k name s) pfs :=
  h.setInode hk (fun _ => fileOk_newFile _ _ _) (fun _ => (hasRuns_newFile _ _ _).blocks_eq) _

theorem Clean.fsCreate (name : String) : Clean (fsCreate name s).2 pfs := by
  rcases fsCreate_cases h.inv.sound name with ⟨-, heq⟩ | ⟨-, k, hk, -, heq⟩
  · rw [heq]; exact h
  · rw [heq]; exact h.created hk name

theorem Clean.fsSync : Clean (fsSync s) pfs.synced := by
  have hinv := h.inv.fsSync
  have hsync := fsSync_eq h.ready
  have hfree : pfs.synced.superblock.freeBlocks = 8064 := by
    have := congrArg Counts.free pfs.counts_synced
    exact this.trans h.free
  refine ⟨hinv, hinv.ready _ (by rw [hsync]), h.bitmap, hfree, rfl, ?_, ?_, ?_⟩
  · rw [hsync]
    simp only [diskBitmap_synced, h.flag, Bool.false_eq_true, ↓reduceIte]
    exact h.onDisk
  · rw [hsync]
    simp only [diskSuperblock_synced]
    split
    · exact h.free
    · exact h.freeOnDisk
  · intro j hj hu
    rw [(SameFiles.fsSync h.inv).inodeAt_eq hj] at hu ⊢
    exact h.noBlocks j hj hu

theorem Clean.freeExtents_eq (hn : Named s.disk k name) :
    freeExtents (inodeAt s.disk k) s = s :=
  freeExtents_nil ((h.inv.fileOk hn).hasRuns_nil (h.noBlocks k hn.1 hn.2.1)) s

theorem Clean.exec {c : Call} (hon : c.Online) (hc : ¬ c.Allocates s) :
    ∃ pfs', Clean (exec s c) pfs' := by
  cases c with
  | format | mount | unmount => exact hon.elim
  | sync => exact ⟨_, h.fsSync⟩
  | create name => exact ⟨_, h.fsCreate name⟩
  | delete name =>
    simp only [Fs.exec]
    rcases fsDelete_cases h.inv name with ⟨-, heq⟩ | ⟨k, hn, heq⟩
    · rw [heq]; exact ⟨_, h⟩
    · rw [heq, h.freeExtents_eq hn]
      exact ⟨_, h.setInode hn.1 (fun hu => absurd rfl hu) (fun hu => absurd rfl hu) _⟩
  | write name data =>
    simp only [Fs.exec]
    have hem : ∀ inode : Inode, { inode with size := 0 }.clearExtents.blocks = [] :=
      fun inode => (Inode.hasRuns_clearExtents _).blocks_eq
    rcases fsWrite_cases h.inv.sound name with ⟨k, hn, -, heq⟩ | ⟨-, -, heq⟩ | ⟨hcr, hnul, k, hk, -, heq⟩
    · obtain rfl : data = [] := by
        by_contra hdata
        exact hc ⟨hdata, Or.inl ⟨k, hn⟩⟩
      rw [heq, writeFile_nil h.inv.sound hn.1]
      exact ⟨_, h.setInode hn.1 (fun _ => fileOk_emptied _) (fun _ => hem _) _⟩
    · rw [heq]
      exact ⟨_, h.fsCreate name⟩
    · obtain rfl : data = [] := by
        by_contra hdata
        exact hc ⟨hdata, Or.inr ⟨hcr, hnul⟩⟩
      have hcl := h.created hk name
      rw [heq, writeFile_nil hcl.inv.sound hk]
      exact ⟨_, hcl.setInode hk (fun _ => fileOk_emptied _) (fun _ => hem _) _⟩

end

/-! ### The first allocation -/

theorem Outcome.Valid.of_free {c : Counts} {n : Nat} {o : Outcome} (ho : o.Valid c n) (hn : 0 < n)
    (hfree : ∀ b, 128 ≤ b → b < 8192 → c.Free b) :
    (n ≤ 8064 ∧ o = .run 128) ∨ (8064 < n ∧ o = .noSlot 128 none) := by
  have hrun : ∀ m, m ≤ 8064 → IsRun c.Free m 128 := fun m hm j hj => hfree _ (by omega) (by omega)
  have hf : ∀ b, IsFirstRun c.Free 1 b → b = 128 := by
    intro b hb
    have h1 := hb.2 128 (hrun 1 (by omega))
    have h2 := Counts.IsRun.bounds hb.1 Nat.one_pos
    omega
  -- a long run would have to contain block 256, which has been marked
  have hlong : ∀ m r, 8000 ≤ m → ¬ IsRun (c.claim 128 1).Free m r := by
    intro m r hm hr
    have hb := Counts.IsRun.bounds hr (by omega)
    have h256 := hr (256 - r) (by omega)
    grind [Counts.free_claim]
  cases o with
  | full => exact absurd (hfree 128 (by omega) (by omega)) (ho 128)
  | run r =>
    have hb := Counts.IsRun.bounds ho.1 hn
    have := ho.2 128 (hrun n (by omega))
    exact Or.inl ⟨by omega, by congr; omega⟩
  | split b j r =>
    obtain ⟨h1, h3, hjn, hs, hr⟩ := ho
    obtain rfl := hf b hs.first
    have hlt : 8064 < n := by
      by_contra hle
      exact hs.none 128 (hrun n (by omega))
    exact absurd hr.1 (hlong _ r (by omega))
  | noSlot b r =>
    obtain ⟨h4, hs, hr⟩ := ho
    obtain rfl := hf b hs.first
    have hlt : 8064 < n := by
      by_contra hle
      exact hs.none 128 (hrun n (by omega))
    cases r with
    | none => exact Or.inr ⟨hlt, rfl⟩
    | some r => exact absurd hr.1 (hlong _ r (by omega))

theorem Clean.free_iff (h : Clean s pfs) (b : Nat) : pfs.counts.Free b ↔ 128 ≤ b ∧ b < 8192 := by
  exact ⟨fun hb => ⟨hb.1, hb.2.1⟩, fun hb => ⟨hb.1, hb.2, h.bitmap _⟩⟩

theorem Clean.target (h : Clean s pfs) (hc : (Call.write name data).Allocates s) :
    ∃ s0 k, Clean s0 pfs ∧ Named s0.disk k name ∧ (s0 = s ∨ (Creatable s.disk name ∧ (0 : Byte) ∉ strBytes name ∧
      (inodeAt s.disk k).inUse = 0 ∧ s0 = Fs.created k name s)) ∧
      ∀ data, fsWrite name data s = writeFile k (inodeAt s0.disk k) data s0 := by
  rcases fsWrite_cases h.inv.sound name with ⟨k, hn, -, heq⟩ | ⟨hnone, hnot, -⟩ | ⟨hcr, hnul, k, hk, hfree, heq⟩
  · exact ⟨s, k, h, hn, Or.inl rfl, heq⟩
  · rcases hc.2 with ⟨k, hn⟩ | hcr
    · exact absurd hn (hnone k)
    · exact absurd hcr hnot
  · refine ⟨Fs.created k name s, k, h.created hk name, ?_, Or.inr ⟨hcr, hnul, hfree, rfl⟩, ?_⟩
    · exact (named_created hk hfree hcr.1 hnul).2 (Or.inr ⟨rfl, rfl⟩)
    · rw [inodeAt_created]
      exact heq

theorem Clean.writeFile_cases (h : Clean s pfs) (hn : Named s.disk k name) (hdata : data ≠ []) {n : Nat}
    (hlen : (data.length + 512 - 1) / 512 = n) :
    (n ≤ 8064 ∧ (writeFile k (inodeAt s.disk k) data s).1 = true ∧
      Wrote s k (List.range' 128 n) data (pfs.counts.claim 128 n) (writeFile k (inodeAt s.disk k) data s).2) ∨
    (8064 < n ∧ writeFile k (inodeAt s.disk k) data s =
      (false, s.withCounts pfs (Outcome.claimN 128 5 pfs.counts))) := by
  have hpos : 0 < n := by
    have := blocksNeeded_pos hdata
    omega
  obtain ⟨s1, pfs1, o, hrel, hv, hc⟩ := writeFile_wrote h.inv h.ready hn.1 rfl (h.inv.fileOk hn) hpos
  obtain ⟨rfl, rfl⟩ := hrel.nil (h.noBlocks k hn.1 hn.2.1)
  rcases hv.of_free hpos fun b h1 h2 => (h.free_iff b).2 ⟨h1, h2⟩ with ⟨hle, rfl⟩ | ⟨hlt, rfl⟩
  · rcases hc data hlen with ⟨hnone, -⟩ | ⟨bs, hbs, htrue, hw⟩
    · cases hnone
    · obtain rfl : _ = bs := Option.some.inj hbs
      exact Or.inl ⟨hle, htrue, hw⟩
  · rcases hc data hlen with ⟨-, heq⟩ | ⟨bs, hbs, -⟩
    · exact Or.inr ⟨hlt, heq⟩
    · cases hbs

end AstralOS.Fs
