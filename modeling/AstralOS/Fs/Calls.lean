import AstralOS.Lib.Run
import AstralOS.Fs.Alloc
import AstralOS.Fs.Contents

/-!
# The calls of PsychicFS

What each call does on a sound disk, whatever the state of the bitmap: one lemma a call that lists its results
(`fsCreate_cases`, `writeFile_cases`, `fsWrite_cases`, `fsDelete_cases`).  From them follows the invariant of all
runs (`Inv`): the disk keeps its superblock, a mounted file system keeps its geometry, and every inode in use has
extents of data blocks that match its size.
-/

namespace AstralOS.Fs

open List

/-- A call of the file system interface. -/
inductive Call where
  | format
  | mount
  | unmount
  | sync
  | create (name : String)
  | write (name : String) (data : List Byte)
  | delete (name : String)

def exec (s : FsState) : Call → FsState
  | .format => (fsFormat s).2
  | .mount => (fsMount s).2
  | .unmount => fsUnmount s
  | .sync => fsSync s
  | .create name => (fsCreate name s).2
  | .write name data => (fsWrite name data s).2
  | .delete name => (fsDelete name s).2

def formatMount (s : FsState) : FsState := (fsMount (fsFormat s).2).2

/-! ### The invariant -/

/-- The extents of the inode cover data blocks, as many as its size needs. -/
structure FileOk (inode : Inode) : Prop where
  runs : ∃ runs, inode.HasRuns runs
  bounds : ∀ b ∈ inode.blocks, 128 ≤ b ∧ b < 8192
  length : inode.blocks.length = (inode.size.toNat + 512 - 1) / 512

def FilesOk (d : Disk) : Prop := ∀ k, k < 256 → (inodeAt d k).inUse ≠ 0 → FileOk (inodeAt d k)

/-- What holds in every state reached by calls. -/
structure Inv (s : FsState) : Prop extends Formatted s.disk where
  ready : ∀ pfs, s.psychicFs = some pfs → Ready s pfs
  files : FilesOk s.disk

variable {s : FsState} {pfs : PsychicFs} {inode : Inode} {name : String} {k : Nat}

variable {d d' : Disk}

theorem FilesOk.congr (h : FilesOk d) (heq : ∀ k, k < 256 → inodeAt d' k = inodeAt d k) : FilesOk d' := by
  intro k hk hu
  rw [heq k hk] at hu ⊢
  exact h k hk hu

theorem FilesOk.setInode (h : FilesOk d) (hi : inode.inUse ≠ 0 → FileOk inode) : FilesOk (d.setInode k inode) := by
  intro j hj hu
  rw [inodeAt_setInode] at hu ⊢
  split at hu
  · grind
  · rename_i hjk
    rw [if_neg hjk]
    exact h j hj hu

theorem FilesOk.sameFiles (h : FilesOk d) (hs : SameFiles d d') : FilesOk d' :=
  h.congr fun _ hk => hs.inodeAt_eq hk

theorem Formatted.congr (h : Formatted d) (hs : d'.Sound) (h0 : d'.sectors 0 = d.sectors 0) : Formatted d' :=
  ⟨hs, by unfold diskSuperblock; rw [h0]; exact h.good⟩

theorem Formatted.setInode (h : Formatted d) (hk : k < 256) (inode : Inode) : Formatted (d.setInode k inode) :=
  h.congr (h.sound.setInode k inode) (Disk.sectors_setInode hk (Or.inl rfl) inode)

theorem Ready.setDisk (h : Ready s pfs) (hd : Formatted d) (clock : Nat → BitVec 64) :
    Ready { s with disk := d, clock := clock } pfs :=
  ⟨hd, h.fs_eq, h.mounted, h.super⟩

theorem Inv.setInode (h : Inv s) (hk : k < 256) (hi : inode.inUse ≠ 0 → FileOk inode) (clock : Nat → BitVec 64) :
    Inv { s with disk := s.disk.setInode k inode, clock := clock } where
  toFormatted := h.toFormatted.setInode hk inode
  ready := fun pfs hpfs => (h.ready pfs hpfs).setDisk (h.toFormatted.setInode hk inode) clock
  files := h.files.setInode hi

theorem Ready.inv (h : Ready s pfs) (hf : FilesOk s.disk) : Inv s where
  toFormatted := h.toFormatted
  ready := fun pfs' hpfs' => by
    obtain rfl : pfs = pfs' := Option.some.inj (h.fs_eq.symm.trans hpfs')
    exact h
  files := hf

theorem Inv.fileOk (h : Inv s) (hn : Named s.disk k name) : FileOk (inodeAt s.disk k) :=
  h.files k hn.1 hn.2.1

theorem FileOk.hasRuns_nil (h : FileOk inode) (hb : inode.blocks = []) : inode.HasRuns [] := by
  obtain ⟨runs, hr⟩ := h.runs
  cases runs with
  | nil => exact hr
  | cons r runs =>
    have hpos := hr.pos r (by simp)
    have hlen := congrArg List.length hr.blocks_eq
    grind [length_blocksOf, total_cons]

theorem Inode.HasRuns.fileOk_nil (h : inode.HasRuns []) (hsize : inode.size = 0) : FileOk inode := by
  have hb : inode.blocks = [] := h.blocks_eq
  refine ⟨⟨[], h⟩, by simp [hb], ?_⟩
  rw [hb, hsize]
  rfl

/-! ### Format and mount -/

theorem clearInodeTable_eq (hd : d.Sound) (n : Nat) (hn : n ≤ 64) :
    ∃ d', clearInodeTable (List.range n) d = (true, d') ∧ d'.Sound ∧
      ∀ m, d'.sectors m = if 1 ≤ m ∧ m ≤ n then emptySector else d.sectors m := by
  have key : ∀ (l : List Nat) (d : Disk), d.Sound → (∀ i ∈ l, i < 64) →
      ∃ d', clearInodeTable l d = (true, d') ∧ d'.Sound ∧
        ∀ m, d'.sectors m = if ∃ i ∈ l, m = 1 + i then emptySector else d.sectors m := by
    intro l
    induction l with
    | nil => intro d hd _; exact ⟨d, rfl, hd, by simp⟩
    | cons i l ih =>
      intro d hd hl
      obtain ⟨d', heq, hs, hsec⟩ := ih (d.setSector (1 + i) emptySector) (hd.setSector _ _)
        fun j hj => hl j (by simp [hj])
      refine ⟨d', ?_, hs, ?_⟩
      · have := hl i (by simp)
        rw [clearInodeTable, hd.diskWriteSector_eq (by omega)]
        exact heq
      · intro m
        rw [hsec m, Disk.sectors_setSector]
        by_cases hm : ∃ j ∈ l, m = 1 + j
        · obtain ⟨j, hj, rfl⟩ := hm
          rw [if_pos ⟨j, hj, rfl⟩, if_pos ⟨j, by simp [hj], rfl⟩]
        · rw [if_neg hm]
          by_cases hmi : m = 1 + i
          · rw [if_pos hmi, if_pos ⟨i, by simp, hmi⟩]
          · rw [if_neg hmi, if_neg]
            rintro ⟨j, hj, hmj⟩
            rcases mem_cons.1 hj with rfl | hj
            · exact hmi hmj
            · exact hm ⟨j, hj, hmj⟩
  obtain ⟨d', heq, hs, hsec⟩ := key (range n) d hd fun i hi => by have := mem_range.1 hi; omega
  refine ⟨d', heq, hs, fun m => ?_⟩
  rw [hsec m]
  congr 1
  apply propext
  constructor
  · grind
  · intro h
    exact ⟨m - 1, mem_range.2 (by omega), by omega⟩

theorem inUse_inodeOfSector_empty {i : Nat} (hi : i < 4) : (inodeOfSector emptySector i).inUse = 0 := by
  have hs : slice emptySector (i * 128) 128 = replicate 128 0 := by
    apply ext_getElem
    · simp
    · intro j h1 h2
      simp only [length_slice] at h1
      rw [getElem_replicate]
      simp only [slice, getElem_map, getElem_range]
      rw [byteAt_of_lt _ (by omega)]
      simp [emptySector]
  rw [inodeOfSector, hs]
  rfl

theorem fsFormat_spec (hd : s.disk.Sound) :
    ∃ d, fsFormat s = (true, { s with disk := d }) ∧ Formatted d ∧ diskSuperblock d = formatSuperblock ∧
      (∀ k, k < 256 → (inodeAt d k).inUse = 0) ∧ d.sectors 65 = emptySector ∧ d.sectors 66 = emptySector := by
  obtain ⟨d, hc, hs, hsec⟩ := clearInodeTable_eq (hd.setSector 0 (superblockToBytes formatSuperblock)) 64 (by omega)
  have hgood : diskSuperblock ((d.setSector 65 emptySector).setSector 66 emptySector) = formatSuperblock := by
    unfold diskSuperblock
    simp [hsec, bytesToSuperblock_superblockToBytes]
  refine ⟨(d.setSector 65 emptySector).setSector 66 emptySector, ?_, ?_, hgood, ?_, by simp, by simp⟩
  · unfold fsFormat
    rw [hd.1, hd.diskWriteSector_eq (by omega)]
    simp only [Bool.not_true, Bool.false_eq_true, ↓reduceIte, hc, hs.diskWriteSector_eq (show 65 < 8192 by omega),
      (hs.setSector 65 emptySector).diskWriteSector_eq (show 65 + 1 < 8192 by omega)]
  · refine ⟨(hs.setSector _ _).setSector _ _, ?_⟩
    rw [hgood]
    exact ⟨rfl, rfl⟩
  · intro k hk
    rw [inodeAt_setSector hk (by omega), inodeAt_setSector hk (by omega), inodeAt, hsec, if_pos (by omega)]
    exact inUse_inodeOfSector_empty (by omega)

def mountedFs (d : Disk) : PsychicFs where
  mounted := true
  superblock := { diskSuperblock d with dirty := 1 }
  blockBitmap := diskBitmap d
  bitmapDirty := false
  superblockDirty := true

theorem fsMount_eq (h : Formatted s.disk) :
    fsMount s = (true, { s with psychicFs := some (mountedFs s.disk) }) := by
  have hm := h.good.magic
  unfold fsMount
  rw [h.sound.1, h.sound.diskReadSector_eq (by omega)]
  simp only [Bool.not_true, Bool.false_eq_true, ↓reduceIte]
  rw [if_neg (by simpa [diskSuperblock] using hm)]
  unfold PsychicFs.readBitmapFromDisk
  rw [h.sound.diskReadSector_eq (by omega), h.sound.diskReadSector_eq (by omega)]
  rfl

theorem fsMount_ready (h : Formatted s.disk) : Ready (fsMount s).2 (mountedFs s.disk) := by
  rw [fsMount_eq h]
  exact ⟨h, rfl, rfl, ⟨h.good.magic, h.good.total⟩⟩

/-! ### Creating a file -/

def Creatable (d : Disk) (name : String) : Prop :=
  (strBytes name).length < 48 ∧ (∀ k, ¬ Named d k name) ∧ ∃ k, k < 256 ∧ (inodeAt d k).inUse = 0

def newFile (name : String) (created modified : BitVec 64) : Inode :=
  { Inode.new.setName name with inUse := 1, createdTime := created, modifiedTime := modified }

theorem hasRuns_newFile (name : String) (t t' : BitVec 64) : (newFile name t t').HasRuns [] :=
  Inode.hasRuns_new.congr rfl rfl rfl rfl

theorem fileOk_newFile (name : String) (t t' : BitVec 64) : FileOk (newFile name t t') :=
  (hasRuns_newFile name t t').fileOk_nil rfl

theorem getName_newFile {t t' : BitVec 64} (hlen : (strBytes name).length < 48) (hnul : (0 : Byte) ∉ strBytes name) :
    (newFile name t t').getName = name :=
  Inode.getName_setName Inode.new hlen hnul

theorem fsCreate_cases (hd : s.disk.Sound) (name : String) :
    (¬ Creatable s.disk name ∧ fsCreate name s = (false, s)) ∨
    (Creatable s.disk name ∧ ∃ k, k < 256 ∧ (inodeAt s.disk k).inUse = 0 ∧
      fsCreate name s = (true, { s with disk := s.disk.setInode k (newFile name (s.clock 0) (s.clock 1)),
                                        clock := fun n => s.clock (n + 2) })) := by
  unfold fsCreate
  by_cases hlen : (strBytes name).length ≥ 48
  · left
    rw [if_pos hlen]
    exact ⟨fun h => by have := h.1; omega, rfl⟩
  rw [if_neg hlen]
  rcases findInodeByName_cases hd name with ⟨k, hn, hfind⟩ | ⟨hnone, hfind⟩
  · left
    rw [hfind, Option.isSome_some, if_pos rfl]
    exact ⟨fun h => h.2.1 k hn, rfl⟩
  rw [hfind, Option.isSome_none, if_neg (by simp)]
  rcases findFreeInode_cases hd with ⟨k, hk, hfree, hslot⟩ | ⟨hfull, hslot⟩
  · right
    refine ⟨⟨by omega, hnone, k, hk, hfree⟩, k, hk, hfree, ?_⟩
    simp only [hslot]
    rw [writeInode_eq hd hk]
    rfl
  · left
    simp only [hslot, and_true]
    rintro ⟨-, -, k, hk, hu⟩
    exact hfull k hk hu

/-! ### Writing a file -/

theorem Outcome.Valid.bounds {o : Outcome} {c : Counts} (ho : o.Valid c k) (hk : 0 < k) {bs : List Nat}
    (hbs : o.blocks k = some bs) : (∀ b ∈ bs, 128 ≤ b ∧ b < 8192) ∧ bs.length = k := by
  cases o with
  | full => cases hbs
  | noSlot b r => cases hbs
  | run r =>
    obtain rfl : _ = bs := Option.some.inj hbs
    have := Counts.IsRun.bounds ho.1 hk
    simp [mem_range'_1]
    omega
  | split b j r =>
    obtain ⟨h1, h3, hjk, hs, hr⟩ := ho
    obtain rfl : _ = bs := Option.some.inj hbs
    have hb1 := Counts.IsRun.bounds hs.first.1 Nat.one_pos
    have hb2 := Counts.IsRun.bounds hr.1 (by omega)
    refine ⟨fun x hx => ?_, by simp; omega⟩
    rcases mem_append.1 hx with hx | hx
    · grind
    · rw [mem_range'_1] at hx
      omega

def written (s : FsState) (k : Nat) (inode : Inode) (data : List Byte) : FsState :=
  fsSync { s with
    disk := (storeBlocks data inode.blocks (List.range inode.blocks.length) s.disk).setInode k inode
    clock := fun n => s.clock (n + 1) }

/-- The old blocks of a file have been released. -/
structure Released (s : FsState) (pfs : PsychicFs) (inode : Inode) (s₁ : FsState) (pfs₁ : PsychicFs) : Prop where
  ready : Ready s₁ pfs₁
  counts : pfs₁.counts = inode.blocks.foldl Counts.release pfs.counts
  files : SameFiles s.disk s₁.disk
  clock : s₁.clock = s.clock
  nil : inode.blocks = [] → s₁ = s ∧ pfs₁ = pfs
  state : s₁ = freeExtents inode s

theorem freeExtents_released (h : Ready s pfs) (hok : FileOk inode) :
    ∃ pfs1, Released s pfs inode (freeExtents inode s) pfs1 := by
  obtain ⟨runs, hr⟩ := hok.runs
  have hf := freeExtents_spec h hr
  obtain ⟨pfs1, hre, hc⟩ := hf.ready
  refine ⟨pfs1, hre, by rw [hc, hr.blocks_eq], hf.files, hf.clock, fun hnil => ?_, rfl⟩
  have hs := freeExtents_nil (hok.hasRuns_nil hnil) s
  refine ⟨hs, ?_⟩
  have := hre.fs_eq
  simp_all [h.fs_eq]

theorem blocksNeeded_pos {data : List Byte} (hdata : data ≠ []) : 0 < (data.length + 512 - 1) / 512 := by
  have := length_pos_iff.2 hdata
  omega

/-- Writing data of `n` blocks, `n` positive: the old blocks are freed, and then the allocation fails or the file is
written to the blocks it hands out.  Which of the two, and which blocks, depends on `n` but not on the data. -/
theorem writeFile_cases (h : Ready s pfs) (hk : k < 256) (hok : FileOk inode) {n : Nat} (hn : 0 < n) :
    ∃ s1 pfs1 o, Released s pfs inode s1 pfs1 ∧ Outcome.Valid pfs1.counts n o ∧
      ∀ data : List Byte, (data.length + 512 - 1) / 512 = n →
        (o.blocks n = none ∧
          writeFile k inode data s = (false, s1.withCounts pfs1 (o.counts pfs1.counts n))) ∨
        (∃ inode', o.blocks n = some inode'.blocks ∧ FileOk inode' ∧ inode'.size.toNat = data.length ∧
          inode'.name = inode.name ∧ inode'.inUse = inode.inUse ∧
          writeFile k inode data s = (true, written (s1.withCounts pfs1 (o.counts pfs1.counts n)) k inode' data)) := by
  obtain ⟨pfs1, hrel⟩ := freeExtents_released h hok
  obtain ⟨o, hv, hends⟩ := allocateBlocks_spec hrel.ready (inode.hasRuns_clearExtents) hn
  refine ⟨_, pfs1, o, hrel, hv, ?_⟩
  intro data hlen
  unfold writeFile
  simp only [hlen]
  rw [if_neg (by omega)]
  generalize hres : allocateBlocks n inode.clearExtents (freeExtents inode s) = res at hends
  obtain ⟨ok, inode1, s2⟩ := res
  have hs2 : s2 = (freeExtents inode s).withCounts pfs1 (o.counts pfs1.counts n) := hends.state
  cases hbs : o.blocks n with
  | none =>
    left
    obtain rfl : ok = false := hends.fail hbs
    exact ⟨rfl, by rw [hs2]⟩
  | some bs =>
    right
    obtain ⟨hok1, hsame, runs, hruns, hbl⟩ := hends.ok bs hbs
    simp only at hok1 hsame hruns
    subst hok1
    obtain ⟨hbo, hbsl⟩ := hv.bounds hn hbs
    have hbs1 : inode1.blocks = bs := hruns.blocks_eq.trans hbl
    have hsize : data.length < 2 ^ 32 := by
      have := hruns.total_lt
      rw [← length_blocksOf, hbl] at this
      omega
    have hs : s2.disk.Sound := by rw [hs2]; exact hrel.ready.sound
    generalize hi : ({ inode1 with
      size := BitVec.ofNat 32 data.length, modifiedTime := s2.clock 0 } : Inode) = inode'
    have hbs' : inode'.blocks = bs := by rw [← hi]; exact hbs1
    have hruns' : inode'.HasRuns runs := hruns.congr (by rw [← hi]) (by rw [← hi]) (by rw [← hi])
      (by rw [← hi])
    have hsize' : inode'.size.toNat = data.length := by
      grind
    have hhead : inode'.name = inode.name ∧ inode'.inUse = inode.inUse := by
      rw [← hi, hsame]
      exact ⟨rfl, rfl⟩
    refine ⟨inode', by rw [hbs'], ⟨⟨runs, hruns'⟩, by rw [hbs']; exact hbo, by rw [hbs', hbsl, hsize', hlen]⟩,
      hsize', hhead.1, hhead.2, ?_⟩
    have hls : ∀ l ∈ range n, l < inode1.blocks.length := by
      simp [hbs1, hbsl]
    have hw := writeBlocks_eq hs hruns (by rw [hbs1]; exact fun b hb => (hbo b hb).2) data hls
    simp only [hw, hi]
    rw [writeInode_eq (hs.storeBlocks _ _ _) hk]
    grind [written]

end AstralOS.Fs
