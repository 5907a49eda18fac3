import AstralOS.Fs.Inode

/-!
# The on-disk records

A sector has 512 bytes.  An inode slot has 128 of them, the superblock takes a sector of its own; both are the
`repr(C)` images of the records, so the fields stand at the offsets the alignment rules give (an extent takes 12
bytes, two of them padding after each 16-bit field).  Reading a record back gives the record that was written
(`bytesToInode_inodeToBytes`, `bytesToSuperblock_superblockToBytes`).
-/

namespace AstralOS.Fs

abbrev Sector := Vector Byte 512

def fsMagic : BitVec 32 := 0x50535946
def fsVersion : BitVec 16 := 3

/-- The superblock.  The padding field `_reserved` is left out: it is zero and nothing reads it. -/
structure Superblock where
  magic : BitVec 32
  version : BitVec 16
  totalBlocks : BitVec 32
  freeBlocks : BitVec 32
  totalInodes : BitVec 32
  freeInodes : BitVec 32
  firstDataBlock : BitVec 32
  blockSize : BitVec 16
  dirty : BitVec 8
deriving DecidableEq

/-! ### Inodes -/

def extentFields (e : Extent) : List (Nat × Nat) :=
  [(2, e.logicalBlock.toNat), (2, 0), (4, e.physicalBlock.toNat), (2, e.count.toNat), (2, 0)]

def inodeFields (inode : Inode) : List (Nat × Nat) :=
  [(1, inode.inUse.toNat), (1, inode.fileType.toNat), (2, inode.permissions.toNat), (4, inode.size.toNat),
    (8, inode.createdTime.toNat), (8, inode.modifiedTime.toNat)] ++
  extentFields inode.extents[0] ++ extentFields inode.extents[1] ++
  extentFields inode.extents[2] ++ extentFields inode.extents[3] ++
  [(4, inode.extentIndirect.toNat), (2, inode.lastExtentIdx.toNat), (2, inode.extentCount.toNat)]

def inodeToBytes (inode : Inode) : List Byte := record (inodeFields inode) ++ inode.name.toList

def bytesToExtent (bytes : List Byte) (off : Nat) : Extent where
  logicalBlock := BitVec.ofNat 16 (field bytes off 2)
  physicalBlock := BitVec.ofNat 32 (field bytes (off + 4) 4)
  count := BitVec.ofNat 16 (field bytes (off + 8) 2)

def bytesToInode (bytes : List Byte) : Inode where
  inUse := BitVec.ofNat 8 (field bytes 0 1)
  fileType := BitVec.ofNat 8 (field bytes 1 1)
  permissions := BitVec.ofNat 16 (field bytes 2 2)
  size := BitVec.ofNat 32 (field bytes 4 4)
  createdTime := BitVec.ofNat 64 (field bytes 8 8)
  modifiedTime := BitVec.ofNat 64 (field bytes 16 8)
  extents := #v[bytesToExtent bytes 24, bytesToExtent bytes 36, bytesToExtent bytes 48, bytesToExtent bytes 60]
  extentIndirect := BitVec.ofNat 32 (field bytes 72 4)
  lastExtentIdx := BitVec.ofNat 16 (field bytes 76 2)
  extentCount := BitVec.ofNat 16 (field bytes 78 2)
  name := Vector.ofFn fun i => bytes.getD (80 + i.val) 0

theorem length_inodeToBytes (inode : Inode) : (inodeToBytes inode).length = 128 := by
  simp [inodeToBytes, length_record, inodeFields, extentFields]

theorem ofNat_toNat_mod {w m : Nat} (x : BitVec w) (h : m = 2 ^ w) : BitVec.ofNat w (x.toNat % m) = x := by
  apply BitVec.eq_of_toNat_eq
  simp [h]

theorem bytesToInode_inodeToBytes (inode : Inode) : bytesToInode (inodeToBytes inode) = inode := by
  have hlen : (record (inodeFields inode)).length = 80 := by
    simp [length_record, inodeFields, extentFields]
  have hname : (Vector.ofFn fun i : Fin 48 => (inodeToBytes inode).getD (80 + i.val) 0) = inode.name := by
    grind [inodeToBytes, Nat.add_sub_cancel_left]
  have hext : (#v[bytesToExtent (inodeToBytes inode) 24, bytesToExtent (inodeToBytes inode) 36,
      bytesToExtent (inodeToBytes inode) 48, bytesToExtent (inodeToBytes inode) 60] : Vector Extent 4) =
      inode.extents := by
    have h0 : bytesToExtent (inodeToBytes inode) 24 = inode.extents[0] := by
      simp [bytesToExtent, inodeToBytes, inodeFields, extentFields, field_record_tail, field_record_head,
        ofNat_toNat_mod]
    have h1 : bytesToExtent (inodeToBytes inode) 36 = inode.extents[1] := by
      simp [bytesToExtent, inodeToBytes, inodeFields, extentFields, field_record_tail, field_record_head,
        ofNat_toNat_mod]
    have h2 : bytesToExtent (inodeToBytes inode) 48 = inode.extents[2] := by
      simp [bytesToExtent, inodeToBytes, inodeFields, extentFields, field_record_tail, field_record_head,
        ofNat_toNat_mod]
    have h3 : bytesToExtent (inodeToBytes inode) 60 = inode.extents[3] := by
      simp [bytesToExtent, inodeToBytes, inodeFields, extentFields, field_record_tail, field_record_head,
        ofNat_toNat_mod]
    rw [h0, h1, h2, h3]
    apply Vector.ext
    intro i hi
    match i, hi with
    | 0, _ => rfl
    | 1, _ => rfl
    | 2, _ => rfl
    | 3, _ => rfl
  unfold bytesToInode
  rw [hname, hext]
  simp [inodeToBytes, inodeFields, extentFields, field_record_tail, field_record_head, ofNat_toNat_mod]

/-! ### The superblock -/

def superblockFields (sb : Superblock) : List (Nat × Nat) :=
  [(4, sb.magic.toNat), (2, sb.version.toNat), (2, 0), (4, sb.totalBlocks.toNat), (4, sb.freeBlocks.toNat),
    (4, sb.totalInodes.toNat), (4, sb.freeInodes.toNat), (4, sb.firstDataBlock.toNat), (2, sb.blockSize.toNat),
    (1, sb.dirty.toNat)]

def superblockToBytes (sb : Superblock) : Sector :=
  splice (Vector.replicate 512 0) 0 (record (superblockFields sb))

def bytesToSuperblock (buffer : Sector) : Superblock :=
  let bytes := slice buffer 0 31
  { magic := BitVec.ofNat 32 (field bytes 0 4)
    version := BitVec.ofNat 16 (field bytes 4 2)
    totalBlocks := BitVec.ofNat 32 (field bytes 8 4)
    freeBlocks := BitVec.ofNat 32 (field bytes 12 4)
    totalInodes := BitVec.ofNat 32 (field bytes 16 4)
    freeInodes := BitVec.ofNat 32 (field bytes 20 4)
    firstDataBlock := BitVec.ofNat 32 (field bytes 24 4)
    blockSize := BitVec.ofNat 16 (field bytes 28 2)
    dirty := BitVec.ofNat 8 (field bytes 30 1) }

theorem bytesToSuperblock_superblockToBytes (sb : Superblock) :
    bytesToSuperblock (superblockToBytes sb) = sb := by
  have hlen : (record (superblockFields sb)).length = 31 := by
    simp [length_record, superblockFields]
  obtain ⟨rest, hs⟩ : ∃ rest, slice (superblockToBytes sb) 0 31 = record (superblockFields sb) ++ rest := by
    refine ⟨[], ?_⟩
    exact slice_splice_same _ 0 _ (by omega)
  simp [bytesToSuperblock, hs, superblockFields, field_record_tail, field_record_head, ofNat_toNat_mod]

end AstralOS.Fs
