import AstralOS.Lib.Bitmap
import AstralOS.Lib.FirstFit
import AstralOS.Fs.Layout

/-!
# PsychicFS

The file system of the kernel, function by function.  The state is the disk, the mounted file system
(`PSYCHIC_FS`) and the readings of the system clock still to come.  Sector 0 holds the superblock, sectors 1 to 64
the inode table, sectors 65 and 66 the block bitmap, and the blocks from 128 on hold file data.  Log output is left
out, and so are the access patterns; the functions below do not touch the block cache, which has its own module.

A disk operation that fails returns `none` and leaves the disk as it was; which sectors fail is part of the disk.
-/

namespace AstralOS.Fs

/-! ### The disk -/

structure Disk where
  present : Bool
  sectors : Nat → Sector
  fails : Nat → Bool

namespace Disk

def diskReadSector (d : Disk) (sector : Nat) : Option Sector :=
  if d.fails sector then none else some (d.sectors sector)

def diskWriteSector (d : Disk) (sector : Nat) (buffer : Sector) : Option Disk :=
  if d.fails sector then none else some { d with sectors := Function.update d.sectors sector buffer }

end Disk

/-! ### The mounted file system -/

structure PsychicFs where
  mounted : Bool
  superblock : Superblock
  blockBitmap : Bitmap 8 1024
  bitmapDirty : Bool
  superblockDirty : Bool

structure FsState where
  disk : Disk
  psychicFs : Option PsychicFs
  clock : Nat → BitVec 64

namespace PsychicFs

def new : PsychicFs where
  mounted := false
  superblock := ⟨0, 0, 0, 0, 0, 0, 0, 0, 0⟩
  blockBitmap := Vector.replicate 1024 0
  bitmapDirty := false
  superblockDirty := false

section

variable (pfs : PsychicFs)

def markDirty : PsychicFs := { pfs with bitmapDirty := true, superblockDirty := true }

def writeBitmapToDisk (d : Disk) : Bool × Disk :=
  let sector1 : Sector := Vector.ofFn fun i => pfs.blockBitmap[i.val]
  match d.diskWriteSector 65 sector1 with
  | none => (false, d)
  | some d =>
    let sector2 : Sector := Vector.ofFn fun i => pfs.blockBitmap[512 + i.val]
    match d.diskWriteSector (65 + 1) sector2 with
    | none => (false, d)
    | some d => (true, d)

def readBitmapFromDisk (d : Disk) : Option PsychicFs := do
  let sector1 ← d.diskReadSector 65
  let sector2 ← d.diskReadSector (65 + 1)
  let bitmap : Bitmap 8 1024 :=
    Vector.ofFn fun i => if i.val < 512 then byteAt sector1 i.val else byteAt sector2 (i.val - 512)
  return { pfs with blockBitmap := bitmap }

def sync (d : Disk) : Bool × PsychicFs × Disk :=
  if !pfs.mounted then (true, pfs, d)
  else
    let (ok₁, pfs, d) :=
      if pfs.bitmapDirty then
        match pfs.writeBitmapToDisk d with
        | (true, d) => (true, { pfs with bitmapDirty := false }, d)
        | (false, d) => (false, pfs, d)
      else (true, pfs, d)
    let (ok₂, pfs, d) :=
      if pfs.superblockDirty then
        let pfs := { pfs with superblock := { pfs.superblock with dirty := 0 } }
        match d.diskWriteSector 0 (superblockToBytes pfs.superblock) with
        | some d => (true, { pfs with superblockDirty := false }, d)
        | none => (false, pfs, d)
      else (true, pfs, d)
    (ok₁ && ok₂, pfs, d)

/-- Whether a block is allocated; bit `b - 128` of the bitmap stands for block `b`. -/
def isBlockAllocated (blockNum : Nat) : Bool :=
  if blockNum < 128 then true
  else
    let idx := blockNum - 128
    if idx / 8 ≥ 1024 then true else pfs.blockBitmap.test idx

def countFreeBlocks : Nat :=
  ((List.range (min (8192 - 128) (1024 * 8))).filter fun i => !pfs.blockBitmap.test i).length

end

end PsychicFs

/-! ### Format, mount, sync -/

def emptySector : Sector := Vector.replicate 512 0

def formatSuperblock : Superblock where
  magic := fsMagic
  version := fsVersion
  totalBlocks := 8192
  freeBlocks := 8192 - 128
  totalInodes := 256
  freeInodes := 256
  firstDataBlock := 128
  blockSize := 512
  dirty := 0

def clearInodeTable : List Nat → Disk → Bool × Disk
  | [], d => (true, d)
  | i :: rest, d =>
    match d.diskWriteSector (1 + i) emptySector with
    | none => (false, d)
    | some d => clearInodeTable rest d

section

variable (s : FsState)

def fsFormat : Bool × FsState :=
  if !s.disk.present then (false, s)
  else
    match s.disk.diskWriteSector 0 (superblockToBytes formatSuperblock) with
    | none => (false, s)
    | some d =>
      match clearInodeTable (List.range 64) d with
      | (false, d) => (false, { s with disk := d })
      | (true, d) =>
        match d.diskWriteSector 65 emptySector with
        | none => (false, { s with disk := d })
        | some d =>
          match d.diskWriteSector (65 + 1) emptySector with
          | none => (false, { s with disk := d })
          | some d => (true, { s with disk := d })

def fsMount : Bool × FsState :=
  if !s.disk.present then (false, s)
  else
    match s.disk.diskReadSector 0 with
    | none => (false, s)
    | some sbBuffer =>
      let superblock := bytesToSuperblock sbBuffer
      if superblock.magic ≠ fsMagic then (false, s)
      else
        match PsychicFs.new.readBitmapFromDisk s.disk with
        | none => (false, s)
        | some pfs =>
          (true, { s with psychicFs := some { pfs with
            superblock := { superblock with dirty := 1 }, mounted := true, superblockDirty := true } })

def fsSync : FsState :=
  match s.psychicFs with
  | none => s
  | some pfs =>
    match pfs.sync s.disk with
    | (_, pfs, d) => { s with disk := d, psychicFs := some pfs }

def fsUnmount : FsState := { fsSync s with psychicFs := none }

end

/-! ### The inode table -/

def inodeOfSector (buffer : Sector) (i : Nat) : Inode := bytesToInode (slice buffer (i * 128) 128)

def findInodeByName (name : String) (d : Disk) : Option (Nat × Inode) :=
  (List.range 64).findSome? fun sector =>
    match d.diskReadSector (1 + sector) with
    | none => none
    | some buffer =>
      (List.range 4).findSome? fun i =>
        let inode := inodeOfSector buffer i
        if inode.inUse ≠ 0 ∧ inode.getName = name then some (sector * 4 + i, inode) else none

def findFreeInode (d : Disk) : Option Nat :=
  (List.range 64).findSome? fun sector =>
    match d.diskReadSector (1 + sector) with
    | none => none
    | some buffer =>
      (List.range 4).findSome? fun i =>
        if (inodeOfSector buffer i).inUse = 0 then some (sector * 4 + i) else none

/-- Write an inode to its slot and read it back to verify the write. -/
def writeInode (inodeNum : Nat) (inode : Inode) (d : Disk) : Bool × Disk :=
  let sector := inodeNum / 4
  let slot := inodeNum % 4
  match d.diskReadSector (1 + sector) with
  | none => (false, d)
  | some buffer =>
    match d.diskWriteSector (1 + sector) (splice buffer (slot * 128) (inodeToBytes inode)) with
    | none => (false, d)
    | some d =>
      match d.diskReadSector (1 + sector) with
      | none => (false, d)
      | some verifyBuffer => ((inodeOfSector verifyBuffer slot).inUse == inode.inUse, d)

def fsCreate (name : String) (s : FsState) : Bool × FsState :=
  if (strBytes name).length ≥ 48 then (false, s)
  else if (findInodeByName name s.disk).isSome then (false, s)
  else
    match findFreeInode s.disk with
    | none => (false, s)
    | some inodeNum =>
      let inode := { Inode.new.setName name with
        inUse := 1, createdTime := s.clock 0, modifiedTime := s.clock 1 }
      match writeInode inodeNum inode s.disk with
      | (ok, d) => (ok, { s with disk := d, clock := fun n => s.clock (n + 2) })

/-! ### Blocks -/

def freeBlock (blockNum : Nat) (s : FsState) : FsState :=
  match s.psychicFs with
  | none => s
  | some pfs =>
    if blockNum < 128 then s
    else
      let idx := blockNum - 128
      if idx / 8 < 1024 then
        if pfs.blockBitmap.test idx = false then s
        else
          let pfs := { pfs with
            blockBitmap := pfs.blockBitmap.clear idx
            superblock := { pfs.superblock with freeBlocks := pfs.superblock.freeBlocks + 1 } }
          match pfs.markDirty.sync s.disk with
          | (_, pfs, d) => { s with disk := d, psychicFs := some pfs }
      else s

def freeBlockRange (start : BitVec 32) (count : BitVec 16) (s : FsState) : FsState :=
  (List.range count.toNat).foldl (fun s i => freeBlock ((start.toNat + i) % 2 ^ 32) s) s

def freeExtents (inode : Inode) (s : FsState) : FsState :=
  inode.extents.toList.foldl (fun s ext =>
    if !ext.isEmpty then freeBlockRange ext.physicalBlock ext.count s else s) s

/-- First fit over the block bitmap. -/
def findContiguousBlocks (count : Nat) (s : FsState) : Option Nat :=
  match s.psychicFs with
  | none => none
  | some pfs =>
    let totalBlocks := pfs.superblock.totalBlocks.toNat
    if 128 ≥ totalBlocks then none
    else
      match scanRun pfs.isBlockAllocated count (List.range' 128 (totalBlocks - 128)) 0 0 with
      | some runStart => some runStart
      | none =>
        if count = 1 then (List.range' 128 (totalBlocks - 128)).find? fun block => !pfs.isBlockAllocated block
        else none

/-- Mark the blocks of a run; here bit `b` of the bitmap stands for block `b`. -/
def allocateContiguousBlocks (start count : Nat) (s : FsState) : Bool × FsState :=
  match s.psychicFs with
  | none => (false, s)
  | some pfs =>
    let bitmap := (List.range count).foldl (fun (m : Bitmap 8 1024) i => m.mark (start + i)) pfs.blockBitmap
    let free := pfs.superblock.freeBlocks
    (true, { s with psychicFs := some { pfs with
      blockBitmap := bitmap
      superblock := { pfs.superblock with
        freeBlocks := if free < BitVec.ofNat 32 count then 0 else free - BitVec.ofNat 32 count } } })

/-! ### Files -/

/-- Allocate `remaining` blocks and append them to the inode: the whole rest at once if a run of that length is
free, else a single block. -/
def allocateBlocks (remaining : Nat) (inode : Inode) (s : FsState) : Bool × Inode × FsState :=
  if remaining = 0 then (true, inode, s)
  else
    let chunkSize := min remaining 65535
    match findContiguousBlocks chunkSize s with
    | some startBlock =>
      let s := (allocateContiguousBlocks startBlock chunkSize s).2
      match inode.addExtent (BitVec.ofNat 32 startBlock) (BitVec.ofNat 16 chunkSize) with
      | (true, inode) => allocateBlocks (remaining - chunkSize) inode s
      | (false, inode) => (false, inode, s)
    | none =>
      if chunkSize > 1 then
        match findContiguousBlocks 1 s with
        | some startBlock =>
          let s := (allocateContiguousBlocks startBlock 1 s).2
          match inode.addExtent (BitVec.ofNat 32 startBlock) 1 with
          | (true, inode) => allocateBlocks (remaining - 1) inode s
          | (false, inode) => (false, inode, s)
        | none => (false, inode, s)
      else (false, inode, s)
termination_by remaining

/-- The sector written for a logical block of the data, padded with zeros. -/
def dataSector (data : List Byte) (logicalBlock : Nat) : Sector :=
  let start := logicalBlock * 512
  let stop := min (start + 512) data.length
  splice emptySector 0 ((data.drop start).take (stop - start))

def writeBlocks (data : List Byte) (inode : Inode) : List Nat → Disk → Bool × Disk
  | [], d => (true, d)
  | logicalBlock :: rest, d =>
    match inode.getPhysicalBlock (BitVec.ofNat 16 logicalBlock) with
    | none => (false, d)
    | some physBlock =>
      match d.diskWriteSector physBlock.toNat (dataSector data logicalBlock) with
      | none => (false, d)
      | some d => writeBlocks data inode rest d

def writeFile (inodeNum : Nat) (inode : Inode) (data : List Byte) (s : FsState) : Bool × FsState :=
  let blocksNeeded := (data.length + 512 - 1) / 512
  if blocksNeeded = 0 then
    match writeInode inodeNum { inode with size := 0 }.clearExtents s.disk with
    | (ok, d) => (ok, { s with disk := d })
  else
    let s := freeExtents inode s
    match allocateBlocks blocksNeeded inode.clearExtents s with
    | (false, _, s) => (false, s)
    | (true, inode, s) =>
      match writeBlocks data inode (List.range blocksNeeded) s.disk with
      | (false, d) => (false, { s with disk := d })
      | (true, d) =>
        let inode := { inode with size := BitVec.ofNat 32 data.length, modifiedTime := s.clock 0 }
        match writeInode inodeNum inode d with
        | (ok, d) =>
          let s := { s with disk := d, clock := fun n => s.clock (n + 1) }
          (ok, if ok then fsSync s else s)

def fsWrite (name : String) (data : List Byte) (s : FsState) : Bool × FsState :=
  match findInodeByName name s.disk with
  | some (inodeNum, inode) => writeFile inodeNum inode data s
  | none =>
    match fsCreate name s with
    | (false, s) => (false, s)
    | (true, s) =>
      match findInodeByName name s.disk with
      | some (inodeNum, inode) => writeFile inodeNum inode data s
      | none => (false, s)

/-- Read the given logical blocks of a file of `size` bytes; a block without an extent reads as zeros. -/
def readBlocks (inode : Inode) (size : Nat) (d : Disk) : List Nat → List Byte → Option (List Byte)
  | [], data => some data
  | logicalBlock :: rest, data =>
    let toRead := min (size - data.length) 512
    match inode.getPhysicalBlock (BitVec.ofNat 16 logicalBlock) with
    | some physBlock =>
      match d.diskReadSector physBlock.toNat with
      | none => none
      | some buffer => readBlocks inode size d rest (data ++ slice buffer 0 toRead)
    | none => readBlocks inode size d rest (data ++ List.replicate toRead 0)

def fsRead (name : String) (s : FsState) : Option (List Byte) :=
  match findInodeByName name s.disk with
  | none => none
  | some (_, inode) =>
    let size := inode.size.toNat
    if size = 0 then some []
    else readBlocks inode size s.disk (List.range ((size + 512 - 1) / 512)) []

def fsDelete (name : String) (s : FsState) : Bool × FsState :=
  match findInodeByName name s.disk with
  | none => (false, s)
  | some (inodeNum, inode) =>
    let s := freeExtents inode s
    let s := if inode.extentIndirect ≠ 0 then freeBlock inode.extentIndirect.toNat s else s
    match writeInode inodeNum { inode.clearExtents with inUse := 0, size := 0 } s.disk with
    | (ok, d) => (ok, { s with disk := d })

/-- The names of the inodes in use; a sector that cannot be read is skipped. -/
def fsList (s : FsState) : List String :=
  (List.range 64).flatMap fun sector =>
    match s.disk.diskReadSector (1 + sector) with
    | none => []
    | some buffer =>
      (List.range 4).filterMap fun i =>
        let inode := inodeOfSector buffer i
        if inode.inUse ≠ 0 then some inode.getName else none

end AstralOS.Fs
