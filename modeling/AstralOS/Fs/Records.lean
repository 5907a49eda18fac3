import AstralOS.Lib.ReprC
import AstralOS.Fs.Table

/-!
# The records in memory

`Inode` and `Superblock` with all their fields and the C layout that the compiler gives them, and the four functions that copy
them as bytes.  By the alignment of its 32-bit field an extent takes 12 bytes, not 8: an inode takes 136 and the superblock
516.  The buffers have 128 and 512 bytes, so the copies go past them; on the disk the last eight bytes of an inode are those
of the next slot, or of whatever lies behind the sector in memory.

`writeInode_disk` connects these functions with the ones on the records without the trailing fields, and `decodeSlot_eq` says
what a slot is read as.
-/

namespace AstralOS.Fs

open ReprC
open List hiding Vector

/-! ### The layout -/

structure InodeRecord extends Inode where
  dirty : BitVec 8
  reserved : Vector Byte 7
deriving DecidableEq

structure SuperblockRecord extends Superblock where
  reserved : Vector Byte 485
deriving DecidableEq

def extentCodec : Codec Extent :=
  (Fields.cons .u16 <| .cons .u32 <| .last .u16).struct.ofEquiv
    { toFun := fun e => (e.logicalBlock, e.physicalBlock, e.count)
      invFun := fun ⟨logicalBlock, physicalBlock, count⟩ => ⟨logicalBlock, physicalBlock, count⟩
      left_inv := fun _ => rfl
      right_inv := fun _ => rfl }

def inodeCodec : Codec InodeRecord :=
  (Fields.cons .u8 <| .cons .u8 <| .cons .u16 <| .cons .u32 <| .cons .u64 <| .cons .u64 <|
    .cons (extentCodec.array 4) <| .cons .u32 <| .cons .u16 <| .cons .u16 <| .cons (Codec.u8.array 48) <|
    .cons .u8 <| .last (Codec.u8.array 7)).struct.ofEquiv
    { toFun := fun i =>
        (i.inUse, i.fileType, i.permissions, i.size, i.createdTime, i.modifiedTime, i.extents, i.extentIndirect,
          i.lastExtentIdx, i.extentCount, i.name, i.dirty, i.reserved)
      invFun := fun ⟨inUse, fileType, permissions, size, createdTime, modifiedTime, extents, extentIndirect,
          lastExtentIdx, extentCount, name, dirty, reserved⟩ =>
        ⟨⟨inUse, fileType, permissions, size, createdTime, modifiedTime, extents, extentIndirect, lastExtentIdx,
          extentCount, name⟩, dirty, reserved⟩
      left_inv := fun _ => rfl
      right_inv := fun _ => rfl }

def superblockCodec : Codec SuperblockRecord :=
  (Fields.cons .u32 <| .cons .u16 <| .cons .u32 <| .cons .u32 <| .cons .u32 <| .cons .u32 <| .cons .u32 <|
    .cons .u16 <| .cons .u8 <| .last (Codec.u8.array 485)).struct.ofEquiv
    { toFun := fun s =>
        (s.magic, s.version, s.totalBlocks, s.freeBlocks, s.totalInodes, s.freeInodes, s.firstDataBlock, s.blockSize,
          s.dirty, s.reserved)
      invFun := fun ⟨magic, version, totalBlocks, freeBlocks, totalInodes, freeInodes, firstDataBlock, blockSize, dirty,
          reserved⟩ =>
        ⟨⟨magic, version, totalBlocks, freeBlocks, totalInodes, freeInodes, firstDataBlock, blockSize, dirty⟩, reserved⟩
      left_inv := fun _ => rfl
      right_inv := fun _ => rfl }

theorem size_extentCodec : extentCodec.size = 12 := by decide

theorem size_inodeCodec : inodeCodec.size = 136 := by decide

theorem size_superblockCodec : superblockCodec.size = 516 := by decide

theorem leBytes_one (x : Byte) : leBytes 1 x.toNat = [x] := by simp [leBytes]

theorem encode_u8_array {n : Nat} (xs : Vector Byte n) : (Codec.u8.array n).encode xs = xs.toList := by
  have hbyte : ∀ x : Byte, Codec.u8.encode x = [x] := leBytes_one
  show xs.toList.flatMap Codec.u8.encode = xs.toList
  simp [funext hbyte]

theorem encode_inode (v : InodeRecord) :
    inodeCodec.encode v = inodeToBytes v.toInode ++ v.dirty :: v.reserved.toList := by
  have hext : ∀ e : Extent, extentCodec.encode e = record (extentFields e) := fun _ => rfl
  have hexts : v.extents.toList = [v.extents[0], v.extents[1], v.extents[2], v.extents[3]] := by
    apply ext_getElem
    · simp
    · grind
  have henc : inodeCodec.encode v =
      leBytes 1 v.inUse.toNat ++ (leBytes 1 v.fileType.toNat ++ (leBytes 2 v.permissions.toNat ++
        (leBytes 4 v.size.toNat ++ (leBytes 8 v.createdTime.toNat ++ (leBytes 8 v.modifiedTime.toNat ++
          (v.extents.toList.flatMap extentCodec.encode ++ (leBytes 4 v.extentIndirect.toNat ++
            (leBytes 2 v.lastExtentIdx.toNat ++ (leBytes 2 v.extentCount.toNat ++ ((Codec.u8.array 48).encode v.name ++
              (leBytes 1 v.dirty.toNat ++ (Codec.u8.array 7).encode v.reserved))))))))))) ++ [] := rfl
  simp [henc, hexts, encode_u8_array, leBytes_one v.dirty, inodeToBytes, inodeFields, record, hext]

theorem decode_u8_array {n : Nat} (bytes : List Byte) :
    (Codec.u8.array n).decode bytes = Vector.ofFn fun i => bytes.getD i.val 0 := by
  have hbyte : ∀ bs : List Byte, Codec.u8.decode bs = bs.getD 0 0 := by
    intro bs
    cases bs <;> simp [Codec.u8, Codec.uint, field, leVal]
  show (Vector.ofFn fun i : Fin n => Codec.u8.decode (bytes.drop (i * 1))) = _
  simp [hbyte, getD_eq_getElem?_getD]

theorem decode_extent (bytes : List Byte) : extentCodec.decode bytes = bytesToExtent bytes 0 := rfl

theorem decode_inode (bytes : List Byte) :
    inodeCodec.decode bytes =
      { bytesToInode bytes with
        dirty := Codec.u8.decode (bytes.drop 128)
        reserved := (Codec.u8.array 7).decode (bytes.drop 129) } := by
  have hexts : (extentCodec.array 4).decode (bytes.drop 24) = (bytesToInode bytes).extents := by
    apply Vector.ext
    intro i hi
    match i, hi with
    | 0, _ | 1, _ | 2, _ | 3, _ => simp [Codec.array, bytesToInode, decode_extent, size_extentCodec, bytesToExtent, field]
  have hname : (Codec.u8.array 48).decode (bytes.drop 80) = (bytesToInode bytes).name := by
    rw [decode_u8_array]
    simp [bytesToInode, getD_eq_getElem?_getD]
  show ({ bytesToInode bytes with
    extents := (extentCodec.array 4).decode (bytes.drop 24)
    name := (Codec.u8.array 48).decode (bytes.drop 80)
    dirty := Codec.u8.decode (bytes.drop 128)
    reserved := (Codec.u8.array 7).decode (bytes.drop 129) } : InodeRecord) = _
  rw [hexts, hname]

theorem field_append {bytes : List Byte} (rest : List Byte) {off w : Nat} (h : off + w ≤ bytes.length) :
    field (bytes ++ rest) off w = field bytes off w := by
  grind [field]

theorem bytesToInode_append {bytes : List Byte} (rest : List Byte) (h : bytes.length = 128) :
    bytesToInode (bytes ++ rest) = bytesToInode bytes := by
  grind [bytesToInode, bytesToExtent, field_append]

def InodeRecord.trailing (v : InodeRecord) : List Byte := v.dirty :: v.reserved.toList

theorem InodeRecord.eq_iff (v w : InodeRecord) : v = w ↔ v.toInode = w.toInode ∧ v.trailing = w.trailing := by
  constructor
  · rintro rfl
    exact ⟨rfl, rfl⟩
  · rintro ⟨hi, ht⟩
    obtain ⟨hd, hr⟩ := cons.inj ht
    cases v
    cases w
    simp_all [Vector.toList_inj]

theorem decode_slot {bytes behind : List Byte} (h : bytes.length = 128) (hb : behind.length = 8) :
    (inodeCodec.decode (bytes ++ behind)).toInode = bytesToInode bytes ∧
      (inodeCodec.decode (bytes ++ behind)).trailing = behind := by
  rw [decode_inode]
  refine ⟨bytesToInode_append behind h, ?_⟩
  match behind, hb with
  | x :: xs, hxs =>
    have hvec : (Codec.u8.array 7).encode ⟨xs.toArray, by simpa using hxs⟩ = xs := by rw [encode_u8_array]; simp
    have hone : Codec.u8.encode x = [x] := leBytes_one x
    have hdrop : (bytes ++ x :: xs).drop 128 = Codec.u8.encode x ++ xs := by rw [← h, drop_left, hone]; rfl
    have hdrop' : (bytes ++ x :: xs).drop 129 = (Codec.u8.array 7).encode ⟨xs.toArray, by simpa using hxs⟩ ++ [] := by
      show (bytes ++ x :: xs).drop (128 + 1) = _
      rw [← drop_drop, hdrop, hone, hvec]
      simp
    grind [InodeRecord.trailing, Codec.decode_encode]

theorem encode_superblock (s : SuperblockRecord) :
    superblockCodec.encode s = record (superblockFields s.toSuperblock) ++ s.reserved.toList := by
  have henc : superblockCodec.encode s =
      leBytes 4 s.magic.toNat ++ (leBytes 2 s.version.toNat ++ (leBytes 2 0 ++ leBytes 4 s.totalBlocks.toNat ++
        (leBytes 4 s.freeBlocks.toNat ++ (leBytes 4 s.totalInodes.toNat ++ (leBytes 4 s.freeInodes.toNat ++
          (leBytes 4 s.firstDataBlock.toNat ++ (leBytes 2 s.blockSize.toNat ++ (leBytes 1 s.dirty.toNat ++
            (Codec.u8.array 485).encode s.reserved)))))))) ++ [] := rfl
  rw [henc, encode_u8_array]
  simp [superblockFields, record]

theorem decode_superblock (bytes : List Byte) :
    (superblockCodec.decode bytes).toSuperblock =
      { magic := BitVec.ofNat 32 (field bytes 0 4)
        version := BitVec.ofNat 16 (field bytes 4 2)
        totalBlocks := BitVec.ofNat 32 (field bytes 8 4)
        freeBlocks := BitVec.ofNat 32 (field bytes 12 4)
        totalInodes := BitVec.ofNat 32 (field bytes 16 4)
        freeInodes := BitVec.ofNat 32 (field bytes 20 4)
        firstDataBlock := BitVec.ofNat 32 (field bytes 24 4)
        blockSize := BitVec.ofNat 16 (field bytes 28 2)
        dirty := BitVec.ofNat 8 (field bytes 30 1) } :=
  rfl

theorem length_superblockFields (s : Superblock) : (record (superblockFields s)).length = 31 := by
  simp [length_record, superblockFields]

/-- The first 512 bytes of a superblock with four other bytes behind them are read as the same superblock exactly if the four
bytes are its last ones. -/
theorem decode_superblock_iff (s : SuperblockRecord) {behind : List Byte} (h : behind.length = 4) :
    superblockCodec.decode ((superblockCodec.encode s).take 512 ++ behind) = s ↔
      behind = s.reserved.toList.drop 481 := by
  have hlen := length_superblockFields s.toSuperblock
  have htake : (superblockCodec.encode s).take 512 =
      record (superblockFields s.toSuperblock) ++ s.reserved.toList.take 481 := by
    rw [encode_superblock, take_append, take_of_length_le (by omega), hlen]
  -- The bytes are those of the superblock with the last bytes replaced.
  let s' : SuperblockRecord :=
    { s with reserved := ⟨(s.reserved.toList.take 481 ++ behind).toArray, by simp [h]⟩ }
  have hby : (superblockCodec.encode s).take 512 ++ behind = superblockCodec.encode s' ++ [] := by
    rw [htake, encode_superblock]
    simp [s']
  rw [hby, superblockCodec.decode_encode]
  constructor
  · grind
  · intro hbe
    have hr : s'.reserved = s.reserved := by
      apply Vector.toList_inj.1
      simp [s', hbe]
    show { s with reserved := s'.reserved } = s
    rw [hr]

/-! ### The functions in memory -/

namespace InMemory

/-- The memory, and the ranges that were accessed through raw pointers. -/
structure Memory where
  byte : Nat → Byte
  accesses : List (Nat × Nat)

namespace Memory

section

variable (m : Memory)

def bytes (a n : Nat) : List Byte := (List.range n).map fun i => m.byte (a + i)

def store (a : Nat) (bs : List Byte) : Memory :=
  { m with byte := fun x => if a ≤ x ∧ x < a + bs.length then bs.getD (x - a) 0 else m.byte x }

def copyNonoverlapping (src : List Byte) (dst n : Nat) : Memory :=
  { m.store dst (src.take n) with accesses := (dst, n) :: m.accesses }

def readUnaligned (src n : Nat) : List Byte × Memory :=
  (m.bytes src n, { m with accesses := (src, n) :: m.accesses })

def Confined (a n : Nat) : Prop := ∀ r ∈ m.accesses, a ≤ r.1 ∧ r.1 + r.2 ≤ a + n

end

theorem not_confined {m : Memory} {a n size : Nat} (h : (a, size) ∈ m.accesses) (hn : n < size) : ¬ m.Confined a n := by
  intro hconf
  have hle := (hconf _ h).2
  omega

section

variable (m : Memory)

def untouched : Memory := { m with accesses := [] }

@[simp] theorem length_bytes (a n : Nat) : (m.bytes a n).length = n := by simp [bytes]

theorem bytes_add (a n k : Nat) : m.bytes a (n + k) = m.bytes a n ++ m.bytes (a + n) k := by
  simp [bytes, range_add, Nat.add_assoc]

theorem bytes_store_inside (a : Nat) {off n : Nat} {bs : List Byte} (h : off + n ≤ bs.length) :
    (m.store a bs).bytes (a + off) n = (bs.drop off).take n := by
  apply ext_getElem
  · simp
    omega
  · intro i h1 h2
    have hi : i < n := by simpa using h1
    simp [bytes, store, Nat.add_assoc, show off + i < bs.length by omega]

theorem bytes_store_behind (a n : Nat) {off : Nat} {bs : List Byte} (h : bs.length ≤ off) :
    (m.store a bs).bytes (a + off) n = m.bytes (a + off) n := by
  simp [bytes, store]
  omega

theorem bytes_copyNonoverlapping {src : List Byte} {dst n k : Nat} (hsrc : src.length = n) (hk : k ≤ n) :
    (m.copyNonoverlapping src dst n).bytes dst k = src.take k := by
  have hs := m.bytes_store_inside dst (show 0 + k ≤ (src.take n).length by simp [hsrc, hk])
  rw [drop_zero, take_take, Nat.min_eq_left hk] at hs
  exact hs

end

end Memory

def inodeToBytes (inode : InodeRecord) (buffer : Nat) (m : Memory) : List Byte × Memory :=
  let m := m.store buffer (List.replicate 128 0)
  let m := m.copyNonoverlapping (inodeCodec.encode inode) buffer inodeCodec.size
  (m.bytes buffer 128, m)

def bytesToInode (buffer : Nat) (m : Memory) : InodeRecord × Memory :=
  let (bytes, m) := m.readUnaligned buffer inodeCodec.size
  (inodeCodec.decode bytes, m)

def superblockToBytes (sb : SuperblockRecord) (buffer : Nat) (m : Memory) : List Byte × Memory :=
  let m := m.store buffer (List.replicate 512 0)
  let m := m.copyNonoverlapping (superblockCodec.encode sb) buffer superblockCodec.size
  (m.bytes buffer 512, m)

def bytesToSuperblock (buffer : Nat) (m : Memory) : SuperblockRecord × Memory :=
  let (bytes, m) := m.readUnaligned buffer superblockCodec.size
  (superblockCodec.decode bytes, m)

/-- Where the buffers of `write_inode` and of the function it calls stand. -/
structure Frame where
  inodeBytes : Nat
  verifyBuffer : Nat

def writeInode (inodeNum : Nat) (inode : InodeRecord) (frame : Frame) (d : Disk) (m : Memory) : Bool × Disk × Memory :=
  let sector := inodeNum / 4
  let offset := inodeNum % 4 * 128
  match d.diskReadSector (1 + sector) with
  | none => (false, d, m)
  | some buffer =>
    let (inodeBytes, m) := inodeToBytes inode frame.inodeBytes m
    match d.diskWriteSector (1 + sector) (splice buffer offset inodeBytes) with
    | none => (false, d, m)
    | some d =>
      match d.diskReadSector (1 + sector) with
      | none => (false, d, m)
      | some verifyBuffer =>
        let (written, m) := bytesToInode (frame.verifyBuffer + offset) (m.store frame.verifyBuffer verifyBuffer.toList)
        (written.inUse == inode.inUse, d, m)

def decodeSlot (d : Disk) (k b : Nat) (m : Memory) : InodeRecord :=
  (bytesToInode (b + k % 4 * 128) (m.store b (d.sectors (1 + k / 4)).toList)).1

/-! ### What they do -/

theorem inodeToBytes_fst (v : InodeRecord) (b : Nat) (m : Memory) :
    (inodeToBytes v b m).1 = Fs.inodeToBytes v.toInode := by
  have hb : (inodeToBytes v b m).1 = (inodeCodec.encode v).take 128 :=
    Memory.bytes_copyNonoverlapping _ (inodeCodec.length_encode v) (by rw [size_inodeCodec]; decide)
  rw [hb, encode_inode, ← length_inodeToBytes v.toInode, take_left]

theorem bytes_slot (sector : Sector) {i : Nat} (hi : i < 4) (b : Nat) (m : Memory) :
    (m.store b sector.toList).bytes (b + i * 128) 136 =
      slice sector (i * 128) 128 ++
        if i = 3 then m.bytes (b + 512) 8 else slice sector ((i + 1) * 128) 8 := by
  have hlen : sector.toList.length = 512 := by simp
  rw [show (136 : Nat) = 128 + 8 from rfl, Memory.bytes_add, Memory.bytes_store_inside _ b (by omega),
    ← slice_eq_take_drop sector (by omega), Nat.add_assoc]
  congr 1
  split_ifs with h3
  · rw [h3]
    exact Memory.bytes_store_behind _ b 8 (by omega)
  · rw [slice_eq_take_drop sector (by omega), ← Memory.bytes_store_inside m b (by omega), Nat.succ_mul]

theorem bytesToInode_slot (sector : Sector) {i : Nat} (hi : i < 4) (b : Nat) (m : Memory) :
    (bytesToInode (b + i * 128) (m.store b sector.toList)).1.toInode = inodeOfSector sector i ∧
      (bytesToInode (b + i * 128) (m.store b sector.toList)).1.trailing =
        if i = 3 then m.bytes (b + 512) 8 else slice sector ((i + 1) * 128) 8 := by
  have hd : (bytesToInode (b + i * 128) (m.store b sector.toList)).1 =
      inodeCodec.decode ((m.store b sector.toList).bytes (b + i * 128) 136) := by
    rfl
  rw [hd, bytes_slot sector hi]
  exact decode_slot (length_slice _ _ _) (by split_ifs <;> simp)

theorem decodeSlot_eq (d : Disk) (k b : Nat) (m : Memory) :
    (decodeSlot d k b m).toInode = inodeAt d k ∧
      (decodeSlot d k b m).trailing =
        if k % 4 = 3 then m.bytes (b + 512) 8 else slice (d.sectors (1 + k / 4)) ((k % 4 + 1) * 128) 8 :=
  bytesToInode_slot _ (Nat.mod_lt _ (by decide)) b m

theorem writeInode_disk (k : Nat) (v : InodeRecord) (frame : Frame) (d : Disk) (m : Memory) :
    ((writeInode k v frame d m).1, (writeInode k v frame d m).2.1) = Fs.writeInode k v.toInode d := by
  have hslot : ∀ (sector : Sector) (m : Memory),
      (bytesToInode (frame.verifyBuffer + k % 4 * 128) (m.store frame.verifyBuffer sector.toList)).1.inUse =
        (inodeOfSector sector (k % 4)).inUse := fun sector m => by
    rw [← (bytesToInode_slot sector (Nat.mod_lt _ (by decide)) frame.verifyBuffer m).1]
  unfold writeInode Fs.writeInode
  simp only [inodeToBytes_fst, hslot]
  cases d.diskReadSector (1 + k / 4) with
  | none => rfl
  | some buffer =>
    grind

theorem superblockToBytes_fst (s : SuperblockRecord) (b : Nat) (m : Memory) :
    (superblockToBytes s b m).1 = (superblockCodec.encode s).take 512 := by
  have hle : 512 ≤ superblockCodec.size := by rw [size_superblockCodec]; omega
  rw [superblockToBytes, Memory.bytes_copyNonoverlapping _ (superblockCodec.length_encode s) hle]

theorem bytesToSuperblock_store {bytes : List Byte} (h : bytes.length = 512) (b : Nat) (m : Memory) :
    (bytesToSuperblock b (m.store b bytes)).1 = superblockCodec.decode (bytes ++ m.bytes (b + 512) 4) := by
  have hf := m.bytes_store_inside b (show 0 + 512 ≤ bytes.length by omega)
  have hb := m.bytes_store_behind b 4 (show bytes.length ≤ 512 by omega)
  rw [drop_zero, ← h, take_length, h] at hf
  rw [bytesToSuperblock, Memory.readUnaligned, size_superblockCodec, show (516 : Nat) = 512 + 4 from rfl,
    Memory.bytes_add, hb]
  exact congrArg (fun bs => superblockCodec.decode (bs ++ m.bytes (b + 512) 4)) hf

theorem superblockToBytes_zeros (sb : Superblock) (b : Nat) (m : Memory) :
    (superblockToBytes ⟨sb, Vector.replicate 485 0⟩ b m).1 = (Fs.superblockToBytes sb).toList := by
  have hlen := length_superblockFields sb
  have hs : (Fs.superblockToBytes sb).toList = record (superblockFields sb) ++ replicate 481 0 := by
    rw [← slice_zero, slice_add _ 0 31 481, ← hlen, Fs.superblockToBytes, slice_splice_same _ _ _ (by omega),
      slice_splice_disjoint _ (by omega) (by omega), slice_replicate_zero]
  have ht : (Vector.replicate 485 (0 : Byte)).toList.take 481 = replicate 481 0 := by
    rw [Vector.toList_replicate, take_replicate, Nat.min_eq_left (by omega)]
  rw [hs, superblockToBytes_fst, encode_superblock, take_append, take_of_length_le (by rw [hlen]; omega),
    hlen, ht]

theorem bytesToSuperblock_toSuperblock (sector : Sector) (b : Nat) (m : Memory) :
    (bytesToSuperblock b (m.store b sector.toList)).1.toSuperblock = Fs.bytesToSuperblock sector := by
  have hs : sector.toList ++ m.bytes (b + 512) 4 =
      slice sector 0 31 ++ (sector.toList.drop 31 ++ m.bytes (b + 512) 4) := by
    rw [slice_eq_take_drop sector (by omega), drop_zero, ← append_assoc, take_append_drop]
  rw [bytesToSuperblock_store (by simp), hs, decode_superblock]
  simp [Fs.bytesToSuperblock, field_append]

theorem slice_setInode (d : Disk) (k : Nat) (inode : Inode) {j : Nat} (hj : j % 4 ≠ 3) :
    slice ((d.setInode k inode).sectors (1 + j / 4)) ((j % 4 + 1) * 128) 8 =
      if j + 1 = k then (Fs.inodeToBytes inode).take 8 else slice (d.sectors (1 + j / 4)) ((j % 4 + 1) * 128) 8 := by
  have hlen := length_inodeToBytes inode
  rw [Disk.setInode, Disk.sectors_setSector]
  by_cases hs : 1 + j / 4 = 1 + k / 4
  · rw [if_pos hs, hs]
    split_ifs with hk
    · rw [show j % 4 + 1 = k % 4 by omega]
      exact slice_splice_take _ _ (by omega) (by omega)
    · exact slice_splice_disjoint _ (by omega) (by omega)
  · rw [if_neg hs, if_neg (by omega)]

def disk (sectors : Nat → Sector) : Disk := ⟨true, sectors, fun _ => false⟩

theorem writeInode_disk_eq (sectors : Nat → Sector) {k : Nat} (hk : k < 256) (v : InodeRecord) (frame : Frame)
    (m : Memory) : (writeInode k v frame (disk sectors) m).2.1 = (disk sectors).setInode k v.toInode := by
  have hs : (disk sectors).Sound := ⟨rfl, fun _ _ => rfl⟩
  exact congrArg Prod.snd ((writeInode_disk k v frame _ m).trans (writeInode_eq hs hk v.toInode))

theorem decodeSlot_setInode_self_iff (d : Disk) (k : Nat) (v : InodeRecord) (b : Nat) (m : Memory) :
    decodeSlot (d.setInode k v.toInode) k b m = v ↔
      v.trailing =
        if k % 4 = 3 then m.bytes (b + 512) 8 else slice (d.sectors (1 + k / 4)) ((k % 4 + 1) * 128) 8 := by
  obtain ⟨hi, ht⟩ := decodeSlot_eq (d.setInode k v.toInode) k b m
  rw [InodeRecord.eq_iff, hi, ht, inodeAt_setInode, if_pos rfl, eq_comm (b := v.trailing)]
  simp only [true_and]
  split_ifs with h3
  · exact Iff.rfl
  · rw [slice_setInode _ _ _ h3, if_neg (by omega)]

theorem decodeSlot_setInode_ne_iff (d : Disk) {j k : Nat} (hjk : j ≠ k) (inode : Inode) (b b' : Nat) (m m' : Memory) :
    decodeSlot (d.setInode k inode) j b' m' = decodeSlot d j b m ↔
      if j % 4 = 3 then m'.bytes (b' + 512) 8 = m.bytes (b + 512) 8
      else j + 1 = k → (Fs.inodeToBytes inode).take 8 = slice (d.sectors (1 + k / 4)) (k % 4 * 128) 8 := by
  obtain ⟨hi', ht'⟩ := decodeSlot_eq (d.setInode k inode) j b' m'
  obtain ⟨hi, ht⟩ := decodeSlot_eq d j b m
  rw [InodeRecord.eq_iff, hi', ht', hi, ht, inodeAt_setInode, if_neg hjk]
  simp only [true_and]
  split_ifs with h3
  · exact Iff.rfl
  · rw [slice_setInode _ _ _ h3]
    split_ifs with hk
    · grind
    · simp [hk]

/-- **The records and their slots.**  An inode is read back from the slot it was written to exactly if its last eight bytes are
those behind the slot; writing it leaves the other slots as they were read, except the one before if the first eight bytes
change, and the last one of a sector by what happens to lie behind the buffer; a superblock is read back exactly if its last
four bytes lie behind the buffer.  None of the four functions stays within its buffer. -/
theorem records_iff (sectors : Nat → Sector) (k : Fin 256) (v : InodeRecord) (s : SuperblockRecord) (frame : Frame)
    (b b' : Nat) (m m' : Memory) :
    (decodeSlot (writeInode k v frame (disk sectors) m).2.1 k b' m' = v ↔
      v.trailing =
        if k.val % 4 = 3 then m'.bytes (b' + 512) 8
        else slice (sectors (1 + k.val / 4)) ((k.val % 4 + 1) * 128) 8) ∧
    (∀ j : Fin 256, j ≠ k →
      (decodeSlot (writeInode k v frame (disk sectors) m).2.1 j b' m' = decodeSlot (disk sectors) j b m ↔
        if j.val % 4 = 3 then m'.bytes (b' + 512) 8 = m.bytes (b + 512) 8
        else j.val + 1 = k.val →
          (Fs.inodeToBytes v.toInode).take 8 = slice (sectors (1 + k.val / 4)) (k.val % 4 * 128) 8)) ∧
    ((bytesToSuperblock b' (m'.store b' (superblockToBytes s b m).1)).1 = s ↔
      m'.bytes (b' + 512) 4 = s.reserved.toList.drop 481) ∧
    ¬ (inodeToBytes v b m.untouched).2.Confined b 128 ∧ ¬ (bytesToInode b m.untouched).2.Confined b 128 ∧
    ¬ (superblockToBytes s b m.untouched).2.Confined b 512 ∧ ¬ (bytesToSuperblock b m.untouched).2.Confined b 512 := by
  rw [writeInode_disk_eq sectors k.isLt]
  refine ⟨?_, ?_, ?_, ?_, ?_, ?_, ?_⟩
  · exact decodeSlot_setInode_self_iff (disk sectors) k v b' m'
  · intro j hj
    exact decodeSlot_setInode_ne_iff (disk sectors) (fun h => hj (Fin.ext h)) v.toInode b b' m m'
  · rw [superblockToBytes_fst, bytesToSuperblock_store, decode_superblock_iff]
    · simp
    · simp [superblockCodec.length_encode, size_superblockCodec]
  · exact Memory.not_confined (.head _) (by rw [size_inodeCodec]; decide)
  · exact Memory.not_confined (.head _) (by rw [size_inodeCodec]; decide)
  · exact Memory.not_confined (.head _) (by rw [size_superblockCodec]; omega)
  · exact Memory.not_confined (.head _) (by rw [size_superblockCodec]; omega)

def dirtyInode : InodeRecord := { toInode := .new, dirty := 1, reserved := Vector.replicate 7 0 }

/-- It is not read back as such. -/
theorem dirty_inode_not_read_back :
    ¬ ∀ (sectors : Nat → Sector) (k : Fin 256) (v : InodeRecord) (frame : Frame) (b : Nat) (m : Memory),
      decodeSlot (writeInode k v frame (disk sectors) m).2.1 k b m = v := by
  intro h
  have hread := h (fun _ => emptySector) 0 dirtyInode ⟨0, 0⟩ 0 ⟨fun _ => 0, []⟩
  rw [writeInode_disk_eq _ (Fin.isLt 0)] at hread
  have ht := (congrArg InodeRecord.trailing hread).symm.trans (decodeSlot_eq _ _ _ _).2
  exact absurd ht (by decide +kernel)

end InMemory

end AstralOS.Fs
