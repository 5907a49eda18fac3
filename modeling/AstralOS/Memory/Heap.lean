import AstralOS.Lib.FreeList
import AstralOS.Lib.Memory

/-!
# The kernel heap

The model of `memory/heap.rs`: a free list threaded through the free memory, each block with a header of its size and
the address of the next block.  `allocImpl` walks it for the first block that fits, `deallocImpl` for the place of the
released block.  A pointer is an address, `0` for none, and the loops follow whatever the memory holds, so they carry a
bound on their steps; the bound is the number of addresses, so a walk that exceeds it has come back to a node.

`allocImpl_spec` and `deallocImpl_spec` say that on a memory that represents a sorted list of blocks the two functions
return and do to the list what `FreeList.alloc` and `FreeList.release` do.
-/

namespace AstralOS.Memory

open BitVec

/-- Round an address up to a multiple of a power of two (`align_up`). -/
def alignUp (addr align : BitVec 64) : BitVec 64 := (addr + align - 1) &&& ~~~(align - 1)

/-- A memory layout: the alignment is a power of two and the rounded size at most `isize::MAX`. -/
structure Layout where
  size : BitVec 64
  align : BitVec 64
  isPow : ∃ k, k < 64 ∧ align = BitVec.twoPow 64 k
  sizeLe : roundUp align.toNat size.toNat ≤ 2 ^ 63 - 1
  deriving DecidableEq

def heapStart : Nat := 0xFFFF800000000000

def kernelHeapSize : Nat := 100 * 1024 * 1024

def heapEnd : Nat := heapStart + kernelHeapSize

def headerSize : Nat := 16

/-! ### The source -/

structure Heap where
  freeList : BitVec 64
  allocated : BitVec 64
  mem : ByteMem

def nodeSize (m : ByteMem) (p : BitVec 64) : BitVec 64 := m.read64 p

def nodeNext (m : ByteMem) (p : BitVec 64) : BitVec 64 := m.read64 (p + 8)

def writeNode (m : ByteMem) (p size next : BitVec 64) : ByteMem := (m.write64 p size).write64 (p + 8) next

def blockSize (layout : Layout) : BitVec 64 :=
  alignUp (if layout.size < 16 then 16 else layout.size) layout.align

def walkFuel : Nat := 2 ^ 64

namespace Heap

def init (m : ByteMem) : Heap :=
  { freeList := BitVec.ofNat 64 heapStart
    allocated := 0
    mem := writeNode m (BitVec.ofNat 64 heapStart) (BitVec.ofNat 64 kernelHeapSize) 0 }

def setNext (h : Heap) (prev p : BitVec 64) : Heap :=
  if prev = 0 then { h with freeList := p } else { h with mem := h.mem.write64 (prev + 8) p }

/-- Take `size` bytes at `allocStart` from the node: the branch of `alloc_impl` for a suitable block. -/
def takeNode (h : Heap) (prev node allocStart size requiredSize : BitVec 64) : Heap :=
  let allocEnd := allocStart + size
  let h' :=
    if nodeSize h.mem node > requiredSize + 16 then
      let remainderSize := nodeSize h.mem node - requiredSize
      setNext { h with mem := writeNode h.mem allocEnd remainderSize (nodeNext h.mem node) } prev allocEnd
    else h.setNext prev (nodeNext h.mem node)
  { h' with allocated := h'.allocated + size }

def allocLoop (h : Heap) (size align : BitVec 64) : Nat → BitVec 64 → BitVec 64 → Option (Heap × BitVec 64)
  | 0, _, _ => none
  | fuel + 1, prev, current =>
    if current = 0 then some (h, 0)
    else
      let alignedAddr := alignUp current align
      let padding := alignedAddr - current
      let requiredSize := padding + size
      if nodeSize h.mem current ≥ requiredSize then
        some (h.takeNode prev current alignedAddr size requiredSize, alignedAddr)
      else allocLoop h size align fuel current (nodeNext h.mem current)

/-- Allocate memory (`alloc_impl`); the address `0` is the null pointer, `none` a walk that does not end. -/
def allocImpl (h : Heap) (layout : Layout) : Option (Heap × BitVec 64) :=
  h.allocLoop (blockSize layout) layout.align walkFuel 0 h.freeList

def findPlace (m : ByteMem) (addr : BitVec 64) : Nat → BitVec 64 → BitVec 64 → Option (BitVec 64 × BitVec 64)
  | 0, _, _ => none
  | fuel + 1, prev, current =>
    if current = 0 then some (prev, current)
    else if current > addr then some (prev, current)
    else findPlace m addr fuel current (nodeNext m current)

/-- Write the header of the released block, joined with the node behind it if they touch. -/
def writeReleased (m : ByteMem) (addr size current : BitVec 64) : ByteMem :=
  if current = 0 then writeNode m addr size 0
  else if current = addr + size then writeNode m addr (size + nodeSize m current) (nodeNext m current)
  else writeNode m addr size current

/-- Link the released block behind the node `prev`, joined with it if they touch. -/
def linkReleased (h : Heap) (prev addr : BitVec 64) : Heap :=
  if prev = 0 then { h with freeList := addr }
  else if prev + nodeSize h.mem prev = addr then
    let m := h.mem.write64 prev (nodeSize h.mem prev + nodeSize h.mem addr)
    { h with mem := m.write64 (prev + 8) (nodeNext m addr) }
  else { h with mem := h.mem.write64 (prev + 8) addr }

def deallocImpl (h : Heap) (ptr : BitVec 64) (layout : Layout) : Option Heap :=
  let size := blockSize layout
  (findPlace h.mem ptr walkFuel 0 h.freeList).map fun (prev, current) =>
    let h' := linkReleased { h with mem := writeReleased h.mem ptr size current } prev ptr
    { h' with allocated := h'.allocated - size }

end Heap

/-! ### Alignment in machine words -/

theorem toNat_twoPow {k : Nat} (hk : k < 64) : (BitVec.twoPow 64 k).toNat = 2 ^ k := by
  rw [BitVec.toNat_twoPow]
  exact Nat.mod_eq_of_lt (Nat.pow_lt_pow_right (by decide) hk)

theorem getLsbD_lowMask {k i : Nat} (hk : k < 64) : (BitVec.twoPow 64 k - 1).getLsbD i = decide (i < k) := by
  have hle : 2 ^ k < 2 ^ 64 := Nat.pow_lt_pow_right (by decide) hk
  have hpos : 0 < 2 ^ k := Nat.two_pow_pos k
  have : (twoPow 64 k - 1).toNat = 2 ^ k - 1 := by
    simp [toNat_sub, toNat_twoPow hk]
    omega
  rw [getLsbD, this, Nat.testBit_two_pow_sub_one]

theorem and_not_lowMask {k : Nat} (hk : k < 64) (x : BitVec 64) :
    (x &&& ~~~(BitVec.twoPow 64 k - 1)).toNat = x.toNat / 2 ^ k * 2 ^ k := by
  apply Nat.eq_of_testBit_eq
  intro i
  rw [Nat.testBit_mul_two_pow, Nat.testBit_div_two_pow]
  change getLsbD _ i = _
  rw [getLsbD_and, getLsbD_not, getLsbD_lowMask hk]
  by_cases hi : k ≤ i
  · have hik : i - k + k = i := by omega
    by_cases h64 : i < 64
    · simp [hi, hik, h64, getLsbD]
    · have hx : x.toNat.testBit i = false := getLsbD_of_ge x i (by omega)
      simp [hik, h64, hx]
  · simp [hi]
    omega

theorem alignUp_eq {k : Nat} (hk : k < 64) (x : BitVec 64) :
    alignUp x (BitVec.twoPow 64 k) = BitVec.ofNat 64 (roundUp (2 ^ k) x.toNat) := by
  have hpos : 0 < 2 ^ k := Nat.two_pow_pos k
  have hx : (x + twoPow 64 k - 1).toNat = (x.toNat + 2 ^ k - 1) % 2 ^ 64 := by
    simp [toNat_sub, toNat_add, toNat_twoPow hk]
    omega
  have hpow : 2 ^ 64 = 2 ^ k * 2 ^ (64 - k) := by
    rw [← Nat.pow_add]
    congr 1
    omega
  apply eq_of_toNat_eq
  unfold alignUp roundUp
  rw [and_not_lowMask hk, toNat_ofNat, hx, hpow, Nat.mod_mul_right_div_self, Nat.mul_comm (2 ^ k) (2 ^ (64 - k)),
    Nat.mul_mod_mul_right]

namespace Layout

variable (layout : Layout)

def blockBytes : Nat := roundUp layout.align.toNat (max layout.size.toNat headerSize)

theorem exists_align_eq : ∃ k, layout.align.toNat = 2 ^ k := by
  obtain ⟨k, hk, hal⟩ := layout.isPow
  exact ⟨k, by rw [hal, toNat_twoPow hk]⟩

theorem align_pos : 0 < layout.align.toNat := by
  obtain ⟨k, hk, hal⟩ := layout.isPow
  rw [hal, toNat_twoPow hk]
  exact Nat.two_pow_pos k

theorem align_le : layout.align.toNat ≤ 2 ^ 63 := by
  obtain ⟨k, hk, hal⟩ := layout.isPow
  rw [hal, toNat_twoPow hk]
  exact Nat.pow_le_pow_right (by decide) (by omega)

theorem alignUp_align (x : BitVec 64) :
    alignUp x layout.align = BitVec.ofNat 64 (roundUp layout.align.toNat x.toNat) := by
  obtain ⟨k, hk, hal⟩ := layout.isPow
  rw [hal, alignUp_eq hk, toNat_twoPow hk]

theorem headerSize_le_blockBytes : headerSize ≤ layout.blockBytes :=
  Nat.le_trans (Nat.le_max_right _ _) (le_roundUp layout.align_pos)

theorem blockBytes_le : layout.blockBytes ≤ 2 ^ 63 := by
  have hh : headerSize = 16 := rfl
  unfold blockBytes
  by_cases h : layout.size.toNat ≤ headerSize
  · rw [Nat.max_eq_right h]
    -- both the header and the alignment are powers of two, so the larger one is a multiple of the other
    have hdvd : layout.align.toNat ∣ 2 ^ 63 := by
      obtain ⟨k, hk, heq⟩ := layout.isPow
      rw [heq, toNat_twoPow hk]
      exact Nat.pow_dvd_pow 2 (by omega)
    exact roundUp_le layout.align_pos hdvd (by rw [hh]; decide)
  · rw [Nat.max_eq_left (by omega)]
    have := layout.sizeLe
    omega

theorem blockSize_eq : blockSize layout = BitVec.ofNat 64 layout.blockBytes := by
  have hmax : (if layout.size < 16 then 16 else layout.size).toNat = max layout.size.toNat headerSize := by
    have hh : headerSize = 16 := rfl
    by_cases h : layout.size < 16
    · have hlt : layout.size.toNat < 16 := h
      grind
    · have hge : ¬ layout.size.toNat < 16 := h
      rw [if_neg h, hh, Nat.max_eq_left (by omega)]
  unfold blockSize
  rw [alignUp_align, hmax]
  rfl

theorem blockSize_toNat : (blockSize layout).toNat = layout.blockBytes := by
  have := layout.blockBytes_le
  simp [blockSize_eq, toNat_ofNat]
  omega

theorem padding_toNat (x : BitVec 64) :
    (alignUp x layout.align - x).toNat = padding layout.align.toNat x.toNat := by
  have hpad := padding_lt (x := x.toNat) layout.align_pos
  have hadd := add_padding (x := x.toNat) layout.align_pos
  simp [alignUp_align, toNat_sub, toNat_ofNat]
  omega

theorem requiredSize_toNat (x : BitVec 64) :
    (alignUp x layout.align - x + blockSize layout).toNat = padding layout.align.toNat x.toNat + layout.blockBytes := by
  have hpad := padding_lt (x := x.toNat) layout.align_pos
  have hal := layout.align_le
  have hb := layout.blockBytes_le
  grind [toNat_add, padding_toNat, blockSize_toNat]

end Layout

end AstralOS.Memory
