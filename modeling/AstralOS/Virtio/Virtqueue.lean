import AstralOS.Lib.Words
import AstralOS.Memory.Heap
import AstralOS.Memory.Paging

/-!
# Split virtqueues

The model of `drivers/virtio/queue.rs`.  A queue lives in one page: the descriptor table, the available ring and the used
ring, at offsets that depend on the size of the queue.  The driver goes through structures of 128 entries whatever that
size is.  The page is shared with the device, so everything the driver reads there is read from its bytes.
-/

namespace AstralOS.Virtio

open ByteBlock
open Memory (Stop)

def queueEntries : Nat := 128

def descFNext : BitVec 16 := 1

def descFWrite : BitVec 16 := 2

def availFNoInterrupt : BitVec 16 := 1

structure VirtqDesc where
  addr : BitVec 64
  len : BitVec 32
  flags : BitVec 16
  next : BitVec 16
  deriving DecidableEq

def VirtqDesc.hasNext (d : VirtqDesc) : Bool := d.flags &&& descFNext != 0

structure VirtqUsedElem where
  id : BitVec 32
  len : BitVec 32
  deriving DecidableEq

/-- A buffer: its address, its length and whether the device may write it. -/
structure Buffer where
  addr : BitVec 64
  len : BitVec 32
  writable : Bool
  deriving DecidableEq

def readDesc (page : ByteBlock) (i : Nat) : VirtqDesc where
  addr := BitVec.ofNat 64 (page.load (16 * i) 8)
  len := BitVec.ofNat 32 (page.load (16 * i + 8) 4)
  flags := BitVec.ofNat 16 (page.load (16 * i + 12) 2)
  next := BitVec.ofNat 16 (page.load (16 * i + 14) 2)

def writeDesc (page : ByteBlock) (i : Nat) (d : VirtqDesc) : ByteBlock :=
  (((page.store (16 * i) 8 d.addr.toNat).store (16 * i + 8) 4 d.len.toNat).store (16 * i + 12) 2 d.flags.toNat).store
    (16 * i + 14) 2 d.next.toNat

/-- The size of the table and the offsets of the rings (`size_requirements`). -/
def sizeRequirements (queueSize : BitVec 16) : Nat × Nat × Nat :=
  let descSize := 16 * queueSize.toNat
  let availSize := 6 + 2 * queueSize.toNat
  let availOffset := descSize
  let usedOffset := (Memory.alignUp (BitVec.ofNat 64 (availOffset + availSize)) 4).toNat
  (descSize, availOffset, usedOffset)

/-- The queue (`Virtqueue`) with the bytes of its page.  The size is one that `new` accepts. -/
structure Virtqueue where
  queueSize : BitVec 16
  availOffset : Nat
  usedOffset : Nat
  sizePow : queueSize.toNat.isPowerOfTwo ∧ queueSize.toNat ≤ queueEntries
  offsets : sizeRequirements queueSize = (16 * queueSize.toNat, availOffset, usedOffset)
  page : ByteBlock
  /-- The descriptors that are marked free (`free_desc`). -/
  free : Vector Bool queueEntries
  lastUsedIdx : BitVec 16
  nextAvailIdx : BitVec 16

namespace Virtqueue

def size (q : Virtqueue) : Nat := q.queueSize.toNat

/-! ### The page -/

section

variable (q : Virtqueue)

def availIdx : BitVec 16 := BitVec.ofNat 16 (q.page.load (q.availOffset + 2) 2)

def availRing (slot : Nat) : BitVec 16 :=
  BitVec.ofNat 16 (q.page.load (q.availOffset + 4 + 2 * slot) 2)

def usedIdx : BitVec 16 := BitVec.ofNat 16 (q.page.load (q.usedOffset + 2) 2)

def usedRing (slot : Nat) : VirtqUsedElem where
  id := BitVec.ofNat 32 (q.page.load (q.usedOffset + 4 + 8 * slot) 4)
  len := BitVec.ofNat 32 (q.page.load (q.usedOffset + 4 + 8 * slot + 4) 4)

end

def new (page : ByteBlock) (queueSize : BitVec 16) : Except String Virtqueue :=
  if h : queueSize.toNat.isPowerOfTwo ∧ queueSize.toNat ≤ queueEntries then
    let availOffset := (sizeRequirements queueSize).2.1
    let usedOffset := (sizeRequirements queueSize).2.2
    if usedOffset + 6 + 8 * queueSize.toNat > Memory.pageSize then .error "Queue too large for one page"
    else
      let page := ((page.zero 0 (16 * queueEntries)).zero availOffset (6 + 2 * queueEntries)).zero usedOffset
        (8 + 8 * queueEntries)
      .ok
        { queueSize
          availOffset
          usedOffset
          sizePow := h
          offsets := rfl
          page := page.store availOffset 2 availFNoInterrupt.toNat
          free := Vector.ofFn fun i => decide (i.val < queueSize.toNat)
          lastUsedIdx := 0
          nextAvailIdx := 0 }
  else .error "Invalid queue size"

/-! ### Descriptors -/

def isFree (q : Virtqueue) (i : Nat) : Bool := q.free.getD i false

def allocDesc (q : Virtqueue) : Option (BitVec 16) × Virtqueue :=
  match (List.range q.size).find? q.isFree with
  | some i => (some (BitVec.ofNat 16 i), { q with free := q.free.setIfInBounds i false })
  | none => (none, q)

def freeDesc (q : Virtqueue) (idx : BitVec 16) : Virtqueue :=
  if idx < q.queueSize then { q with free := q.free.setIfInBounds idx.toNat true } else q

/-- The loop of `add_buf` that takes the descriptors behind the head; if they run out, those taken are freed. -/
def allocChain : Nat → Virtqueue → List (BitVec 16) → Option (List (BitVec 16)) × Virtqueue
  | 0, q, indices => (some indices, q)
  | k + 1, q, indices =>
    match q.allocDesc with
    | (some idx, q) => allocChain k q (indices ++ [idx])
    | (none, q) => (none, indices.foldl freeDesc q)

def descOf (b : Buffer) (next : Option (BitVec 16)) : VirtqDesc where
  addr := b.addr
  len := b.len
  flags := (if b.writable then descFWrite else 0) ||| (if next.isSome then descFNext else 0)
  next := next.getD 0

/-- The loop of `add_buf` that writes the descriptors. -/
def writeChain (page : ByteBlock) : List (BitVec 16) → List Buffer → ByteBlock
  | idx :: indices, b :: bs => writeChain (writeDesc page idx.toNat (descOf b indices.head?)) indices bs
  | _, _ => page

def publish (q : Virtqueue) (head : BitVec 16) : Virtqueue :=
  let slot := q.nextAvailIdx.toNat % queueEntries
  let page := q.page.store (q.availOffset + 4 + 2 * slot) 2 head.toNat
  let idx := BitVec.ofNat 16 (page.load (q.availOffset + 2) 2) + 1
  { q with page := page.store (q.availOffset + 2) 2 idx.toNat, nextAvailIdx := q.nextAvailIdx + 1 }

/-- The checks of `add_buf` on a buffer. -/
def Buffer.Valid (b : Buffer) : Prop := b.len ≠ 0 ∧ b.addr ≠ 0

instance (b : Buffer) : Decidable (Buffer.Valid b) := inferInstanceAs (Decidable (_ ∧ _))

/-- Publish a chain of buffers (`add_buf`).  An index past the table panics. -/
def addBuf (q : Virtqueue) (head : BitVec 16) (buffers : List Buffer) : Except Stop Unit × Virtqueue :=
  if buffers = [] then (.error (.err "Empty buffer list"), q)
  else if ¬∀ b ∈ buffers, Buffer.Valid b then (.error (.err "Invalid buffer"), q)
  else
    match allocChain (buffers.length - 1) q [] with
    | (none, q) => (.error (.err "Out of descriptors"), q)
    | (some rest, q) =>
      if (head :: rest).all fun idx => idx.toNat < queueEntries then
        (.ok (), publish { q with page := writeChain q.page (head :: rest) buffers } head)
      else (.error .panic, q)

/-! ### Completions -/

/-- The loop of `get_used` that frees a chain; `none` when it panics or never ends. -/
def freeChain : Nat → Virtqueue → BitVec 16 → Option Virtqueue
  | 0, _, _ => none
  | fuel + 1, q, idx =>
    if idx.toNat < queueEntries then
      let d := readDesc q.page idx.toNat
      let q := q.freeDesc idx
      if d.hasNext then freeChain fuel q d.next else some q
    else none

def walkFuel : Nat := 2 ^ 16

/-- The next completion (`get_used`): the head of its chain and the length written; `none` when the call does not
return. -/
def getUsed (q : Virtqueue) : Option (Option (BitVec 16 × BitVec 32) × Virtqueue) :=
  if q.lastUsedIdx = q.usedIdx then some (none, q)
  else
    let elem := q.usedRing (q.lastUsedIdx.toNat % queueEntries)
    let q := { q with lastUsedIdx := q.lastUsedIdx + 1 }
    let id := elem.id.setWidth 16
    (freeChain walkFuel q id).map fun q => (some (id, elem.len), q)

end Virtqueue

end AstralOS.Virtio
