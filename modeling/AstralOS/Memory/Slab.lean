import AstralOS.Lib.FreeList
import AstralOS.Lib.Linked
import AstralOS.Lib.Memory
import AstralOS.Memory.Frame

/-!
# Slabs

The model of `Slab` in `memory/slab.rs`: one page with a header of seven words at its start and objects of one size
behind it.  The objects that are not handed out form a list whose links stand in the objects themselves.  A slab is
known by the address of its page, and its functions read and write the memory there.

`SlabOk m size slab fs` says that the memory at `slab` holds a slab for objects of `size` bytes with the free list `fs`.
`SlabOk.alloc`, `SlabOk.free` and `slabOk_new` say what the three operations do to it, and which words they write.
-/

namespace AstralOS.Memory

def slabSizes : Vector Nat 8 := #v[32, 64, 128, 256, 512, 1024, 2048, 4096]

def slabHeaderSize : Nat := 56

/-- The frame allocator as the slabs see it, with a state of any type: `allocate_frame` answers with a frame of the
first 4 GiB, as the bitmap has no others. -/
structure FrameSource (φ : Type) where
  allocateFrame : φ → Option PhysAddr × φ
  deallocateFrame : φ → PhysAddr → φ
  frame_lt : ∀ s p, (allocateFrame s).1 = some p → p.frame < maxFrames

def FrameAllocator.source : FrameSource FrameAllocator where
  allocateFrame := FrameAllocator.allocate
  deallocateFrame := FrameAllocator.deallocate
  frame_lt := by
    intro a p hp
    rcases a.allocate_spec with ⟨q, hq, hfree, -⟩ | ⟨hnone, -⟩
    · obtain rfl : p = q := Option.some.inj (hp.symm.trans hq)
      exact hfree.1
    · rw [hnone] at hp
      cases hp

/-- The direct map of physical memory that the boot loader sets up: it starts at a page boundary above address zero and
has room for every frame of the bitmap below the end of the address space. -/
structure DirectMap where
  hhdm : BitVec 64
  aligned : pageSize ∣ hhdm.toNat
  pos : 0 < hhdm.toNat
  fits : hhdm.toNat + maxFrames * pageSize < 2 ^ 64

namespace Slab

/-! ### The header -/

section

variable (m : ByteMem)

/-- The word of the header for the address of the page in the direct map (`virt_addr`). -/
def virtAddr (slab : BitVec 64) : BitVec 64 := m.read64 (slab + 8)

def objectSize (slab : BitVec 64) : BitVec 64 := m.read64 (slab + 16)

def allocated (slab : BitVec 64) : BitVec 64 := m.read64 (slab + 24)

def totalObjects (slab : BitVec 64) : BitVec 64 := m.read64 (slab + 32)

def freeList (slab : BitVec 64) : BitVec 64 := m.read64 (slab + 40)

def next (slab : BitVec 64) : BitVec 64 := m.read64 (slab + 48)

def setAllocated (slab n : BitVec 64) : ByteMem := m.write64 (slab + 24) n

def setFreeList (slab obj : BitVec 64) : ByteMem := m.write64 (slab + 40) obj

def setNext (slab p : BitVec 64) : ByteMem := m.write64 (slab + 48) p

end

/-! ### The functions -/

def alignedHeader (size : Nat) : Nat := (slabHeaderSize + size - 1) / size * size

def usableObjects (size : Nat) : Nat := (pageSize - alignedHeader size) / size

def objectAddr (size : Nat) (slab : BitVec 64) (i : Nat) : BitVec 64 :=
  slab + BitVec.ofNat 64 (alignedHeader size) + BitVec.ofNat 64 (i * size)

def writeHeader (m : ByteMem) (frame : PhysAddr) (slab : BitVec 64) (size : Nat) : ByteMem :=
  let m := m.write64 slab frame.addr
  let m := m.write64 (slab + 8) slab
  let m := m.write64 (slab + 16) (BitVec.ofNat 64 size)
  let m := setAllocated m slab 0
  let m := m.write64 (slab + 32) (BitVec.ofNat 64 (usableObjects size))
  let m := setFreeList m slab 0
  setNext m slab 0

def pushObject (m : ByteMem) (slab obj : BitVec 64) : ByteMem := setFreeList (m.write64 obj (freeList m slab)) slab obj

def linkObjects (size : Nat) (slab : BitVec 64) (n : Nat) (m : ByteMem) : ByteMem :=
  (List.range n).foldl (fun m i => pushObject m slab (objectAddr size slab i)) m

/-- Make a slab for objects of `size` bytes (`Slab::new`); a frame without room for an object is given back. -/
def new {φ : Type} (src : FrameSource φ) (dm : DirectMap) (size : Nat) (frames : φ) (m : ByteMem) :
    Option (BitVec 64) × φ × ByteMem :=
  match src.allocateFrame frames with
  | (none, frames) => (none, frames, m)
  | (some frame, frames) =>
    let virtAddr := frame.toVirt dm.hhdm
    if usableObjects size = 0 then (none, src.deallocateFrame frames frame, m)
    else (some virtAddr, frames, linkObjects size virtAddr (usableObjects size) (writeHeader m frame virtAddr size))

/-- Take the first free object (`Slab::alloc`).  Without other callers the exchange of the head can only fail
spuriously, and then it is tried again with the same head. -/
def alloc (m : ByteMem) (slab : BitVec 64) : Option (BitVec 64 × ByteMem) :=
  let head := freeList m slab
  if head = 0 then none
  else
    let m := setFreeList m slab (m.read64 head)
    some (head, setAllocated m slab (allocated m slab + 1))

def free (m : ByteMem) (slab ptr : BitVec 64) : ByteMem :=
  let m := pushObject m slab ptr
  setAllocated m slab (allocated m slab - 1)

def isFull (m : ByteMem) (slab : BitVec 64) : Bool := allocated m slab ≥ totalObjects m slab

def contains (m : ByteMem) (slab ptr : BitVec 64) : Bool :=
  ptr ≥ virtAddr m slab && ptr < virtAddr m slab + BitVec.ofNat 64 pageSize

end Slab

open Slab BitVec

/-! ### Pages and objects -/

/-- The start of a page that is neither the first nor the last of the address space. -/
structure IsPage (s : BitVec 64) : Prop where
  aligned : pageSize ∣ s.toNat
  pos : 0 < s.toNat
  fits : s.toNat + pageSize < 2 ^ 64

theorem isPage_toVirt {p : PhysAddr} (hp : p.frame < maxFrames) (dm : DirectMap) : IsPage (p.toVirt dm.hhdm) := by
  have hn := p.toNat_eq
  obtain ⟨k, hk⟩ := dm.aligned
  have hpos := dm.pos
  have hfits := dm.fits
  have hps : pageSize = 4096 := rfl
  have hmax : maxFrames = 1048576 := rfl
  rw [hps] at hn hk hfits
  rw [hmax] at hp hfits
  have heq : (p.toVirt dm.hhdm).toNat = p.frame * 4096 + dm.hhdm.toNat := by
    simp [PhysAddr.toVirt, toNat_add, hn]
    omega
  refine ⟨⟨p.frame + k, ?_⟩, ?_, ?_⟩
  · rw [hps]
    omega
  · omega
  · omega

/-- A size of objects: words of eight bytes that divide the page evenly. -/
structure ClassSize (size : Nat) : Prop where
  pos : 0 < size
  words : 8 ∣ size
  divides : size ∣ pageSize

theorem classSize_slabSizes (i : Fin 8) : ClassSize (slabSizes.get i) := by
  have h : ∀ i : Fin 8, 0 < slabSizes.get i ∧ 8 ∣ slabSizes.get i ∧ slabSizes.get i ∣ pageSize := by decide
  exact ⟨(h i).1, (h i).2.1, (h i).2.2⟩

variable {m m' : ByteMem} {size : Nat} {s t p : BitVec 64} {fs : List (BitVec 64)}

namespace ClassSize

theorem dvd_alignedHeader : size ∣ alignedHeader size := dvd_roundUp

section

variable (h : ClassSize size)
include h

theorem header_le : slabHeaderSize ≤ alignedHeader size := le_roundUp h.pos

theorem alignedHeader_le : alignedHeader size ≤ pageSize :=
  roundUp_le h.pos h.divides (by decide)

theorem objects_le : alignedHeader size + usableObjects size * size ≤ pageSize := by
  have := Nat.div_mul_le_self (pageSize - alignedHeader size) size
  have := h.alignedHeader_le
  unfold usableObjects
  omega

theorem object_le {i : Nat} (hi : i < usableObjects size) :
    alignedHeader size + i * size + size ≤ pageSize := by
  have hle := Nat.mul_le_mul_right size (Nat.succ_le_of_lt hi)
  rw [Nat.succ_mul] at hle
  have := h.objects_le
  omega

theorem usableObjects_lt : usableObjects size < pageSize := by
  have hle := h.objects_le
  have hh := h.header_le
  have hmul := Nat.le_mul_of_pos_right (usableObjects size) h.pos
  have : slabHeaderSize = 56 := rfl
  omega

end

end ClassSize

def IsObject (size : Nat) (slab p : BitVec 64) : Prop := ∃ i, i < usableObjects size ∧ p = objectAddr size slab i

namespace IsPage

theorem toNat_add (h : IsPage s) {k : Nat} (hk : k < pageSize) : (s + BitVec.ofNat 64 k).toNat = s.toNat + k := by
  have := h.fits
  simp [toNat_add, toNat_ofNat]
  omega

theorem toNat_objectAddr (h : IsPage s) (hc : ClassSize size) {i : Nat} (hi : i < usableObjects size) :
    (objectAddr size s i).toNat = s.toNat + (alignedHeader size + i * size) := by
  have hle := hc.object_le hi
  have hpos := hc.pos
  unfold objectAddr
  rw [BitVec.add_assoc, ← BitVec.ofNat_add]
  exact h.toNat_add (by omega)

theorem eq_of_mem (hs : IsPage s) (ht : IsPage t) {a : Nat} (h1 : s.toNat ≤ a) (h2 : a < s.toNat + pageSize)
    (h3 : t.toNat ≤ a) (h4 : a < t.toNat + pageSize) : s = t := by
  obtain ⟨k, hk⟩ := hs.aligned
  obtain ⟨l, hl⟩ := ht.aligned
  have hps : pageSize = 4096 := rfl
  rw [hps] at hk hl h2 h4
  apply eq_of_toNat_eq
  omega

end IsPage

namespace IsObject

section

variable (h : IsObject size s p)
include h

theorem bounds (hs : IsPage s) (hc : ClassSize size) :
    s.toNat + slabHeaderSize ≤ p.toNat ∧ p.toNat + size ≤ s.toNat + pageSize ∧ size ∣ p.toNat := by
  obtain ⟨i, hi, rfl⟩ := h
  have hle := hc.object_le hi
  have hh := hc.header_le
  have hn := hs.toNat_objectAddr hc hi
  refine ⟨by omega, by omega, ?_⟩
  rw [hn]
  exact Nat.dvd_add (Nat.dvd_trans hc.divides hs.aligned) (Nat.dvd_add ClassSize.dvd_alignedHeader (Nat.dvd_mul_left ..))

theorem apart {q : BitVec 64} (h' : IsObject size s q) (hs : IsPage s) (hc : ClassSize size)
    (hne : p ≠ q) : p.toNat + size ≤ q.toNat ∨ q.toNat + size ≤ p.toNat := by
  obtain ⟨i, hi, rfl⟩ := h
  obtain ⟨j, hj, rfl⟩ := h'
  rw [hs.toNat_objectAddr hc hi, hs.toNat_objectAddr hc hj]
  have hij : i ≠ j := fun he => hne (by rw [he])
  rcases Nat.lt_or_gt_of_ne hij with hlt | hlt
  · have hle := Nat.mul_le_mul_right size (Nat.succ_le_of_lt hlt)
    rw [Nat.succ_mul] at hle
    omega
  · have hle := Nat.mul_le_mul_right size (Nat.succ_le_of_lt hlt)
    rw [Nat.succ_mul] at hle
    omega

theorem aligned (hs : IsPage s) (hc : ClassSize size) : 8 ∣ p.toNat :=
  Nat.dvd_trans hc.words (h.bounds hs hc).2.2

theorem ne_zero (hs : IsPage s) (hc : ClassSize size) : p ≠ 0 := by
  rintro rfl
  have hle : s.toNat + 56 ≤ 0 := (h.bounds hs hc).1
  omega

end

end IsObject

/-! ### The words of a slab -/

def freeWords (s : BitVec 64) : Set (BitVec 64) :=
  {a | a = s + 40 ∨ s.toNat + slabHeaderSize ≤ a.toNat ∧ a.toNat < s.toNat + pageSize}

def slabWords (s : BitVec 64) : Set (BitVec 64) := insert (s + 24) (freeWords s)

def pageWords (s : BitVec 64) : Set (BitVec 64) := {a | s.toNat ≤ a.toNat ∧ a.toNat < s.toNat + pageSize}

theorem IsObject.mem_freeWords (h : IsObject size s p) (hs : IsPage s) (hc : ClassSize size) : p ∈ freeWords s := by
  obtain ⟨h1, h2, -⟩ := h.bounds hs hc
  have := hc.pos
  exact Or.inr ⟨h1, by omega⟩

theorem IsObject.ne_field (h : IsObject size s p) (hs : IsPage s) (hc : ClassSize size) {k : Nat}
    (hk : k < slabHeaderSize) : p ≠ s + BitVec.ofNat 64 k := by
  rintro rfl
  have hle := (h.bounds hs hc).1
  grind

namespace IsPage

section

variable (h : IsPage s)
include h

theorem dvd_field {k : Nat} (hk : k < pageSize) (hd : 8 ∣ k) : 8 ∣ (s + BitVec.ofNat 64 k).toNat := by
  rw [h.toNat_add hk]
  exact Nat.dvd_add (Nat.dvd_trans (by decide) h.aligned) hd

theorem field_mem_pageWords {k : Nat} (hk : k < pageSize) : s + BitVec.ofNat 64 k ∈ pageWords s := by
  unfold pageWords
  rw [Set.mem_ofPred_eq, h.toNat_add hk]
  omega

theorem field_ne {k l : Nat} (hk : k < pageSize) (hl : l < pageSize) (hne : k ≠ l) :
    s + BitVec.ofNat 64 k ≠ s + BitVec.ofNat 64 l := by
  intro he
  have := congrArg BitVec.toNat he
  rw [h.toNat_add hk, h.toNat_add hl] at this
  omega

theorem field_notMem_freeWords {k : Nat} (hk : k < slabHeaderSize) (h40 : k ≠ 40) :
    s + BitVec.ofNat 64 k ∉ freeWords s := by
  have hlt : k < pageSize := Nat.lt_trans hk (by decide)
  rintro (he | ⟨hle, -⟩)
  · exact h.field_ne hlt (by decide) h40 he
  · rw [h.toNat_add hlt] at hle
    omega

theorem field_notMem_slabWords {k : Nat} (hk : k < slabHeaderSize) (h40 : k ≠ 40) (h24 : k ≠ 24) :
    s + BitVec.ofNat 64 k ∉ slabWords s := by
  rintro (he | hm)
  · exact h.field_ne (Nat.lt_trans hk (by decide)) (by decide) h24 he
  · exact h.field_notMem_freeWords hk h40 hm

theorem freeWords_subset_pageWords : freeWords s ⊆ pageWords s := by
  rintro a (rfl | ⟨h1, h2⟩)
  · exact h.field_mem_pageWords (by decide)
  · exact ⟨by omega, h2⟩

theorem slabWords_subset_pageWords : slabWords s ⊆ pageWords s := by
  rintro a (rfl | ha)
  · exact h.field_mem_pageWords (by decide)
  · exact h.freeWords_subset_pageWords ha

end

theorem notMem_pageWords (hs : IsPage s) (ht : IsPage t) (hne : s ≠ t) {a : BitVec 64} (ha : a ∈ pageWords t) :
    a ∉ pageWords s :=
  fun has => hne (hs.eq_of_mem ht has.1 has.2 ha.1 ha.2)

end IsPage

/-! ### The free list -/

/-- The parts of the header that never change. -/
structure HeaderOk (m : ByteMem) (size : Nat) (s : BitVec 64) : Prop where
  page : IsPage s
  virt : virtAddr m s = s
  objectSize : Slab.objectSize m s = BitVec.ofNat 64 size
  total : totalObjects m s = BitVec.ofNat 64 (usableObjects size)

/-- The objects `fs` of the slab, all different, are linked from the head. -/
structure FreeOk (m : ByteMem) (size : Nat) (s : BitVec 64) (fs : List (BitVec 64)) : Prop where
  list : Linked m.read64 0 (freeList m s) fs
  nodup : fs.Nodup
  objects : ∀ p ∈ fs, IsObject size s p

/-- The memory at `s` holds a slab for objects of `size` bytes with the free list `fs`. -/
structure SlabOk (m : ByteMem) (size : Nat) (s : BitVec 64) (fs : List (BitVec 64)) : Prop
    extends HeaderOk m size s, FreeOk m size s fs where
  counted : (allocated m s).toNat + fs.length = usableObjects size

variable {ws : Set (BitVec 64)}

theorem HeaderOk.congr (h : HeaderOk m size s) (hsame : ByteMem.SameBut ws m m')
    (hws : ∀ k, k = 8 ∨ k = 16 ∨ k = 32 → s + BitVec.ofNat 64 k ∉ ws) : HeaderOk m' size s := by
  have hkeep : ∀ k, k = 8 ∨ k = 16 ∨ k = 32 →
      m'.read64 (s + BitVec.ofNat 64 k) = m.read64 (s + BitVec.ofNat 64 k) := by
    intro k hk
    have hlt : k < pageSize ∧ 8 ∣ k := by rcases hk with rfl | rfl | rfl <;> decide
    exact hsame _ (h.page.dvd_field hlt.1 hlt.2) (hws k hk)
  exact ⟨h.page, (hkeep 8 (by simp)).trans h.virt, (hkeep 16 (by simp)).trans h.objectSize,
    (hkeep 32 (by simp)).trans h.total⟩

theorem FreeOk.pop (h : FreeOk m size s (p :: fs)) (hs : IsPage s) (hc : ClassSize size)
    (hsame : ByteMem.SameBut {s + 24, s + 40} m m') (hhead : freeList m' s = m.read64 p) : FreeOk m' size s fs := by
  obtain ⟨-, -, hfs⟩ := h.list
  refine ⟨?_, (List.nodup_cons.1 h.nodup).2, fun q hq => h.objects q (by simp [hq])⟩
  rw [hhead]
  refine hfs.congr fun q hq => ?_
  have hobj := h.objects q (by simp [hq])
  refine hsame q (hobj.aligned hs hc) ?_
  rintro (he | he)
  · exact hobj.ne_field hs hc (by decide) he
  · exact hobj.ne_field hs hc (by decide) he

theorem FreeOk.push (h : FreeOk m size s fs) (hs : IsPage s) (hc : ClassSize size) (hp : IsObject size s p)
    (hn : p ∉ fs) : FreeOk (pushObject m s p) size s (p :: fs) := by
  have hp8 := hp.aligned hs hc
  have h40 : 8 ∣ (s + 40).toNat := hs.dvd_field (k := 40) (by decide) (by decide)
  have hread : ∀ q, IsObject size s q →
      (pushObject m s p).read64 q = (m.write64 p (freeList m s)).read64 q := by
    intro q hq
    exact ByteMem.read64_write64_of_apart
      (ByteMem.apart_of_ne h40 (hq.aligned hs hc) (hq.ne_field hs hc (k := 40) (by decide)).symm)
  refine ⟨?_, List.nodup_cons.2 ⟨hn, h.nodup⟩, ?_⟩
  · have hhead : freeList (pushObject m s p) s = p := ByteMem.read64_write64 _ _ _
    rw [hhead]
    refine h.list.push (hp.ne_zero hs hc) ?_ fun q hq => ?_
    · rw [hread p hp, ByteMem.read64_write64]
    · have hobj := h.objects q hq
      rw [hread q hobj]
      refine ByteMem.read64_write64_of_apart (ByteMem.apart_of_ne hp8 (hobj.aligned hs hc) ?_)
      rintro rfl
      exact hn hq
  · intro q hq
    rcases List.mem_cons.1 hq with rfl | hq
    · exact hp
    · exact h.objects q hq

theorem sameBut_pushObject (m : ByteMem) (hs : IsPage s) (hc : ClassSize size) (hp : IsObject size s p) :
    ByteMem.SameBut (freeWords s) m (pushObject m s p) :=
  ((ByteMem.SameBut.refl m).write64 (hp.aligned hs hc) (hp.mem_freeWords hs hc)).write64
    (hs.dvd_field (k := 40) (by decide) (by decide)) (Or.inl rfl)

theorem FreeOk.length_le (h : FreeOk m size s fs) : fs.length ≤ usableObjects size := by
  have hsub : fs ⊆ (List.range (usableObjects size)).map (objectAddr size s) := by
    intro q hq
    obtain ⟨i, hi, rfl⟩ := h.objects q hq
    exact List.mem_map_of_mem (List.mem_range.2 hi)
  have := (h.nodup.subperm hsub).length_le
  simpa using this

/-! ### The operations -/

theorem SlabOk.congr (h : SlabOk m size s fs) (hc : ClassSize size) (hsame : ByteMem.SameBut ws m m')
    (hws : ∀ k, k < slabHeaderSize → 8 ∣ k → k ≠ 48 → s + BitVec.ofNat 64 k ∉ ws) (hfs : ∀ p ∈ fs, p ∉ ws) :
    SlabOk m' size s fs := by
  have hlist : freeList m' s = freeList m s :=
    hsame _ (h.page.dvd_field (k := 40) (by decide) (by decide)) (hws 40 (by decide) (by decide) (by decide))
  have hco : allocated m' s = allocated m s :=
    hsame _ (h.page.dvd_field (k := 24) (by decide) (by decide)) (hws 24 (by decide) (by decide) (by decide))
  refine ⟨h.toHeaderOk.congr hsame ?_, ⟨?_, h.nodup, h.objects⟩, ?_⟩
  · intro k hk
    have : k < slabHeaderSize ∧ 8 ∣ k ∧ k ≠ 48 := by rcases hk with rfl | rfl | rfl <;> decide
    exact hws k this.1 this.2.1 this.2.2
  · rw [hlist]
    exact h.list.congr fun p hp => hsame p ((h.objects p hp).aligned h.page hc) (hfs p hp)
  · rw [hco]
    exact h.counted

theorem SlabOk.of_page (h : SlabOk m size s fs) (hc : ClassSize size) (ht : IsPage t) (hne : t ≠ s)
    (hsame : ByteMem.SameBut (pageWords t) m m') : SlabOk m' size s fs := by
  refine h.congr hc hsame (fun k hk _ _ => ?_) fun p hp => ?_
  · exact ht.notMem_pageWords h.page hne (h.page.field_mem_pageWords (Nat.lt_trans hk (by decide)))
  · exact ht.notMem_pageWords h.page hne
      (h.page.freeWords_subset_pageWords ((h.objects p hp).mem_freeWords h.page hc))

theorem SlabOk.alloc_nil (h : SlabOk m size s []) : Slab.alloc m s = none := by
  have hnull : freeList m s = 0 := h.list
  unfold Slab.alloc
  simp [hnull]

theorem SlabOk.alloc (h : SlabOk m size s (p :: fs)) (hc : ClassSize size) :
    ∃ m', Slab.alloc m s = some (p, m') ∧ SlabOk m' size s fs ∧ ByteMem.SameBut (slabWords s) m m' := by
  obtain ⟨hhead, hp, -⟩ := h.list
  have h24 : 8 ∣ (s + 24).toNat := h.page.dvd_field (k := 24) (by decide) (by decide)
  have h40 : 8 ∣ (s + 40).toNat := h.page.dvd_field (k := 40) (by decide) (by decide)
  have hne : s + 40 ≠ s + 24 := h.page.field_ne (k := 40) (l := 24) (by decide) (by decide) (by decide)
  have hsame : ByteMem.SameBut {s + 24, s + 40} m
      (setAllocated (setFreeList m s (m.read64 p)) s (allocated (setFreeList m s (m.read64 p)) s + 1)) :=
    ((ByteMem.SameBut.refl m).write64 h40 (by simp)).write64 h24 (by simp)
  refine ⟨setAllocated (setFreeList m s (m.read64 p)) s (allocated (setFreeList m s (m.read64 p)) s + 1), ?_, ?_, ?_⟩
  · grind [Slab.alloc]
  · refine ⟨h.toHeaderOk.congr hsame ?_, h.toFreeOk.pop h.page hc hsame ?_, ?_⟩
    · simp
    · exact (ByteMem.read64_write64_of_apart (ByteMem.apart_of_ne h24 h40 hne.symm)).trans
        (ByteMem.read64_write64 _ _ _)
    · have hcount : allocated (setFreeList m s (m.read64 p)) s = allocated m s :=
        ByteMem.read64_write64_of_apart (ByteMem.apart_of_ne h40 h24 hne)
      have hnew : allocated (setAllocated (setFreeList m s (m.read64 p)) s
          (allocated (setFreeList m s (m.read64 p)) s + 1)) s = allocated m s + 1 := by
        rw [hcount]
        exact ByteMem.read64_write64 _ _ _
      have hlt := hc.usableObjects_lt
      have hps : pageSize = 4096 := rfl
      have hcounted := h.counted
      grind
  · refine hsame.mono ?_
    rintro a (rfl | rfl)
    · exact Or.inl rfl
    · exact Or.inr (Or.inl rfl)

theorem SlabOk.free (h : SlabOk m size s fs) (hc : ClassSize size) (hp : IsObject size s p) (hn : p ∉ fs) :
    SlabOk (Slab.free m s p) size s (p :: fs) ∧ ByteMem.SameBut (slabWords s) m (Slab.free m s p) := by
  have h24 : 8 ∣ (s + 24).toNat := h.page.dvd_field (k := 24) (by decide) (by decide)
  have hpush := h.toFreeOk.push h.page hc hp hn
  have hfree := sameBut_pushObject m h.page hc hp
  have hset : ∀ v, ByteMem.SameBut {s + 24} (pushObject m s p) (setAllocated (pushObject m s p) s v) :=
    fun v => (ByteMem.SameBut.refl _).write64 h24 rfl
  have hsame : ByteMem.SameBut (slabWords s) m (Slab.free m s p) :=
    (hfree.mono fun a ha => Or.inr ha).write64 h24 (Or.inl rfl)
  refine ⟨⟨h.toHeaderOk.congr hsame ?_, ⟨?_, hpush.nodup, hpush.objects⟩, ?_⟩, hsame⟩
  · intro k hk
    have : k < slabHeaderSize ∧ k ≠ 40 ∧ k ≠ 24 := by rcases hk with rfl | rfl | rfl <;> decide
    exact h.page.field_notMem_slabWords this.1 this.2.1 this.2.2
  · have hhead : freeList (Slab.free m s p) s = freeList (pushObject m s p) s :=
      hset _ _ (h.page.dvd_field (k := 40) (by decide) (by decide))
        (h.page.field_ne (k := 40) (l := 24) (by decide) (by decide) (by decide))
    rw [hhead]
    refine hpush.list.congr fun q hq => ?_
    have hobj := hpush.objects q hq
    exact hset _ _ (hobj.aligned h.page hc) (hobj.ne_field h.page hc (k := 24) (by decide))
  · have hcount : allocated (pushObject m s p) s = allocated m s :=
      hfree _ h24 (h.page.field_notMem_freeWords (k := 24) (by decide) (by decide))
    have hnew : allocated (Slab.free m s p) s = allocated m s - 1 := by
      rw [← hcount]
      exact ByteMem.read64_write64 _ _ _
    have hle := hpush.length_le
    have hcounted := h.counted
    rw [List.length_cons] at hle ⊢
    bv_omega

theorem contains_iff (h : HeaderOk m size s) (p : BitVec 64) : contains m s p = true ↔ p ∈ pageWords s := by
  have hps : pageSize = 4096 := rfl
  have hfits := h.page.fits
  have hend : (s + BitVec.ofNat 64 pageSize).toNat = s.toNat + pageSize := by
    simp [toNat_add, hps, toNat_ofNat]
    omega
  unfold contains pageWords
  rw [h.virt, Bool.and_eq_true, decide_eq_true_iff, decide_eq_true_iff, Set.mem_ofPred_eq, lt_def, hend]
  exact Iff.rfl

/-! ### New slabs -/

theorem objectAddr_injective (hs : IsPage s) (hc : ClassSize size) {i j : Nat} (hi : i < usableObjects size)
    (hj : j < usableObjects size) (he : objectAddr size s i = objectAddr size s j) : i = j := by
  have := congrArg BitVec.toNat he
  rw [hs.toNat_objectAddr hc hi, hs.toNat_objectAddr hc hj] at this
  exact Nat.eq_of_mul_eq_mul_right hc.pos (by omega)

def newObjects (size : Nat) (s : BitVec 64) (n : Nat) : List (BitVec 64) := ((List.range n).map (objectAddr size s)).reverse

theorem newObjects_succ (n : Nat) :
    newObjects size s (n + 1) = objectAddr size s n :: newObjects size s n := by
  simp [newObjects, List.range_succ]

theorem mem_newObjects {n : Nat} : p ∈ newObjects size s n ↔ ∃ i, i < n ∧ objectAddr size s i = p := by
  simp [newObjects]

theorem linkObjects_succ (n : Nat) (m : ByteMem) :
    linkObjects size s (n + 1) m = pushObject (linkObjects size s n m) s (objectAddr size s n) := by
  simp [linkObjects, List.range_succ]

theorem linkObjects_spec (hs : IsPage s) (hc : ClassSize size) (hnull : freeList m s = 0) {n : Nat}
    (hn : n ≤ usableObjects size) :
    FreeOk (linkObjects size s n m) size s (newObjects size s n) ∧
      ByteMem.SameBut (freeWords s) m (linkObjects size s n m) := by
  induction n with
  | zero => exact ⟨⟨hnull, List.nodup_nil, by simp [newObjects]⟩, ByteMem.SameBut.refl m⟩
  | succ n ih =>
    obtain ⟨hfree, hsame⟩ := ih (by omega)
    have hobj : IsObject size s (objectAddr size s n) := ⟨n, hn, rfl⟩
    rw [linkObjects_succ, newObjects_succ]
    refine ⟨hfree.push hs hc hobj ?_, hsame.trans (sameBut_pushObject _ hs hc hobj)⟩
    intro hmem
    obtain ⟨i, hi, he⟩ := mem_newObjects.1 hmem
    have := objectAddr_injective hs hc (by omega) hn he
    omega

theorem writeHeader_spec (size : Nat) (hs : IsPage s) (frame : PhysAddr) (m : ByteMem) :
    HeaderOk (writeHeader m frame s size) size s ∧ allocated (writeHeader m frame s size) s = 0 ∧
      freeList (writeHeader m frame s size) s = 0 ∧ ByteMem.SameBut (pageWords s) m (writeHeader m frame s size) := by
  -- a field is read past the fields written behind it
  have hskip : ∀ (m : ByteMem) (k l : Nat) (v : BitVec 64), (k < pageSize ∧ 8 ∣ k) ∧ (l < pageSize ∧ 8 ∣ l) ∧ k ≠ l →
      (m.write64 (s + BitVec.ofNat 64 k) v).read64 (s + BitVec.ofNat 64 l) = m.read64 (s + BitVec.ofNat 64 l) := by
    intro m k l v h
    exact ByteMem.read64_write64_of_apart (ByteMem.apart_of_ne (hs.dvd_field h.1.1 h.1.2)
      (hs.dvd_field h.2.1.1 h.2.1.2) (hs.field_ne h.1.1 h.2.1.1 h.2.2))
  have hw : ∀ {m' : ByteMem} (k : Nat) (v : BitVec 64), k < pageSize ∧ 8 ∣ k →
      ByteMem.SameBut (pageWords s) m m' → ByteMem.SameBut (pageWords s) m (m'.write64 (s + BitVec.ofNat 64 k) v) :=
    fun k v hk h => h.write64 (hs.dvd_field hk.1 hk.2) (hs.field_mem_pageWords hk.1)
  have hst : ByteMem.SameBut (pageWords s) m (m.write64 s frame.addr) :=
    (ByteMem.SameBut.refl m).write64 (Nat.dvd_trans (by decide) hs.aligned) ⟨Nat.le_refl _, by simp [pageSize]⟩
  refine ⟨⟨hs, ?_, ?_, ?_⟩, ?_, ?_, ?_⟩
  · exact (hskip _ 48 8 _ (by decide)).trans <| (hskip _ 40 8 _ (by decide)).trans <|
      (hskip _ 32 8 _ (by decide)).trans <| (hskip _ 24 8 _ (by decide)).trans <|
      (hskip _ 16 8 _ (by decide)).trans <| ByteMem.read64_write64 _ _ _
  · exact (hskip _ 48 16 _ (by decide)).trans <| (hskip _ 40 16 _ (by decide)).trans <|
      (hskip _ 32 16 _ (by decide)).trans <| (hskip _ 24 16 _ (by decide)).trans <| ByteMem.read64_write64 _ _ _
  · exact (hskip _ 48 32 _ (by decide)).trans <| (hskip _ 40 32 _ (by decide)).trans <| ByteMem.read64_write64 _ _ _
  · exact (hskip _ 48 24 _ (by decide)).trans <| (hskip _ 40 24 _ (by decide)).trans <|
      (hskip _ 32 24 _ (by decide)).trans <| ByteMem.read64_write64 _ _ _
  · exact (hskip _ 48 40 _ (by decide)).trans <| ByteMem.read64_write64 _ _ _
  · exact hw 48 _ (by decide) <| hw 40 _ (by decide) <| hw 32 _ (by decide) <| hw 24 _ (by decide) <|
      hw 16 _ (by decide) <| hw 8 _ (by decide) hst

theorem slabOk_new (hs : IsPage s) (hc : ClassSize size) (frame : PhysAddr) (m : ByteMem) :
    SlabOk (linkObjects size s (usableObjects size) (writeHeader m frame s size)) size s
        (newObjects size s (usableObjects size)) ∧
      ByteMem.SameBut (pageWords s) m (linkObjects size s (usableObjects size) (writeHeader m frame s size)) := by
  obtain ⟨hh, hzero, hnull, hsame⟩ := writeHeader_spec size hs frame m
  obtain ⟨hfree, hlink⟩ := linkObjects_spec hs hc hnull (Nat.le_refl _)
  refine ⟨⟨hh.congr hlink ?_, hfree, ?_⟩, hsame.trans (hlink.mono hs.freeWords_subset_pageWords)⟩
  · intro k hk
    have : k < slabHeaderSize ∧ k ≠ 40 := by rcases hk with rfl | rfl | rfl <;> decide
    exact hs.field_notMem_freeWords this.1 this.2
  · have hco : allocated (linkObjects size s (usableObjects size) (writeHeader m frame s size)) s = 0 :=
      (hlink _ (hs.dvd_field (k := 24) (by decide) (by decide))
        (hs.field_notMem_freeWords (k := 24) (by decide) (by decide))).trans hzero
    rw [hco]
    simp [newObjects]

end AstralOS.Memory
