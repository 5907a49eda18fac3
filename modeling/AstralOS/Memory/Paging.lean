import AstralOS.Lib.Fallible
import AstralOS.Lib.PageTable
import AstralOS.Memory.Frame

/-!
# Page tables

The model of `memory/paging.rs`.  The kernel reaches physical memory through the direct map of the boot loader, so a
table is read and written at its physical address.  A call that runs out of frames or finds the page mapped stops with
the text of its error and keeps what it has done to the tables up to there.
-/

namespace AstralOS.Memory

open BitVec

structure Phys where
  mem : ByteMem
  frames : FrameAllocator

/-- How a function of the kernel stops early: with the text of an `Err`, or in a panic. -/
inductive Stop
  | err (msg : String)
  | panic
  deriving DecidableEq

abbrev PhysM := Fallible Phys Stop

def okOr {α : Type} (msg : String) : Option α → PhysM α
  | some a => pure a
  | none => throw (.err msg)

def allocateFrame : PhysM (Option PhysAddr) := do
  let s ← get
  modify fun s => { s with frames := s.frames.allocate.2 }
  return s.frames.allocate.1

def zeroFrame (frame : PhysAddr) : PhysM PUnit :=
  modify fun s => { s with mem := s.mem.fill frame.addr pageSize 0 }

def allocateZeroed (msg : String) : PhysM PhysAddr := do
  let frame ← okOr msg (← allocateFrame)
  zeroFrame frame
  return frame

/-! ### Entries -/

namespace PageTableEntry

def present : BitVec 64 := 1 <<< 0
def writable : BitVec 64 := 1 <<< 1
def user : BitVec 64 := 1 <<< 2
def writeThrough : BitVec 64 := 1 <<< 3
def noCache : BitVec 64 := 1 <<< 4
def noExecute : BitVec 64 := 1 <<< 63

def isPresent (e : BitVec 64) : Bool := e &&& present != 0

def setPresent (e : BitVec 64) (p : Bool) : BitVec 64 := if p then e ||| present else e &&& ~~~present

/-- The address in an entry; the mask is the one of `PhysAddr::new`. -/
def physicalAddress (e : BitVec 64) : PhysAddr := .new e

def setAddress (addr flags : BitVec 64) : BitVec 64 :=
  (addr &&& physMask) ||| (flags &&& 0xFFF) ||| (flags &&& noExecute)

end PageTableEntry

open PageTableEntry (isPresent setPresent physicalAddress setAddress)

/-! ### Virtual addresses -/

def tableIndex (shift : Nat) (virt : BitVec 64) : Fin 512 :=
  ⟨((virt >>> shift) &&& 0x1FF).toNat, by
    rw [BitVec.toNat_and]
    exact Nat.lt_of_le_of_lt Nat.and_le_right (by decide)⟩

def p4Index : BitVec 64 → Fin 512 := tableIndex 39
def p3Index : BitVec 64 → Fin 512 := tableIndex 30
def p2Index : BitVec 64 → Fin 512 := tableIndex 21
def p1Index : BitVec 64 → Fin 512 := tableIndex 12

def pageOffset (virt : BitVec 64) : BitVec 64 := virt &&& 0xFFF

/-! ### Tables -/

def Phys.entry (s : Phys) (table : PhysAddr) (i : Fin 512) : BitVec 64 := X86.entry s.mem table.frame i

def Phys.write (s : Phys) (table : PhysAddr) (i : Fin 512) (e : BitVec 64) : Phys :=
  { s with mem := s.mem.write64 (X86.entryAddr table.frame i) e }

def setEntry (table : PhysAddr) (i : Fin 512) (e : BitVec 64) : PhysM PUnit := modify fun s => s.write table i e

def PageTableManager.new : PhysM (Option PhysAddr) := do
  match ← allocateFrame with
  | none => return none
  | some frame =>
    zeroFrame frame
    return some frame

def interFlags : BitVec 64 := PageTableEntry.present ||| PageTableEntry.writable ||| PageTableEntry.user

/-- The next table down: the one the entry leads to, or a new empty one.  With `force`, as in `map_executable`, the
flags of an entry that is present are written anew. -/
def nextTable (force : Bool) (table : PhysAddr) (i : Fin 512) : PhysM PhysAddr := do
  let s ← get
  if isPresent (s.entry table i) then
    let addr := physicalAddress (s.entry table i)
    (if force then setEntry table i (setAddress addr.addr interFlags) else pure ⟨⟩)
    return addr
  else
    let frame ← allocateZeroed "Out of memory"
    setEntry table i (setAddress frame.addr interFlags)
    return frame

def lastTable (force : Bool) (p4 : PhysAddr) (virt : BitVec 64) : PhysM PhysAddr := do
  let p3 ← nextTable force p4 (p4Index virt)
  let p2 ← nextTable force p3 (p3Index virt)
  nextTable force p2 (p2Index virt)

def map (p4 : PhysAddr) (virt : BitVec 64) (phys : PhysAddr) (flags : BitVec 64) : PhysM PUnit := do
  let p1 ← lastTable false p4 virt
  let s ← get
  if isPresent (s.entry p1 (p1Index virt)) then throw (.err "Page already mapped")
  else setEntry p1 (p1Index virt) (setAddress phys.addr flags)

/-- Map a page to a frame for execution (`map_executable`); an entry that is present is overwritten. -/
def mapExecutable (p4 : PhysAddr) (virt : BitVec 64) (phys : PhysAddr) (flags : BitVec 64) : PhysM PUnit := do
  let p1 ← lastTable true p4 virt
  setEntry p1 (p1Index virt) (setAddress phys.addr (flags &&& ~~~PageTableEntry.noExecute))

def Phys.next (s : Phys) (table : PhysAddr) (i : Fin 512) : Option PhysAddr :=
  if isPresent (s.entry table i) then some (physicalAddress (s.entry table i)) else none

def unmap (p4 : PhysAddr) (virt : BitVec 64) : PhysM PhysAddr := do
  let s ← get
  let p3 ← okOr "P3 not present" (s.next p4 (p4Index virt))
  let p2 ← okOr "P2 not present" (s.next p3 (p3Index virt))
  let p1 ← okOr "P1 not present" (s.next p2 (p2Index virt))
  let phys ← okOr "Page not mapped" (s.next p1 (p1Index virt))
  setEntry p1 (p1Index virt) (setPresent (s.entry p1 (p1Index virt)) false)
  return .new phys.addr

def translate (s : Phys) (p4 : PhysAddr) (virt : BitVec 64) : Option PhysAddr := do
  let p3 ← s.next p4 (p4Index virt)
  let p2 ← s.next p3 (p3Index virt)
  let p1 ← s.next p2 (p2Index virt)
  let page ← s.next p1 (p1Index virt)
  return .new (page.addr + pageOffset virt)

/-! ### Entries and the CPU -/

theorem tableIndex_eq_index (level : Nat) (virt : BitVec 64) : tableIndex (12 + 9 * level) virt = X86.index level virt := by
  simpa [tableIndex, X86.index, toNat_and, toNat_ushiftRight,
    Nat.shiftRight_eq_div_pow] using Nat.and_two_pow_sub_one_eq_mod _ 9

theorem toNat_pageOffset (virt : BitVec 64) : (pageOffset virt).toNat = virt.toNat % 4096 := by
  unfold pageOffset
  exact Nat.and_two_pow_sub_one_eq_mod _ 12

theorem PhysAddr.toNat_add_pageOffset (p : PhysAddr) (virt : BitVec 64) :
    (p.addr + pageOffset virt).toNat = 4096 * p.frame + virt.toNat % 4096 := by
  have hlt := p.frame_lt
  have hsize : pageSize = 4096 := rfl
  rw [toNat_add, p.toNat_eq, toNat_pageOffset, hsize]
  omega

theorem PhysAddr.frameOf_add_pageOffset (p : PhysAddr) (virt : BitVec 64) :
    X86.frameOf (p.addr + pageOffset virt) = p.frame := by
  unfold X86.frameOf
  rw [p.toNat_add_pageOffset]
  omega

theorem isPresent_eq (e : BitVec 64) : isPresent e = X86.present e :=
  Bitmap.and_mask_ne_zero e (b := 0) (by decide)

theorem frame_physicalAddress (e : BitVec 64) : (physicalAddress e).frame = X86.target e := by
  unfold physicalAddress X86.target PhysAddr.frame
  rw [PhysAddr.new_toNat, Nat.mul_div_cancel _ (by decide)]
  rfl

theorem or_and_physMask (a flags : BitVec 64) : setAddress a flags &&& physMask = a &&& physMask := by
  have hmask : ∀ i : Fin 64, physMask.getLsbD i = true →
      (0xFFF : BitVec 64).getLsbD i = false ∧ PageTableEntry.noExecute.getLsbD i = false := by decide
  apply eq_of_getLsbD_eq
  intro i hi
  unfold setAddress
  rw [getLsbD_and, getLsbD_or, getLsbD_or, getLsbD_and, getLsbD_and,
    getLsbD_and]
  cases hm : physMask.getLsbD i with
  | false => simp
  | true =>
    obtain ⟨h1, h2⟩ := hmask ⟨i, hi⟩ hm
    simp_all [h1, h2]

@[simp] theorem physicalAddress_setAddress (p : PhysAddr) (flags : BitVec 64) :
    physicalAddress (setAddress p.addr flags) = p :=
  PhysAddr.ext ((or_and_physMask p.addr flags).trans p.masked)

@[simp] theorem target_setAddress (p : PhysAddr) (flags : BitVec 64) : X86.target (setAddress p.addr flags) = p.frame := by
  rw [← frame_physicalAddress, physicalAddress_setAddress]

theorem getLsbD_setAddress (addr flags : BitVec 64) {i : Nat} (hi : i < 12) :
    (setAddress addr flags).getLsbD i = flags.getLsbD i := by
  have hmask : ∀ j : Fin 12, physMask.getLsbD j = false ∧ (0xFFF : BitVec 64).getLsbD j = true ∧
      PageTableEntry.noExecute.getLsbD j = false := by decide
  obtain ⟨h1, h2, h3⟩ := hmask ⟨i, hi⟩
  simp_all [setAddress, getLsbD_or, getLsbD_and]

theorem writable_setAddress (addr flags : BitVec 64) :
    setAddress addr flags &&& PageTableEntry.writable ≠ 0 ↔ flags.getLsbD 1 = true := by
  rw [← bne_iff_ne, ← getLsbD_setAddress addr flags (by decide)]
  exact Bool.eq_iff_iff.1 (Bitmap.and_mask_ne_zero _ (b := 1) (by decide))

theorem noExecute_setAddress (addr flags : BitVec 64) :
    setAddress addr flags &&& PageTableEntry.noExecute = 0 ↔ flags.getLsbD 63 = false := by
  have hmask : physMask.getLsbD 63 = false ∧ (0xFFF : BitVec 64).getLsbD 63 = false ∧
      PageTableEntry.noExecute.getLsbD 63 = true := by decide
  have hbit : (setAddress addr flags).getLsbD 63 = flags.getLsbD 63 := by
    simp_all [setAddress, hmask.2.2]
  have hne : (setAddress addr flags &&& PageTableEntry.noExecute != 0) = (setAddress addr flags).getLsbD 63 :=
    Bitmap.and_mask_ne_zero _ (b := 63) (by decide)
  rw [← hbit, ← hne, bne_eq_false_iff_eq]

@[simp] theorem present_setAddress (addr flags : BitVec 64) :
    X86.present (setAddress addr flags) = flags.getLsbD 0 :=
  getLsbD_setAddress addr flags (by decide)

@[simp] theorem present_setPresent_false (e : BitVec 64) : X86.present (setPresent e false) = false := by
  have hbit : (~~~PageTableEntry.present).getLsbD 0 = false := by decide
  simp_all [X86.present, setPresent, getLsbD_and, hbit, Bool.and_false]

@[simp] theorem huge_setAddress (addr flags : BitVec 64) : X86.huge (setAddress addr flags) = flags.getLsbD 7 :=
  getLsbD_setAddress addr flags (by decide)

end AstralOS.Memory
