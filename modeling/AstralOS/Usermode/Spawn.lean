import AstralOS.Memory.Heap
import AstralOS.Process.Context
import AstralOS.Usermode.Elf

/-!
# Spawning a user process

The model of `usermode/spawn.rs` and of `create_user_address_space` of `arch/x86_64/usermode.rs`: a new top table with
the kernel half of the current one, the user stack, the segments of the ELF file and the kernel stack, and then the
process.  A call that stops early keeps the frames and mappings it has made.
-/

namespace AstralOS.Usermode

open Memory
open PageTableEntry (present writable user noExecute)

def ofExcept {α : Type} : Except Stop α → PhysM α
  | .ok a => pure a
  | .error e => throw e

/-! ### The address space -/

def userStackBase : BitVec 64 := 0x00007FFFFFE00000
def userStackSize : BitVec 64 := 0x10000
def userStackPages : Nat := userStackSize.toNat / pageSize

def stackPage (i : Nat) : BitVec 64 := userStackBase + BitVec.ofNat 64 (i * pageSize)

def allocateStackPage (p4 : PhysAddr) (i : Nat) : PhysM PUnit := do
  let frame ← allocateZeroed "Out of memory for user stack"
  map p4 (stackPage i) frame (present ||| writable ||| user ||| noExecute)

/-- Allocate and map the user stack (`allocate_user_stack`); the value is its top. -/
def allocateUserStack (p4 : PhysAddr) : PhysM (BitVec 64) := do
  forM (List.range userStackPages) (allocateStackPage p4)
  return (userStackBase + userStackSize) &&& ~~~0xF

@[irreducible] def kernelHalf : List (Fin 512) := (List.finRange 512).drop 256

def copyEntry (current p4 : PhysAddr) (i : Fin 512) : PhysM PUnit := do
  let s ← get
  setEntry p4 i (s.entry current i)

def copyKernelHalf (current p4 : PhysAddr) : PhysM PUnit := forM kernelHalf (copyEntry current p4)

/-- A new address space (`create_user_address_space`): its top table and the top of the user stack.  The address bits of
`cr3` give the current top table. -/
def createUserAddressSpace (cr3 : BitVec 64) : PhysM (PhysAddr × BitVec 64) := do
  let pml4 ← allocateZeroed "Out of memory for user page table"
  copyKernelHalf (.new cr3) pml4
  let stackTop ← allocateUserStack pml4
  return (pml4, stackTop)

/-! ### Segments -/

/-- The pages mapped so far with their frames (`mapped_pages`). -/
abbrev PageMap := BitVec 64 → Option PhysAddr

namespace Elf64ProgramHeader

section

variable (ph : Elf64ProgramHeader)

def virtStart : BitVec 64 := ph.vaddr &&& ~~~0xFFF

def numPages : Nat :=
  (alignUp (ph.vaddr + ph.memsz) (BitVec.ofNat 64 pageSize) - ph.virtStart).toNat / pageSize

def page (i : Nat) : BitVec 64 := ph.virtStart + BitVec.ofNat 64 (i * pageSize)

def pageFlags : BitVec 64 :=
  let flags := present ||| user
  let flags := if ph.isWritable then flags ||| writable else flags
  if !ph.isExecutable then flags ||| noExecute else flags

end

end Elf64ProgramHeader

/-- The frame of a page: the one it has, or a new one that is mapped. -/
def loadPage (p4 : PhysAddr) (ph : Elf64ProgramHeader) (mapped : PageMap) (pageVirt : BitVec 64) :
    PhysM (PhysAddr × PageMap) :=
  match mapped pageVirt with
  | some frame => pure (frame, mapped)
  | none => do
    let frame ← allocateZeroed "Out of memory loading ELF"
    (if ph.isExecutable then mapExecutable p4 pageVirt frame ph.pageFlags else map p4 pageVirt frame ph.pageFlags)
    return (frame, Function.update mapped pageVirt (some frame))

/-- Store a byte of the segment in the frame of its page; a byte past the pages is dropped. -/
def storeByte (ph : Elf64ProgramHeader) (frames : List PhysAddr) (offset : Nat) (byte : BitVec 8) : PhysM PUnit :=
  let virt := ph.vaddr + BitVec.ofNat 64 offset
  let pageIdx := ((virt &&& ~~~0xFFF) - ph.virtStart).toNat / pageSize
  match frames[pageIdx]? with
  | some frame => modify fun s => { s with mem := s.mem.write8 (frame.addr + pageOffset virt) byte }
  | none => pure ⟨⟩

def copyData (img : Image) (ph : Elf64ProgramHeader) (frames : List PhysAddr) : PhysM PUnit := do
  let data ← okOr "Invalid segment offset" (← ofExcept (ph.getData img))
  forM data.zipIdx fun (byte, offset) => storeByte ph frames offset byte

/-- Load a segment (`load_segment_with_tracking`). -/
def loadSegment (img : Image) (p4 : PhysAddr) (ph : Elf64ProgramHeader) (mapped : PageMap) : PhysM PageMap :=
  if ph.memsz = 0 then pure mapped
  else do
    let (mapped, frames) ← (List.range ph.numPages).foldlM (fun (mapped, frames) i => do
      let (frame, mapped) ← loadPage p4 ph mapped (ph.page i)
      return (mapped, frames ++ [frame])) (mapped, ([] : List PhysAddr))
    (if ph.filesz > 0 then copyData img ph frames else pure ⟨⟩)
    return mapped

/-- Load the segments in turn; the value is the highest end of one. -/
def loadSegments (img : Image) (p4 : PhysAddr) (headers : List Elf64ProgramHeader) : PhysM (BitVec 64) := do
  let (_, highest) ← headers.foldlM (fun (mapped, highest) ph =>
    if ph.type = ptLoad then do
      let mapped ← loadSegment img p4 ph mapped
      let segEnd := ph.vaddr + ph.memsz
      return (mapped, if segEnd > highest then segEnd else highest)
    else pure (mapped, highest)) ((fun _ => none : PageMap), (0 : BitVec 64))
  return highest

/-! ### The process -/

def kernelStackSize : Nat := 16384

/-- Allocate the kernel stack of a process (`allocate_kernel_stack`): its top in the direct map. -/
def allocateKernelStack (hhdm : BitVec 64) : PhysM (BitVec 64) := do
  let baseFrame ← allocateZeroed "Out of memory for kernel stack"
  forM (List.range' 1 (kernelStackSize / pageSize - 1)) fun _ => do
    let _ ← allocateZeroed "Out of memory for kernel stack"
  return baseFrame.addr + hhdm + BitVec.ofNat 64 kernelStackSize

/-- What the new process starts from. -/
structure Program where
  entryPoint : BitVec 64
  stackTop : BitVec 64
  pageTable : PhysAddr
  heapStart : BitVec 64
  kernelStack : BitVec 64

/-- The part of `spawn_user_process` that works on memory. -/
def loadProgram (hhdm cr3 : BitVec 64) (img : Image) : PhysM Program := do
  let header ← ofExcept (Elf64Header.parse img)
  if header.entry ≥ 0x0000800000000000 then throw (.err "ELF entry point is not in user space")
  else
    let (pageTable, stackTop) ← createUserAddressSpace cr3
    let headers ← ofExcept (header.programHeaders img)
    let highestAddr ← loadSegments img pageTable headers
    let heapStart := alignUp (highestAddr + 0x1000) (BitVec.ofNat 64 pageSize)
    let kernelStack ← allocateKernelStack hhdm
    return { entryPoint := header.entry, stackTop, pageTable, heapStart, kernelStack }

/-- The state `spawn_user_process` works on. -/
structure SpawnState where
  phys : Phys
  nextPid : Proc.Pid
  table : Proc.ProcessTable
  /-- The processes handed to the scheduler, the last first. -/
  ready : List (Proc.Pid × Proc.PriorityClass)

/-- What `spawn_user_process` returns (`SpawnedProcess`). -/
structure SpawnedProcess where
  pid : Proc.Pid
  entryPoint : BitVec 64
  userStack : BitVec 64
  pageTablePhys : BitVec 64

def Program.process (prog : Program) (pid : Proc.Pid) : Proc.Process :=
  { Proc.Process.new pid with
    isUserProcess := true
    userStack := prog.stackTop
    pageTable := prog.pageTable.addr
    kernelStack := prog.kernelStack
    state := .ready
    priority := .interactive
    heapStart := prog.heapStart
    heapEnd := prog.heapStart
    mmapBase := 0x0000400000000000
    registers := { Proc.Registers.new with
      rip := prog.entryPoint
      rsp := prog.stackTop
      cs := Proc.userCodeSelector.setWidth 64
      ss := Proc.userDataSelector.setWidth 64
      rflags := 0x202 } }

def spawnUserProcess (hhdm cr3 : BitVec 64) (img : Image) (s : SpawnState) : Except Stop SpawnedProcess × SpawnState :=
  match (loadProgram hhdm cr3 img).exec s.phys with
  | (.error e, phys) => (.error e, { s with phys })
  | (.ok prog, phys) =>
    let pid := s.nextPid
    let s := { s with phys, nextPid := s.nextPid + 1 }
    match s.table.add (prog.process pid) with
    | .error msg => (.error (.err msg), s)
    | .ok table =>
      (.ok ⟨pid, prog.entryPoint, prog.stackTop, prog.pageTable.addr⟩,
        { s with table, ready := (pid, .interactive) :: s.ready })

end AstralOS.Usermode
