import AstralOS.Fs.PsychicFs
import AstralOS.Graphics.Surface
import AstralOS.Memory.Heap
import AstralOS.Memory.Paging
import AstralOS.Process.Scheduler

/-!
# System calls

The model of `ring3_syscall_handler` (`arch/x86_64/syscall.rs`), which the `syscall` instruction enters, and of
`handle_syscall` (`usermode/syscall.rs`), to which it forwards the numbers it does not serve itself.  A call runs on the
state of the kernel.  It may read and write memory through pointers taken from its arguments: such an access goes through
the page tables of the running process, and its address is recorded in `touched`.  An access to an address without a
page faults, and the fault handler panics.

The screen is seen through what is put on it (`Output`); where the cursor is after that, the size of the screen, the
number of CPUs and how far `core::str::from_utf8` looks into bytes that are not valid are in the environment.
-/

namespace AstralOS.Syscall

open Memory Graphics
open Fs (FsState Disk Inode)

/-! ### Results -/

inductive SyscallError
  | invalidSyscall
  | invalidArgument
  | permissionDenied
  | notFound
  | alreadyExists
  | outOfMemory
  | interrupted
  | ioError
  | notImplemented
  deriving DecidableEq

namespace SyscallError

def code : SyscallError → BitVec 64
  | .invalidSyscall => 1
  | .invalidArgument => 2
  | .permissionDenied => 3
  | .notFound => 4
  | .alreadyExists => 5
  | .outOfMemory => 6
  | .interrupted => 7
  | .ioError => 8
  | .notImplemented => 9

def asErrno (e : SyscallError) : BitVec 64 := -e.code

end SyscallError

inductive PowerState
  | shutdown
  | reboot
  deriving DecidableEq

/-- Why a call does not return a value. -/
inductive SysStop
  | err (e : SyscallError)
  | pageFault
  | panic
  | halted
  | power (state : PowerState)
  deriving DecidableEq

/-- What a call puts on the screen. -/
inductive Output
  | text (s : String) (color : Option (BitVec 32))
  | char (c : Byte) (color : BitVec 32)
  | clear
  | clearLine
  | setCursor (x y : BitVec 64)
  | files (names : List String)
  | processes (rows : List (Proc.Pid × BitVec 32 × Proc.ProcessState × Proc.PriorityClass))
  | memory (total used free : Nat)
  | cpus (count : BitVec 8)
  | frame

/-! ### The state -/

structure SysState where
  phys : Phys
  cr3 : BitVec 64
  /-- The addresses reached through pointers from the arguments, the last first. -/
  touched : List (BitVec 64)
  keys : List Byte
  fs : FsState
  graphics : Option GraphicsServer
  procs : Proc.Sys
  cpu : Nat
  realityCounter : BitVec 64
  currentReality : BitVec 64
  shellExitRequested : Bool
  /-- What was put on the screen, the last first. -/
  output : List Output

/-- What the calls depend on and the state does not say. -/
structure Env where
  cursorPos : List Output → BitVec 64 × BitVec 64
  dimensions : BitVec 64 × BitVec 64
  cpuCount : BitVec 8
  /-- How many of the bytes at an address `core::str::from_utf8` looks at. -/
  examined : BitVec 64 → List Byte → Nat
  examined_le : ∀ p bytes, examined p bytes ≤ bytes.length
  examined_of_valid : ∀ p bytes, (Fs.fromUtf8 bytes).isSome → examined p bytes = bytes.length

abbrev SyscallM := Fallible SysState SysStop

/-- The arguments of a system call. -/
structure Args where
  arg1 : BitVec 64
  arg2 : BitVec 64
  arg3 : BitVec 64
  arg4 : BitVec 64
  arg5 : BitVec 64
  deriving DecidableEq

def fail {α : Type} (e : SyscallError) : SyscallM α := throw (.err e)

def orInvalid {α : Type} : Option α → SyscallM α
  | some a => pure a
  | none => fail .invalidArgument

def emit (o : Output) : SyscallM PUnit := modify fun s => { s with output := o :: s.output }

/-! ### Memory of the process -/

section

variable (s : SysState)

def SysState.physical (v : BitVec 64) : Option (BitVec 64) :=
  (X86.walk s.phys.mem v 3 (PhysAddr.new s.cr3).frame).map fun w => BitVec.ofNat 64 w.1

def SysState.peek (v : BitVec 64) : Byte :=
  match s.physical v with
  | some a => s.phys.mem a
  | none => 0

def SysState.bytesAt (p : BitVec 64) (n : Nat) : List Byte :=
  (List.range n).map fun i => s.peek (p + BitVec.ofNat 64 i)

def SysState.poke (v : BitVec 64) (b : Byte) : SysState :=
  match s.physical v with
  | some a => { s with phys := { s.phys with mem := s.phys.mem.write8 a b } }
  | none => s

end

def touch (v : BitVec 64) : SyscallM PUnit := do
  modify fun s => { s with touched := v :: s.touched }
  let s ← get
  if (s.physical v).isSome then pure ⟨⟩ else throw .pageFault

def touchRange (p : BitVec 64) (n : Nat) : SyscallM PUnit := forM (List.range n) fun i => touch (p + BitVec.ofNat 64 i)

def readByte (v : BitVec 64) : SyscallM Byte := do
  touch v
  let s ← get
  return s.peek v

def writeBytes (p : BitVec 64) (bytes : List Byte) : SyscallM PUnit := do
  touchRange p bytes.length
  modify fun s => bytes.zipIdx.foldl (fun s (b, i) => s.poke (p + BitVec.ofNat 64 i) b) s

/-- `is_user_pointer_valid` for elements of `sizeOf` bytes; the product may wrap around. -/
def isUserPointerValid (sizeOf ptr count : BitVec 64) : Bool :=
  let size := count * sizeOf
  if ptr ≥ 0x0000800000000000 then false
  else if ptr.toNat + size.toNat ≥ 2 ^ 64 then false
  else true

section

variable (env : Env)

/-- `core::str::from_utf8` on a slice of `len` bytes. -/
def strAt (p : BitVec 64) (len : Nat) : SyscallM (Option String) := do
  let s ← get
  let bytes := s.bytesAt p len
  touchRange p (env.examined p bytes)
  return Fs.fromUtf8 bytes

def scanString (p : BitVec 64) : Nat → Nat → SyscallM Nat
  | 0, len => pure len
  | n + 1, len => do
    let b ← readByte (p + BitVec.ofNat 64 len)
    if b = 0 then return len else scanString p n (len + 1)

def readUserString (p maxLen : BitVec 64) : SyscallM String := do
  if isUserPointerValid 1 p maxLen = false then fail .invalidArgument
  else
    let len ← scanString p maxLen.toNat 0
    orInvalid (← strAt env p len)

/-! ### Files and console -/

def getchar : SyscallM (Option Byte) := do
  let s ← get
  modify fun s => { s with keys := s.keys.tail }
  return s.keys.head?

/-- The keys `sys_read` hands out: the printable ones, newline and backspace. -/
def isTyped (key : Byte) : Bool := (key < 0x80 && key ≥ 0x20) || key == 10 || key == 8

def readKeys (buf : BitVec 64) (count : Nat) : List Byte → Nat → SyscallM Nat
  | [], n => pure n
  | key :: rest, n =>
    if n < count then do
      modify fun s => { s with keys := rest }
      if isTyped key then
        writeBytes (buf + BitVec.ofNat 64 n) [key]
        if key = 10 then return n + 1 else readKeys buf count rest (n + 1)
      else readKeys buf count rest n
    else pure n

def sysRead (fd : BitVec 32) (buf count : BitVec 64) : SyscallM (BitVec 64) := do
  if fd.msb ∨ buf = 0 ∨ count = 0 then fail .invalidArgument
  else if isUserPointerValid 1 buf count = false then fail .invalidArgument
  else if fd = 0 then
    let s ← get
    let bytesRead ← readKeys buf count.toNat s.keys 0
    return BitVec.ofNat 64 bytesRead
  else fail .notImplemented

def sysWrite (fd : BitVec 32) (buf count : BitVec 64) : SyscallM (BitVec 64) := do
  if fd.msb ∨ buf = 0 ∨ count = 0 then fail .invalidArgument
  else if isUserPointerValid 1 buf count = false then fail .invalidArgument
  else if fd = 1 ∨ fd = 2 then
    match ← strAt env buf count.toNat with
    | some str =>
      emit (.text str none)
      return count
    | none => fail .invalidArgument
  else fail .invalidArgument

def sysOpen (path : BitVec 64) : SyscallM (BitVec 64) := do
  if path = 0 then fail .invalidArgument
  else
    let _ ← readUserString env path 4096
    fail .notImplemented

def sysClose (fd : BitVec 32) : SyscallM (BitVec 64) :=
  if fd.msb then fail .invalidArgument else fail .notImplemented

def sysPrintColored (buf len : BitVec 64) (color : BitVec 32) : SyscallM (BitVec 64) := do
  if buf = 0 ∨ len = 0 ∨ isUserPointerValid 1 buf len = false then fail .invalidArgument
  else
    match ← strAt env buf len.toNat with
    | some str =>
      emit (.text str (some color))
      return len
    | none => fail .invalidArgument

def sysClearScreen : SyscallM (BitVec 64) := do
  emit .clear
  return 0

/-! ### Processes -/

/-- Run a call of the scheduler to its end, with nothing in between. -/
def completeCall : Nat → Proc.Sys → Proc.Task → Proc.Sys
  | 0, s, _ => s
  | n + 1, s, t =>
    match s.advance t with
    | (s, some t) => completeCall n s t
    | (s, none) => s

/-- `exit_process`; it has four sections. -/
def exitProcess : SyscallM PUnit := modify fun s => { s with procs := completeCall 4 s.procs (.exitLoad s.cpu) }

/-- `yield_cpu`; it has two sections. -/
def yieldCpu : SyscallM PUnit := modify fun s => { s with procs := completeCall 2 s.procs (.yieldLoad s.cpu) }

def SysState.currentProcess (s : SysState) : Option Proc.Process := s.procs.getCurrentPid.bind s.procs.table.get

def sysExit : SyscallM (BitVec 64) := do
  exitProcess
  return 0

def sysGetpid : SyscallM (BitVec 64) := do
  let s ← get
  orInvalid s.procs.getCurrentPid

def sysYield : SyscallM (BitVec 64) := do
  yieldCpu
  return 0

def sysGetuid : SyscallM (BitVec 64) := do
  let s ← get
  match s.currentProcess with
  | some proc => return proc.uid.setWidth 64
  | none => fail .permissionDenied

def sysGetProcessInfo : SyscallM (BitVec 64) := do
  let s ← get
  emit (.processes (s.procs.table.processes.filterMap fun slot =>
    slot.map fun p => (p.pid, p.uid, p.state, p.priority)))
  return 0

def sysGetMemInfo : SyscallM (BitVec 64) := do
  let s ← get
  let frames := s.phys.frames
  emit (.memory frames.totalFrames frames.usedFrames.toNat frames.freeFrames)
  return 0

def sysGetCpuInfo : SyscallM (BitVec 64) := do
  emit (.cpus env.cpuCount)
  return 0

/-! ### The heap of a process -/

/-- Run a function on physical memory; each of its errors is reported as `OutOfMemory`. -/
def onPhys {α : Type} (c : PhysM α) : SyscallM α := do
  let s ← get
  let (result, phys) := c.exec s.phys
  modify fun s => { s with phys }
  match result with
  | .ok a => return a
  | .error (.err _) => fail .outOfMemory
  | .error .panic => throw .panic

def growPage (p4 : PhysAddr) (startPage : BitVec 64) (i : Nat) : SyscallM PUnit := do
  let virt := startPage + BitVec.ofNat 64 (i * pageSize)
  let s ← get
  if (translate s.phys p4 virt).isSome then pure ⟨⟩
  else onPhys do
    let frame ← allocateZeroed "Out of memory"
    map p4 virt frame
      (PageTableEntry.present ||| PageTableEntry.writable ||| PageTableEntry.user ||| PageTableEntry.noExecute)

def setHeapEnd (pid : Proc.Pid) (heapEnd : BitVec 64) : SyscallM PUnit :=
  modify fun s => { s with procs := { s.procs with table := s.procs.table.modify pid fun p => { p with heapEnd } } }

def sysBrk (addr : BitVec 64) : SyscallM (BitVec 64) := do
  let s ← get
  let pid ← orInvalid s.procs.getCurrentPid
  let proc ← orInvalid (s.procs.table.get pid)
  if addr = 0 then return proc.heapEnd
  else if addr < proc.heapStart ∨ addr ≥ 0x0000700000000000 then fail .invalidArgument
  else
    let newEnd := alignUp addr (BitVec.ofNat 64 pageSize)
    if newEnd > proc.heapEnd then
      let startPage := alignUp proc.heapEnd (BitVec.ofNat 64 pageSize)
      let numPages := (newEnd - startPage + BitVec.ofNat 64 pageSize - 1).toNat / pageSize
      forM (List.range numPages) (growPage (.new proc.pageTable) startPage)
      setHeapEnd pid newEnd
      return newEnd
    else
      (if newEnd < proc.heapEnd then setHeapEnd pid newEnd else pure ⟨⟩)
      return newEnd

/-- The break after an increment, if it does not leave the 64 bits. -/
def moveBreak (old increment : BitVec 64) : Option (BitVec 64) :=
  if increment.msb then
    let amount := -increment
    if amount ≤ old then some (old - amount) else none
  else if old.toNat + increment.toNat < 2 ^ 64 then some (old + increment)
  else none

def sysSbrk (increment : BitVec 64) : SyscallM (BitVec 64) := do
  let s ← get
  let pid ← orInvalid s.procs.getCurrentPid
  let proc ← orInvalid (s.procs.table.get pid)
  let newBreak ← orInvalid (moveBreak proc.heapEnd increment)
  if increment ≠ 0 then
    let _ ← sysBrk newBreak
    return proc.heapEnd
  else return proc.heapEnd

/-! ### Realities, intents, capabilities -/

def enterReality : SyscallM (BitVec 64) := do
  let s ← get
  modify fun s => { s with realityCounter := s.realityCounter + 1, currentReality := s.realityCounter }
  return s.realityCounter

def sysRealityFork : SyscallM (BitVec 64) := enterReality

def sysRealityMerge : SyscallM (BitVec 64) := do
  let _ ← enterReality
  return 0

def wordBytes (v : BitVec 64) : List Byte := (List.range 8).map fun i => v.extractLsb' (8 * i) 8

def sysRealityStatus (outPtr : BitVec 64) : SyscallM (BitVec 64) := do
  if outPtr = 0 ∨ isUserPointerValid 8 outPtr 8 = false then fail .invalidArgument
  else
    let s ← get
    writeBytes outPtr (wordBytes s.currentReality)
    return 0

def sysIntentRequest (intentStr len : BitVec 64) : SyscallM (BitVec 64) :=
  if intentStr = 0 ∨ isUserPointerValid 1 intentStr len = false then fail .invalidArgument else fail .notImplemented

def sysCapabilityCheck : SyscallM (BitVec 64) := return 1

/-! ### Graphics -/

def sysGraphicsCreateSurface (width height : BitVec 32) : SyscallM (BitVec 64) := do
  if width = 0 ∨ height = 0 ∨ width > 8192 ∨ height > 8192 then fail .invalidArgument
  else
    let s ← get
    match s.graphics with
    | none => fail .outOfMemory
    | some server =>
      let (result, server) := server.createSurface width height
      modify fun s => { s with graphics := some server }
      match result with
      | .ok id => return id
      | .error _ => fail .outOfMemory

/-- The pixels are read only if the surface takes them. -/
def sysGraphicsBlit (surfaceId pixels size : BitVec 64) : SyscallM (BitVec 64) := do
  if pixels = 0 ∨ isUserPointerValid 1 pixels size = false then fail .invalidArgument
  else
    let s ← get
    match s.graphics with
    | none => fail .invalidArgument
    | some server =>
      match server.updateSurface surfaceId (s.bytesAt pixels size.toNat) with
      | .error _ => fail .invalidArgument
      | .ok server =>
        touchRange pixels size.toNat
        modify fun s => { s with graphics := some server }
        return 0

def sysGraphicsPresent (surfaceId : BitVec 64) : SyscallM (BitVec 64) := do
  let s ← get
  match s.graphics with
  | none => fail .invalidArgument
  | some server =>
    match server.presentSurface surfaceId with
    | .error _ => fail .invalidArgument
    | .ok server =>
      modify fun s => { s with graphics := some server.compositeFrame }
      emit .frame
      return 0

def sysGraphicsFillRect (surfaceId : BitVec 64) (x y w h color : BitVec 32) : SyscallM (BitVec 64) := do
  let s ← get
  match s.graphics with
  | none => fail .invalidArgument
  | some server =>
    match server.getSurface surfaceId with
    | none => fail .invalidArgument
    | some surface =>
      modify fun s => { s with graphics := some (server.setSurface surfaceId (surface.fillRect x y w h color)) }
      return 0

def packPair (p : BitVec 64 × BitVec 64) : BitVec 64 := (p.1 <<< 32) ||| p.2

def sysGraphicsGetScreenSize : SyscallM (BitVec 64) := return packPair env.dimensions

/-! ### The file system -/

def blocksRead (data : List Byte) (inode : Inode) : List Nat → Disk → List Nat
  | [], _ => []
  | logicalBlock :: rest, d =>
    match inode.getPhysicalBlock (BitVec.ofNat 16 logicalBlock) with
    | none => []
    | some physBlock =>
      match d.diskWriteSector physBlock.toNat (Fs.dataSector data logicalBlock) with
      | none => [logicalBlock]
      | some d => logicalBlock :: blocksRead data inode rest d

def writeFileReads (inode : Inode) (data : List Byte) (s : FsState) : List Nat :=
  let blocksNeeded := (data.length + 512 - 1) / 512
  if blocksNeeded = 0 then []
  else
    match Fs.allocateBlocks blocksNeeded inode.clearExtents (Fs.freeExtents inode s) with
    | (false, _, _) => []
    | (true, inode, s) => blocksRead data inode (List.range blocksNeeded) s.disk

def fsWriteReads (name : String) (data : List Byte) (s : FsState) : List Nat :=
  match Fs.findInodeByName name s.disk with
  | some (_, inode) => writeFileReads inode data s
  | none =>
    match Fs.fsCreate name s with
    | (false, _) => []
    | (true, s) =>
      match Fs.findInodeByName name s.disk with
      | some (_, inode) => writeFileReads inode data s
      | none => []

def sysFsList : SyscallM (BitVec 64) := do
  let s ← get
  emit (.files (Fs.fsList s.fs))
  return 0

def sysFsCreate (pathPtr pathLen : BitVec 64) : SyscallM (BitVec 64) := do
  if pathPtr = 0 ∨ pathLen = 0 then fail .invalidArgument
  else
    let path ← readUserString env pathPtr pathLen
    let s ← get
    let (ok, fs) := Fs.fsCreate path s.fs
    modify fun s => { s with fs }
    if ok then return 0 else fail .ioError

def touchBlock (data : BitVec 64) (len block : Nat) : SyscallM PUnit :=
  touchRange (data + BitVec.ofNat 64 (block * 512)) (min (block * 512 + 512) len - block * 512)

/-- `fs_write` copies the data block by block; after a fault the machine has stopped, and what is on the disk by then is
left out. -/
def sysFsWriteFile (pathPtr pathLen dataPtr dataLen : BitVec 64) : SyscallM (BitVec 64) := do
  if pathPtr = 0 ∨ pathLen = 0 then fail .invalidArgument
  else if dataPtr = 0 then fail .invalidArgument
  else if isUserPointerValid 1 dataPtr dataLen = false then fail .invalidArgument
  else
    let path ← readUserString env pathPtr pathLen
    let s ← get
    let data := s.bytesAt dataPtr dataLen.toNat
    forM (fsWriteReads path data s.fs) (touchBlock dataPtr dataLen.toNat)
    let (ok, fs) := Fs.fsWrite path data s.fs
    modify fun s => { s with fs }
    if ok then return dataLen else fail .ioError

def sysFsDelete (pathPtr pathLen : BitVec 64) : SyscallM (BitVec 64) := do
  if pathPtr = 0 ∨ pathLen = 0 then fail .invalidArgument
  else
    let path ← readUserString env pathPtr pathLen
    let s ← get
    let (ok, fs) := Fs.fsDelete path s.fs
    modify fun s => { s with fs }
    if ok then return 0 else fail .notFound

def sysFsReadFile (pathPtr pathLen buf bufLen : BitVec 64) : SyscallM (BitVec 64) := do
  if pathPtr = 0 ∨ pathLen = 0 then fail .invalidArgument
  else if buf = 0 ∨ isUserPointerValid 1 buf bufLen = false then fail .invalidArgument
  else
    let path ← readUserString env pathPtr pathLen
    let s ← get
    match Fs.fsRead path s.fs with
    | some data =>
      let copied := data.take bufLen.toNat
      writeBytes buf copied
      return BitVec.ofNat 64 copied.length
    | none => fail .notFound

/-- The check of the privileged calls: a process with another uid is refused, no process is not. -/
def checkRoot : SyscallM PUnit := do
  let s ← get
  match s.currentProcess with
  | some proc => if proc.uid ≠ 0 then fail .permissionDenied else pure ⟨⟩
  | none => pure ⟨⟩

def sysFsFormat : SyscallM (BitVec 64) := do
  checkRoot
  let s ← get
  let (ok, fs) := Fs.fsFormat s.fs
  modify fun s => { s with fs }
  if ok then return 0 else fail .ioError

def sysFsMount : SyscallM (BitVec 64) := do
  let s ← get
  let (ok, fs) := Fs.fsMount s.fs
  modify fun s => { s with fs }
  if ok then return 0 else fail .ioError

def sysFsSync : SyscallM (BitVec 64) := do
  modify fun s => { s with fs := Fs.fsSync s.fs }
  return 0

/-- `set_power_state` syncs the file system and does not return. -/
def setPowerState (state : PowerState) : SyscallM (BitVec 64) := do
  modify fun s => { s with fs := Fs.fsSync s.fs }
  throw (.power state)

def sysShutdown : SyscallM (BitVec 64) := do
  checkRoot
  setPowerState .shutdown

def sysReboot : SyscallM (BitVec 64) := do
  checkRoot
  setPowerState .reboot

/-! ### The extended dispatcher -/

/-- The services of `handle_syscall`. -/
inductive Service
  | read | write | open | close | exit | getpid | fork | yield | getuid | brk | sbrk
  | realityFork | realityMerge | realityStatus | intentRequest | capabilityCheck
  | createSurface | blit | present | fillRect | getScreenSize
  | fsList | getProcessInfo | getMemInfo | getCpuInfo | clearScreen | printColored
  | fsCreate | fsWriteFile | fsDelete | fsReadFile | fsFormat | fsMount | fsSync
  | shutdown | reboot
  deriving DecidableEq

def serviceTable : List (BitVec 64 × Service) :=
  [(0, .read), (1, .write), (2, .open), (3, .close), (60, .exit), (39, .getpid), (57, .fork), (158, .yield),
    (102, .getuid), (12, .brk), (45, .sbrk), (1000, .realityFork), (1001, .realityMerge), (1002, .realityStatus),
    (1010, .intentRequest), (1020, .capabilityCheck), (2000, .createSurface), (2002, .blit), (2003, .present),
    (2004, .fillRect), (2005, .getScreenSize), (200, .fsList), (201, .getProcessInfo), (202, .getMemInfo),
    (203, .getCpuInfo), (204, .clearScreen), (211, .printColored), (205, .fsCreate), (206, .fsWriteFile),
    (207, .fsDelete), (208, .fsReadFile), (213, .fsFormat), (214, .fsMount), (215, .fsSync), (220, .shutdown),
    (221, .reboot)]

def Service.call (a : Args) : Service → SyscallM (BitVec 64)
  | .read => sysRead (a.arg1.setWidth 32) a.arg2 a.arg3
  | .write => sysWrite env (a.arg1.setWidth 32) a.arg2 a.arg3
  | .open => sysOpen env a.arg1
  | .close => sysClose (a.arg1.setWidth 32)
  | .exit => sysExit
  | .getpid => sysGetpid
  | .fork => fail .notImplemented
  | .yield => sysYield
  | .getuid => sysGetuid
  | .brk => sysBrk a.arg1
  | .sbrk => sysSbrk a.arg1
  | .realityFork => sysRealityFork
  | .realityMerge => sysRealityMerge
  | .realityStatus => sysRealityStatus a.arg1
  | .intentRequest => sysIntentRequest a.arg1 a.arg2
  | .capabilityCheck => sysCapabilityCheck
  | .createSurface => sysGraphicsCreateSurface (a.arg1.setWidth 32) (a.arg2.setWidth 32)
  | .blit => sysGraphicsBlit a.arg1 a.arg2 a.arg3
  | .present => sysGraphicsPresent a.arg1
  | .fillRect =>
    sysGraphicsFillRect a.arg1 (a.arg2.setWidth 32) (a.arg3.setWidth 32) (a.arg4.setWidth 32) (a.arg5.setWidth 32)
      0xFFFFFFFF
  | .getScreenSize => sysGraphicsGetScreenSize env
  | .fsList => sysFsList
  | .getProcessInfo => sysGetProcessInfo
  | .getMemInfo => sysGetMemInfo
  | .getCpuInfo => sysGetCpuInfo env
  | .clearScreen => sysClearScreen
  | .printColored => sysPrintColored env a.arg1 a.arg2 (a.arg3.setWidth 32)
  | .fsCreate => sysFsCreate env a.arg1 a.arg2
  | .fsWriteFile => sysFsWriteFile env a.arg1 a.arg2 a.arg3 a.arg4
  | .fsDelete => sysFsDelete env a.arg1 a.arg2
  | .fsReadFile => sysFsReadFile env a.arg1 a.arg2 a.arg3 a.arg4
  | .fsFormat => sysFsFormat
  | .fsMount => sysFsMount
  | .fsSync => sysFsSync
  | .shutdown => sysShutdown
  | .reboot => sysReboot

def errnoOf (stop : SysStop) : SyscallM (BitVec 64) :=
  match stop with
  | .err e => return e.asErrno
  | stop => throw stop

def handleSyscall (num : BitVec 64) (a : Args) : SyscallM (BitVec 64) :=
  tryCatch
    (match serviceTable.lookup num with
    | some service => service.call env a
    | none => fail .invalidSyscall)
    errnoOf

/-! ### The entry point -/

/-- The numbers that `ring3_syscall_handler` serves itself, by what it does. -/
inductive Ring3Service
  | write | read | exit | getpid | getuid | yield | print | printColored | readChar | clearScreen | getCursor | setCursor
  | clearLine
  deriving DecidableEq

def ring3Table : List (BitVec 64 × Ring3Service) :=
  [(1, .write), (0, .read), (60, .exit), (39, .getpid), (102, .getuid), (24, .yield), (158, .yield), (210, .print),
    (211, .printColored), (212, .readChar), (204, .clearScreen), (213, .getCursor), (214, .setCursor), (215, .clearLine)]

/-- `write`: the bytes are read one by one, wherever they are. -/
def ring3Write (fd buf len : BitVec 64) : SyscallM (BitVec 64) := do
  if len.toNat > 4096 then return BitVec.allOnes 64
  else if fd = 1 ∧ len.toNat > 0 ∧ buf ≠ 0 then
    forM (List.range len.toNat) fun i => do
      let c ← readByte (buf + BitVec.ofNat 64 i)
      emit (.char c 0xFFFFFF)
    return len
  else return BitVec.allOnes 64

/-- `read`: one key is stored, wherever the buffer is. -/
def ring3Read (fd buf : BitVec 64) : SyscallM (BitVec 64) := do
  if fd = 0 ∧ buf ≠ 0 then
    match ← getchar with
    | some ch =>
      writeBytes buf [ch]
      return 1
    | none => return 0
  else return BitVec.allOnes 64

/-- `exit` halts the machine after a key press. -/
def ring3Exit : SyscallM (BitVec 64) := do
  modify fun s => { s with shellExitRequested := true }
  exitProcess
  emit .clear
  emit (.text "\n\n  Shell exited. Press any key to return to menu...\n" (some 0x00AAFF))
  let _ ← getchar
  emit .clear
  emit (.text "\n\n  Session ended. System halted.\n  Press Ctrl-A X (QEMU) or reset to restart.\n" (some 0xFFAA00))
  throw .halted

def ring3Getpid : SyscallM (BitVec 64) := do
  let s ← get
  return s.procs.getCurrentPid.getD 1

def ring3Getuid : SyscallM (BitVec 64) := do
  let s ← get
  match s.currentProcess with
  | some proc => return proc.uid.setWidth 64
  | none => return 0

def ring3Print (ptr len : BitVec 64) : SyscallM (BitVec 64) := do
  if len.toNat < 4096 ∧ ptr ≠ 0 then
    match ← strAt env ptr len.toNat with
    | some str =>
      emit (.text str none)
      return 0
    | none => return 0
  else return 0

def ring3PrintColored (ptr len : BitVec 64) (color : BitVec 32) : SyscallM (BitVec 64) := do
  if len.toNat > 4096 ∨ ptr = 0 then return BitVec.allOnes 64
  else
    match ← strAt env ptr len.toNat with
    | some str =>
      emit (.text str (some color))
      return 0
    | none => return 0

def ring3ReadChar : SyscallM (BitVec 64) := do
  match ← getchar with
  | some c => return c.setWidth 64
  | none => return 0

def ring3GetCursor : SyscallM (BitVec 64) := do
  let s ← get
  return packPair (env.cursorPos s.output)

def ring3Screen (o : Output) : SyscallM (BitVec 64) := do
  emit o
  return 0

def Ring3Service.call (a : Args) : Ring3Service → SyscallM (BitVec 64)
  | .write => ring3Write a.arg1 a.arg2 a.arg3
  | .read => ring3Read a.arg1 a.arg2
  | .exit => ring3Exit
  | .getpid => ring3Getpid
  | .getuid => ring3Getuid
  | .yield => return 0
  | .print => ring3Print env a.arg1 a.arg2
  | .printColored => ring3PrintColored env a.arg1 a.arg2 (a.arg3.setWidth 32)
  | .readChar => ring3ReadChar
  | .clearScreen => ring3Screen .clear
  | .getCursor => ring3GetCursor env
  | .setCursor => ring3Screen (.setCursor a.arg1 a.arg2)
  | .clearLine => ring3Screen .clearLine

def ring3SyscallHandler (num : BitVec 64) (a : Args) : SyscallM (BitVec 64) :=
  match ring3Table.lookup num with
  | some service => service.call env a
  | none => handleSyscall env num a

def accessed (num : BitVec 64) (a : Args) (s : SysState) : List (BitVec 64) :=
  ((ring3SyscallHandler env num a).exec { s with touched := [] }).2.touched

end

end AstralOS.Syscall
