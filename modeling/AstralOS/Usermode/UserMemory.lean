import AstralOS.Fs.Capacity
import AstralOS.Fs.Clean
import AstralOS.Usermode.Access

/-!
# System calls and user memory

Which system calls stay inside user memory, the addresses below `0x0000_8000_0000_0000`.  The handler itself serves `read`,
`write`, `print` and `print_colored` without looking at where the buffer is, and `is_user_pointer_valid`, the check of the
forwarded calls, looks at the first address of the buffer only.  `UserRange` says for every number and all arguments
whether the call is safe in every state of the kernel (`accessed_user_iff`); `write` with a buffer of the kernel is not
(`ring3_write_reads_kernel_memory`).
-/

namespace AstralOS.Syscall

open Memory Fallible Graphics
open Fs (FsState Disk Inode)

/-! ### The condition -/

def IsSurfaceSize (n : Nat) : Prop := ∃ surface : Surface, n = surface.expectedSize

def maxWrite : Nat := 8192 * 512

/-- The arguments of a service that `ring3_syscall_handler` forwards: what the checks of the service accept lies in user
memory as far as the service uses it. -/
def Service.UserRange (a : Args) : Service → Prop
  | .open => a.arg1 ≠ 0 → isUserPointerValid 1 a.arg1 4096 = true → Below a.arg1 4096
  | .realityStatus => a.arg1 ≠ 0 → isUserPointerValid 8 a.arg1 8 = true → Below a.arg1 8
  | .blit =>
    a.arg2 ≠ 0 → isUserPointerValid 1 a.arg2 a.arg3 = true → IsSurfaceSize a.arg3.toNat → Below a.arg2 a.arg3.toNat
  | .fsCreate | .fsDelete =>
    a.arg1 ≠ 0 → a.arg2 ≠ 0 → isUserPointerValid 1 a.arg1 a.arg2 = true → Below a.arg1 a.arg2.toNat
  | .fsWriteFile =>
    a.arg1 ≠ 0 → a.arg2 ≠ 0 → a.arg3 ≠ 0 → isUserPointerValid 1 a.arg3 a.arg4 = true →
      isUserPointerValid 1 a.arg1 a.arg2 = true →
      Below a.arg1 a.arg2.toNat ∧ (a.arg4.toNat ≤ maxWrite → Below a.arg3 a.arg4.toNat)
  | .fsReadFile =>
    a.arg1 ≠ 0 → a.arg2 ≠ 0 → a.arg3 ≠ 0 → isUserPointerValid 1 a.arg3 a.arg4 = true →
      isUserPointerValid 1 a.arg1 a.arg2 = true →
      Below a.arg1 a.arg2.toNat ∧ Below a.arg3 (min a.arg4.toNat (2 ^ 32 - 1))
  | _ => True

/-- The arguments of a service of `ring3_syscall_handler` itself. -/
def Ring3Service.UserRange (a : Args) : Ring3Service → Prop
  | .write => a.arg1 = 1 → a.arg3.toNat ≤ 4096 → a.arg2 ≠ 0 → Below a.arg2 a.arg3.toNat
  | .read => a.arg1 = 0 → a.arg2 ≠ 0 → Below a.arg2 1
  | .print => a.arg2.toNat < 4096 → a.arg1 ≠ 0 → Below a.arg1 a.arg2.toNat
  | .printColored => a.arg2.toNat ≤ 4096 → a.arg1 ≠ 0 → Below a.arg1 a.arg2.toNat
  | _ => True

def UserRange (num : BitVec 64) (a : Args) : Prop :=
  match ring3Table.lookup num with
  | some service => service.UserRange a
  | none =>
    match serviceTable.lookup num with
    | some service => service.UserRange a
    | none => True

variable {s : SysState} (env : Env)

/-! ### Services without pointers -/

theorem quiet_getchar : Quiet getchar := quiet_get.bind fun _ => quiet_modify_bind (fun _ => rfl) fun _ => quiet_pure _

theorem quiet_exitProcess : Quiet exitProcess := quiet_modify fun _ => rfl

theorem quiet_onPhys {α : Type} (c : PhysM α) : Quiet (onPhys c) := by
  refine quiet_get.bind fun s => ?_
  refine quiet_modify_bind (fun _ => rfl) fun _ => ?_
  split
  · exact quiet_pure _
  · exact quiet_fail _
  · exact quiet_throw _

theorem quiet_growPage (p4 : PhysAddr) (startPage : BitVec 64) (i : Nat) : Quiet (growPage p4 startPage i) :=
  quiet_get.bind fun _ => quiet_ite (quiet_pure _) (quiet_onPhys _)

theorem quiet_sysBrk (addr : BitVec 64) : Quiet (sysBrk addr) := by
  refine quiet_get.bind fun s => (quiet_orInvalid _).bind fun pid => (quiet_orInvalid _).bind fun proc => ?_
  refine quiet_ite (quiet_pure _) (quiet_ite (quiet_fail _) (quiet_ite ?_ ?_))
  · exact (quiet_forM _ fun _ => quiet_growPage _ _ _).bind fun _ =>
      quiet_modify_bind (fun _ => rfl) fun _ => quiet_pure _
  · refine Quiet.bind (quiet_ite ?_ (quiet_pure _)) fun _ => quiet_pure _
    exact quiet_modify fun _ => rfl

theorem quiet_sysSbrk (increment : BitVec 64) : Quiet (sysSbrk increment) := by
  refine quiet_get.bind fun s => (quiet_orInvalid _).bind fun pid => (quiet_orInvalid _).bind fun proc => ?_
  refine (quiet_orInvalid _).bind fun newBreak => quiet_ite ?_ (quiet_pure _)
  exact (quiet_sysBrk newBreak).bind fun _ => quiet_pure _

theorem quiet_enterReality : Quiet enterReality :=
  quiet_get.bind fun _ => quiet_modify_bind (fun _ => rfl) fun _ => quiet_pure _

theorem quiet_sysGetuid : Quiet sysGetuid := by
  refine quiet_get.bind fun s => ?_
  split
  · exact quiet_pure _
  · exact quiet_fail _

theorem quiet_createSurface (width height : BitVec 32) : Quiet (sysGraphicsCreateSurface width height) := by
  refine quiet_ite (quiet_fail _) (quiet_get.bind fun s => ?_)
  split
  · exact quiet_fail _
  · refine quiet_modify_bind (fun _ => rfl) fun _ => ?_
    split
    · exact quiet_pure _
    · exact quiet_fail _

theorem quiet_present (surfaceId : BitVec 64) : Quiet (sysGraphicsPresent surfaceId) := by
  refine quiet_get.bind fun s => ?_
  split
  · exact quiet_fail _
  · split
    · exact quiet_fail _
    · exact quiet_modify_bind (fun _ => rfl) fun _ => (quiet_emit _).bind fun _ => quiet_pure _

theorem quiet_fillRect (surfaceId : BitVec 64) (x y w h color : BitVec 32) :
    Quiet (sysGraphicsFillRect surfaceId x y w h color) := by
  refine quiet_get.bind fun s => ?_
  split
  · exact quiet_fail _
  · split
    · exact quiet_fail _
    · exact quiet_modify_bind (fun _ => rfl) fun _ => quiet_pure _

theorem quiet_checkRoot : Quiet checkRoot := by
  refine quiet_get.bind fun s => ?_
  split
  · exact quiet_ite (quiet_fail _) (quiet_pure _)
  · exact quiet_pure _

theorem quiet_finish (result : Bool × FsState) (value : BitVec 64) (e : SyscallError) :
    Quiet (match result with
      | (ok, fs) => do
        modify fun s => { s with fs }
        if ok then return value else fail e : SyscallM (BitVec 64)) :=
  quiet_modify_bind (fun _ => rfl) fun _ => quiet_ite (quiet_pure _) (quiet_fail _)

theorem quiet_setPowerState (state : PowerState) : Quiet (setPowerState state) :=
  quiet_modify_bind (fun _ => rfl) fun _ => quiet_throw _

variable {service : Service}

theorem quiet_call (a : Args)
    (h : service ∉ [.read, .write, .printColored, .open, .realityStatus, .blit, .fsCreate, .fsDelete, .fsWriteFile,
      .fsReadFile]) : Quiet (service.call env a) := by
  cases service with
  | read | write | printColored | «open» | realityStatus | blit | fsCreate | fsDelete | fsWriteFile | fsReadFile =>
    exact absurd (by decide) h
  | close | intentRequest => exact quiet_ite (quiet_fail _) (quiet_fail _)
  | exit => exact quiet_exitProcess.bind fun _ => quiet_pure _
  | getpid => exact quiet_get.bind fun _ => quiet_orInvalid _
  | fork => exact quiet_fail _
  | yield | fsSync => exact quiet_modify_bind (fun _ => rfl) fun _ => quiet_pure _
  | getuid => exact quiet_sysGetuid
  | brk => exact quiet_sysBrk _
  | sbrk => exact quiet_sysSbrk _
  | realityFork => exact quiet_enterReality
  | realityMerge => exact quiet_enterReality.bind fun _ => quiet_pure _
  | capabilityCheck => exact quiet_pure _
  | createSurface => exact quiet_createSurface _ _
  | present => exact quiet_present _
  | fillRect => exact quiet_fillRect _ _ _ _ _ _
  | getScreenSize => exact quiet_pure _
  | fsList | getProcessInfo | getMemInfo => exact quiet_get.bind fun _ => (quiet_emit _).bind fun _ => quiet_pure _
  | getCpuInfo | clearScreen => exact (quiet_emit _).bind fun _ => quiet_pure _
  | fsFormat => exact quiet_checkRoot.bind fun _ => quiet_get.bind fun _ => quiet_finish _ _ _
  | fsMount => exact quiet_get.bind fun _ => quiet_finish _ _ _
  | shutdown | reboot => exact quiet_checkRoot.bind fun _ => quiet_setPowerState _

/-! ### Services with pointers stay in user memory -/

theorem finish_userOnly (result : Bool × FsState) (value : BitVec 64) (e : SyscallError) :
    Keeps UserOnly (match result with
      | (ok, fs) => do
        modify fun s => { s with fs }
        if ok then return value else fail e : SyscallM (BitVec 64)) :=
  (quiet_finish result value e).userOnly

variable {a : Args}

theorem sysOpen_userOnly (h : Service.UserRange a .open) : Keeps UserOnly (sysOpen env a.arg1) := by
  unfold sysOpen
  split
  · exact keeps_throw _
  · rename_i hne
    exact (readUserString_userOnly env (h hne)).bind fun _ => keeps_throw _

theorem sysRealityStatus_userOnly (h : Service.UserRange a .realityStatus) :
    Keeps UserOnly (sysRealityStatus a.arg1) := by
  unfold sysRealityStatus
  split
  · exact keeps_throw _
  · rename_i hok
    rw [not_or, Bool.not_eq_false] at hok
    exact keeps_get.bind fun s => (writeBytes_userOnly (h hok.1 hok.2)).bind fun _ => keeps_pure _

variable {data : List Byte}

theorem updateSurface_size {server server' : GraphicsServer} {id : BitVec 64}
    (h : server.updateSurface id data = .ok server') : IsSurfaceSize data.length := by
  unfold GraphicsServer.updateSurface at h
  cases hg : server.getSurface id with
  | none =>
    rw [hg] at h
    cases h
  | some surface =>
    rw [hg] at h
    dsimp only at h
    by_cases hsize : data.length ≠ surface.expectedSize
    · rw [Surface.updatePixels, dif_pos hsize] at h
      cases h
    · exact ⟨surface, not_not.1 hsize⟩

theorem sysGraphicsBlit_userOnly (h : Service.UserRange a .blit) :
    Keeps UserOnly (sysGraphicsBlit a.arg1 a.arg2 a.arg3) := by
  unfold sysGraphicsBlit
  split
  · exact keeps_throw _
  · rename_i hok
    rw [not_or, Bool.not_eq_false] at hok
    refine keeps_get.bind fun s => ?_
    split
    · exact keeps_throw _
    · split
      · exact keeps_throw _
      · rename_i server' hu
        have hsize := updateSurface_size hu
        rw [length_bytesAt] at hsize
        refine (touchRange_userOnly (h hok.1 hok.2 hsize)).bind fun _ => ?_
        refine Quiet.userOnly ?_
        exact quiet_modify_bind (fun _ => rfl) fun _ => quiet_pure _

theorem sysFsCreate_userOnly (h : Service.UserRange a .fsCreate) :
    Keeps UserOnly (sysFsCreate env a.arg1 a.arg2) := by
  unfold sysFsCreate
  split
  · exact keeps_throw _
  · rename_i hok
    rw [not_or] at hok
    exact (readUserString_userOnly env (h hok.1 hok.2)).bind fun _ => keeps_get.bind fun _ => finish_userOnly _ _ _

theorem sysFsDelete_userOnly (h : Service.UserRange a .fsDelete) :
    Keeps UserOnly (sysFsDelete env a.arg1 a.arg2) := by
  unfold sysFsDelete
  split
  · exact keeps_throw _
  · rename_i hok
    rw [not_or] at hok
    exact (readUserString_userOnly env (h hok.1 hok.2)).bind fun _ => keeps_get.bind fun _ => finish_userOnly _ _ _

variable {p : BitVec 64}

theorem readUserString_bind_userOnly {α : Type} {maxLen : BitVec 64} {f : String → SyscallM α}
    (hread : isUserPointerValid 1 p maxLen = true → Below p maxLen.toNat)
    (hf : isUserPointerValid 1 p maxLen = true → ∀ path, Keeps UserOnly (f path)) :
    Keeps UserOnly (readUserString env p maxLen >>= f) := by
  by_cases hv : isUserPointerValid 1 p maxLen = true
  · exact (readUserString_userOnly env hread).bind (hf hv)
  · intro s hs
    unfold readUserString
    rw [if_pos (Bool.eq_false_iff.2 hv)]
    exact ends_bind (ends_throw hs)

variable {l : Nat}

theorem blocksRead_subset (data : List Byte) (inode : Inode) (blocks : List Nat) (d : Disk)
    (h : l ∈ blocksRead data inode blocks d) : l ∈ blocks := by
  induction blocks generalizing d with
  | nil => exact h
  | cons b blocks ih =>
    rw [blocksRead] at h
    split at h
    · cases h
    · split at h
      · simp [List.mem_singleton.1 h]
      · rcases List.mem_cons.1 h with rfl | h
        · exact List.mem_cons_self
        · exact List.mem_cons_of_mem b (ih _ h)

variable {inode : Inode}

theorem mem_writeFileReads {fs : FsState}
    (h : l ∈ writeFileReads inode data fs) : l * 512 < data.length ∧ data.length ≤ maxWrite := by
  unfold writeFileReads at h
  dsimp only at h
  split at h
  · cases h
  · split at h
    · cases h
    · rename_i hok
      have hle := Fs.allocateBlocks_le (Inode.hasRuns_clearExtents inode) (congrArg Prod.fst hok)
      have hl := List.mem_range.1 (blocksRead_subset _ _ _ _ h)
      unfold maxWrite
      omega

theorem mem_fsWriteReads {name : String} {fs : FsState}
    (h : l ∈ fsWriteReads name data fs) : l * 512 < data.length ∧ data.length ≤ maxWrite := by
  unfold fsWriteReads at h
  split at h
  · exact mem_writeFileReads h
  · split at h
    · cases h
    · split at h
      · exact mem_writeFileReads h
      · cases h

theorem sysFsWriteFile_userOnly (h : Service.UserRange a .fsWriteFile) :
    Keeps UserOnly (sysFsWriteFile env a.arg1 a.arg2 a.arg3 a.arg4) := by
  unfold sysFsWriteFile
  split
  · exact keeps_throw _
  · rename_i hpath
    rw [not_or] at hpath
    split
    · exact keeps_throw _
    · rename_i hdata
      split
      · exact keeps_throw _
      · rename_i hva
        rw [Bool.not_eq_false] at hva
        have h := h hpath.1 hpath.2 hdata hva
        refine readUserString_bind_userOnly env (fun hv => (h hv).1) fun hv path => ?_
        refine keeps_get.bind fun s => Keeps.bind (keeps_forM _ fun l hl => ?_) fun _ => finish_userOnly _ _ _
        have hmem := mem_fsWriteReads hl
        rw [length_bytesAt] at hmem
        exact touchRange_userOnly (((h hv).2 hmem.2).part (by omega))

theorem sysFsReadFile_userOnly (h : Service.UserRange a .fsReadFile) :
    Keeps UserOnly (sysFsReadFile env a.arg1 a.arg2 a.arg3 a.arg4) := by
  unfold sysFsReadFile
  split
  · exact keeps_throw _
  · rename_i hpath
    rw [not_or] at hpath
    split
    · exact keeps_throw _
    · rename_i hbuf
      rw [not_or, Bool.not_eq_false] at hbuf
      have h := h hpath.1 hpath.2 hbuf.1 hbuf.2
      refine readUserString_bind_userOnly env (fun hv => (h hv).1) fun hv path => keeps_get.bind fun s => ?_
      split
      · rename_i data hread
        have hlen := Fs.length_fsRead_lt hread
        refine (writeBytes_userOnly ?_).bind fun _ => keeps_pure _
        rw [List.length_take, show a.arg3 = a.arg3 + BitVec.ofNat 64 0 by simp]
        exact (h hv).2.part (by omega)
      · exact keeps_throw _

theorem call_userOnly (hr : service ∉ [.read, .write, .printColored])
    (h : service.UserRange a) : Keeps UserOnly (service.call env a) := by
  by_cases hmem : service ∈ [.read, .write, .printColored, .open, .realityStatus, .blit, .fsCreate, .fsDelete,
      .fsWriteFile, .fsReadFile]
  · cases service with
    | «open» => exact sysOpen_userOnly env h
    | realityStatus => exact sysRealityStatus_userOnly h
    | blit => exact sysGraphicsBlit_userOnly h
    | fsCreate => exact sysFsCreate_userOnly env h
    | fsDelete => exact sysFsDelete_userOnly env h
    | fsWriteFile => exact sysFsWriteFile_userOnly env h
    | fsReadFile => exact sysFsReadFile_userOnly env h
    | read | write | printColored => exact absurd (by decide) hr
    | _ => exact absurd hmem (by decide)
  · exact (quiet_call env a hmem).userOnly

theorem ring3Write_userOnly (h : Ring3Service.UserRange a .write) :
    Keeps UserOnly (ring3Write a.arg1 a.arg2 a.arg3) := by
  unfold ring3Write
  split
  · exact keeps_pure _
  · split
    · rename_i hok
      refine Keeps.bind (keeps_forM _ fun i hi => ?_) fun _ => keeps_pure _
      have hb := h hok.1 (by omega) hok.2.2
      exact (readByte_userOnly (hb.lt (List.mem_range.1 hi))).bind fun c => (quiet_emit _).userOnly
    · exact keeps_pure _

theorem ring3Read_userOnly (h : Ring3Service.UserRange a .read) : Keeps UserOnly (ring3Read a.arg1 a.arg2) := by
  unfold ring3Read
  split
  · rename_i hok
    refine quiet_getchar.userOnly.bind fun key => ?_
    split
    · exact (writeBytes_userOnly (h hok.1 hok.2)).bind fun _ => keeps_pure _
    · exact keeps_pure _
  · exact keeps_pure _

variable {n : Nat}

theorem print_userOnly (h : Below p n) (color : Option (BitVec 32)) : Keeps UserOnly (do
      match ← strAt env p n with
      | some str =>
        emit (.text str color)
        return 0
      | none => return 0 : SyscallM (BitVec 64)) := by
  refine (strAt_userOnly env h).bind fun o => ?_
  split
  · exact ((quiet_emit _).bind fun _ => quiet_pure _).userOnly
  · exact keeps_pure _

theorem grows_print (o : Option String) (color : Option (BitVec 32)) :
    Grows (match o with
      | some str => do
        emit (.text str color)
        return 0
      | none => return 0 : SyscallM (BitVec 64)) := by
  split
  · exact ((quiet_emit _).bind fun _ => quiet_pure _).grows
  · exact (quiet_pure _).grows

theorem quiet_ring3Exit : Quiet ring3Exit := by
  refine quiet_modify_bind (fun _ => rfl) fun _ => quiet_exitProcess.bind fun _ => (quiet_emit _).bind fun _ => ?_
  refine (quiet_emit _).bind fun _ => quiet_getchar.bind fun _ => (quiet_emit _).bind fun _ => ?_
  exact (quiet_emit _).bind fun _ => quiet_throw _

theorem ring3Call_userOnly {service : Ring3Service} (h : service.UserRange a) :
    Keeps UserOnly (service.call env a) := by
  cases service with
  | write => exact ring3Write_userOnly h
  | read => exact ring3Read_userOnly h
  | exit => exact quiet_ring3Exit.userOnly
  | getpid | getCursor => exact keeps_get.bind fun _ => keeps_pure _
  | getuid =>
    refine keeps_get.bind fun s => ?_
    split
    · exact keeps_pure _
    · exact keeps_pure _
  | yield => exact keeps_pure _
  | print =>
    show Keeps UserOnly (ring3Print env a.arg1 a.arg2)
    unfold ring3Print
    split
    · rename_i hok
      exact print_userOnly env (h hok.1 hok.2) none
    · exact keeps_pure _
  | printColored =>
    show Keeps UserOnly (ring3PrintColored env a.arg1 a.arg2 _)
    unfold ring3PrintColored
    split
    · exact keeps_pure _
    · rename_i hok
      rw [not_or] at hok
      exact print_userOnly env (h (by omega) hok.2) _
  | readChar =>
    refine quiet_getchar.userOnly.bind fun key => ?_
    split
    · exact keeps_pure _
    · exact keeps_pure _
  | clearScreen | setCursor | clearLine => exact ((quiet_emit _).bind fun _ => quiet_pure _).userOnly

/-! ### Services with pointers that leave user memory -/

def flatState (b : Byte) (keys : List Byte) (fs : FsState) (graphics : Option GraphicsServer) : SysState where
  phys := ⟨flatMemory b, .new⟩
  cr3 := 0
  touched := []
  keys := keys
  fs := fs
  graphics := graphics
  procs := .boot .new 1
  cpu := 0
  realityCounter := 0
  currentReality := 0
  shellExitRequested := false
  output := []

theorem flat_flatState (b : Byte) (keys : List Byte) (fs : FsState) (graphics : Option GraphicsServer) :
    Flat b (flatState b keys fs graphics) := ⟨rfl, rfl⟩

section

variable (size : BitVec 32)

def sparseFile : Inode := { Inode.new with inUse := 1, size }

/-- A file system with this file alone, and all blocks free. -/
def sparseFs : FsState where
  disk := Fs.blankState.disk.setInode 0 (sparseFile size)
  psychicFs := some Fs.emptyFs
  clock := fun _ => 0

theorem hasRuns_sparseFile : (sparseFile size).HasRuns [] :=
  Inode.hasRuns_new.congr rfl rfl rfl rfl

theorem findInodeByName_sparseFs :
    Fs.findInodeByName "" (sparseFs size).disk = some (0, sparseFile size) := by
  have hs : (sparseFs size).disk.Sound := Fs.sound_blankState.setInode 0 _
  have hat := Fs.inodeAt_setInode (d := Fs.blankState.disk) 0 (sparseFile size)
  have hname : (sparseFile size).getName = "" := by
    have hb : (sparseFile size).name.toList.takeWhile (· != 0) = Fs.strBytes "" := by
      show Inode.new.name.toList.takeWhile (· != 0) = Fs.strBytes ""
      decide
    unfold Inode.getName
    rfl
  rcases Fs.findInodeByName_cases hs "" with ⟨k, hk, hfind⟩ | ⟨hnone, -⟩
  · have hk0 : k = 0 := by
      by_contra hne
      have huse := hk.2.1
      refine huse ?_
      show (Fs.inodeAt (Fs.blankState.disk.setInode 0 (sparseFile size)) k).inUse = 0
      rw [hat k, if_neg hne]
      exact Fs.inUse_inodeOfSector_empty (Nat.mod_lt k (by decide))
    subst hk0
    rw [hfind]
    have h0 : Fs.inodeAt (sparseFs size).disk 0 = sparseFile size := (hat 0).trans (if_pos rfl)
    rw [h0]
  · refine absurd ⟨by decide, ?_, ?_⟩ (hnone 0)
    · rw [show Fs.inodeAt (sparseFs size).disk 0 = sparseFile size from (hat 0).trans (if_pos rfl)]
      show (1 : BitVec 8) ≠ 0
      decide
    · rw [show Fs.inodeAt (sparseFs size).disk 0 = sparseFile size from (hat 0).trans (if_pos rfl)]
      exact hname

theorem fsRead_sparseFs :
    ∃ data, Fs.fsRead "" (sparseFs size) = some data ∧ data.length = size.toNat :=
  Fs.fsRead_sparse (findInodeByName_sparseFs size) (hasRuns_sparseFile size)

end

theorem blocksRead_all (hi : inode.HasRuns [(128, n)])
    (hn : n ≤ 8192) (m : Nat) : ∀ (k : Nat) (d : Disk), k + m = n → (∀ b, d.fails b = false) →
      blocksRead data inode (List.range' k m) d = List.range' k m := by
  induction m with
  | zero => exact fun _ _ _ _ => rfl
  | succ m ih =>
    intro k d hk hd
    obtain ⟨phys, hphys⟩ : ∃ phys, inode.getPhysicalBlock (BitVec.ofNat 16 k) = some phys := by
      rw [hi.getPhysicalBlock_eq (by omega)]
      refine ⟨BitVec.ofNat 32 (128 + k), ?_⟩
      have hb : (Fs.blocksOf [(128, n)])[k]? = some (128 + k) := by
        rw [Fs.blocksOf_cons, Fs.blocksOf_nil, List.append_nil, List.getElem?_range' (by omega), Nat.one_mul]
      rw [hb]
      rfl
    rw [List.range'_succ, blocksRead, hphys]
    dsimp only
    rw [Disk.diskWriteSector, if_neg (by rw [hd]; decide)]
    exact congrArg (k :: ·) (ih (k + 1) _ (by omega) hd)

theorem fsWriteReads_of_empty {name : String} {s : FsState} {k : Nat}
    (hfind : Fs.findInodeByName name s.disk = some (k, inode)) (hi : inode.HasRuns [])
    (hs : s.psychicFs = some Fs.emptyFs) (hd : ∀ b, s.disk.fails b = false) (hpos : 0 < data.length)
    (hle : data.length ≤ maxWrite) : fsWriteReads name data s = List.range ((data.length + 512 - 1) / 512) := by
  have hn : (data.length + 512 - 1) / 512 ≤ 8192 := by
    unfold maxWrite at hle
    omega
  have hfree : Fs.freeExtents inode s = s := Fs.freeExtents_nil hi s
  obtain ⟨inode', s', ha, hruns, hdisk⟩ :=
    Fs.allocateBlocks_empty hs (Inode.hasRuns_clearExtents inode) (by omega) hn
  unfold fsWriteReads
  rw [hfind]
  unfold writeFileReads
  dsimp only
  rw [if_neg (by omega), hfree, ha]
  dsimp only
  rw [List.range_eq_range', blocksRead_all hruns hn _ 0 _ (by omega) fun b => by rw [hdisk]; exact hd b]

theorem fsWriteReads_sparseFs (hpos : 0 < data.length) (hle : data.length ≤ maxWrite) :
    fsWriteReads "" data (sparseFs 0) = List.range ((data.length + 512 - 1) / 512) :=
  fsWriteReads_of_empty (findInodeByName_sparseFs 0) (hasRuns_sparseFile 0) rfl (fun _ => rfl) hpos hle

/-- Some state takes the call to an address that is not a user address. -/
def Escapes (c : SyscallM (BitVec 64)) : Prop :=
  ∃ (s : SysState) (v : BitVec 64), s.touched = [] ∧ 2 ^ 47 ≤ v.toNat ∧ Reaches v c s

theorem escapes_of_reaches {s : SysState} {c : SyscallM (BitVec 64)} (hs : s.touched = []) (hnot : ¬Below p n)
    (h : ∀ i, i < n → Reaches (p + BitVec.ofNat 64 i) c s) : Escapes c := by
  obtain ⟨i, hi, hv⟩ := exists_of_not_below hnot
  exact ⟨s, _, hs, hv, h i hi⟩

theorem escapes_readUserString {maxLen : BitVec 64} {f : String → SyscallM (BitVec 64)}
    (hv : isUserPointerValid 1 p maxLen = true) (hnot : ¬Below p maxLen.toNat) (hf : ∀ path, Grows (f path)) :
    Escapes (readUserString env p maxLen >>= f) := by
  have hflat := flat_flatState 1 [] (sparseFs 0) none
  exact escapes_of_reaches rfl hnot fun i hi => (hflat.readUserString_reaches env hv hi).bind hf

theorem grows_finish (result : Bool × FsState) (value : BitVec 64) (e : SyscallError) :
    Grows (match result with
      | (ok, fs) => do
        modify fun s => { s with fs }
        if ok then return value else fail e : SyscallM (BitVec 64)) :=
  (quiet_finish result value e).grows

theorem sysOpen_escapes (h : ¬Service.UserRange a .open) : Escapes (sysOpen env a.arg1) := by
  unfold Service.UserRange at h
  rw [Classical.not_imp, Classical.not_imp] at h
  obtain ⟨hne, hv, hnot⟩ := h
  unfold sysOpen
  rw [if_neg hne]
  exact escapes_readUserString env hv hnot fun _ => (quiet_fail _).grows

theorem sysRealityStatus_escapes (h : ¬Service.UserRange a .realityStatus) :
    Escapes (sysRealityStatus a.arg1) := by
  unfold Service.UserRange at h
  rw [Classical.not_imp, Classical.not_imp] at h
  obtain ⟨hne, hv, hnot⟩ := h
  have hflat := flat_flatState 1 [] (sparseFs 0) none
  unfold sysRealityStatus
  rw [if_neg (by rw [hv]; simpa using hne)]
  refine escapes_of_reaches (s := flatState 1 [] (sparseFs 0) none) rfl hnot fun i hi => ends_bind (ends_get ?_)
  exact Reaches.bind (hflat.writeBytes_reaches hi) fun _ => (quiet_pure _).grows

theorem updatePixels_of_length {surface : Surface} (h : data.length = surface.expectedSize) :
    ∃ surface', surface.updatePixels data = .ok surface' := by
  simp [Surface.updatePixels, not_not.2 h]

theorem updateSurface_single {surface : Surface} (h : data.length = surface.expectedSize) :
    ∃ server, GraphicsServer.updateSurface ⟨[surface], 1⟩ surface.id data = .ok server := by
  obtain ⟨surface', hu⟩ := updatePixels_of_length h
  have hget : GraphicsServer.getSurface ⟨[surface], 1⟩ surface.id = some surface := by
    simp [GraphicsServer.getSurface]
  unfold GraphicsServer.updateSurface
  rw [hget]
  dsimp only
  rw [hu]
  exact ⟨_, rfl⟩

theorem sysGraphicsBlit_escapes (h : ¬Service.UserRange a .blit) :
    Escapes (sysGraphicsBlit a.arg1 a.arg2 a.arg3) := by
  unfold Service.UserRange at h
  rw [Classical.not_imp, Classical.not_imp, Classical.not_imp] at h
  obtain ⟨hne, hva, ⟨surface, hsize⟩, hnot⟩ := h
  obtain ⟨i, hi, hv⟩ := exists_of_not_below hnot
  let target : Surface := { surface with id := a.arg1 }
  let s := flatState 1 [] (sparseFs 0) (some ⟨[target], 1⟩)
  have hflat : Flat 1 s := flat_flatState _ _ _ _
  have hlen : (s.bytesAt a.arg2 a.arg3.toNat).length = target.expectedSize := (length_bytesAt s _ _).trans hsize
  obtain ⟨server, hs⟩ := updateSurface_single hlen
  unfold sysGraphicsBlit
  rw [if_neg (by rw [hva]; simpa using hne)]
  refine ⟨s, _, rfl, hv, ends_bind (ends_get ?_)⟩
  split
  · rename_i hg
    cases hg
  · rename_i server' hg
    cases hg
    split
    · grind
    · refine Reaches.bind (hflat.touchRange_reaches hi) fun _ => Quiet.grows ?_
      exact quiet_modify_bind (fun _ => rfl) fun _ => quiet_pure _

theorem touchBlock_reaches {s : SysState} (h : Flat 0 s) {i : Nat} (hi : i < n) :
    Reaches (p + BitVec.ofNat 64 i) (touchBlock p n (i / 512)) s := by
  have hs : p + BitVec.ofNat 64 i = p + BitVec.ofNat 64 (i / 512 * 512) + BitVec.ofNat 64 (i % 512) := by
    rw [BitVec.add_assoc, ← BitVec.ofNat_add]
    congr 2
    omega
  rw [hs]
  exact h.touchRange_reaches (by omega)

theorem sysFsWriteFile_escapes (h : ¬Service.UserRange a .fsWriteFile) :
    Escapes (sysFsWriteFile env a.arg1 a.arg2 a.arg3 a.arg4) := by
  unfold Service.UserRange at h
  simp only [Classical.not_imp] at h
  obtain ⟨hpath, hpL, hdata, hdO, hpO, hnot⟩ := h
  unfold sysFsWriteFile
  rw [if_neg (not_or.2 ⟨hpath, hpL⟩), if_neg hdata, if_neg (by rw [hdO]; decide)]
  by_cases hb : Below a.arg1 a.arg2.toNat
  · -- the path is in user memory, so it is the data that is not
    rw [not_and, Classical.not_imp] at hnot
    obtain ⟨hle, hnot⟩ := hnot hb
    obtain ⟨i, hi, hv⟩ := exists_of_not_below hnot
    have hflat := flat_flatState 0 [] (sparseFs 0) none
    refine ⟨flatState 0 [] (sparseFs 0) none, _, rfl, hv, ?_⟩
    refine reaches_bind_of (hflat.readUserString_empty env hpO hpL) fun path s' hs' => ?_
    obtain ⟨rfl, ha⟩ := hs'
    refine ends_bind (ends_get ?_)
    refine Reaches.bind ?_ fun _ => grows_finish _ _ _
    have hflat' := hflat.after ha
    have hfs : s'.fs = sparseFs 0 := by
      obtain ⟨log, rfl⟩ := ha
      rfl
    have hlen := length_bytesAt s' a.arg3 a.arg4.toNat
    rw [hfs, fsWriteReads_sparseFs (by omega) (by omega), hlen]
    refine reaches_forM (I := Flat 0) (x := i / 512) _ (List.mem_range.2 (by omega)) ?_ (fun _ => grows_touchRange _ _)
      (fun _ hs => touchBlock_reaches hs hi) hflat'
    exact fun l s hs => (hs.touchRange_ends _ _).imp (fun _ _ h' => hs.after h')
  · exact escapes_readUserString env hpO hb fun _ =>
      quiet_get.grows.bind fun _ => (grows_forM _ fun _ => grows_touchRange _ _).bind fun _ => grows_finish _ _ _

theorem grows_afterRead (buf bufLen : BitVec 64) (path : String) (s : SysState) :
    Grows (match Fs.fsRead path s.fs with
      | some data => do
        let copied := data.take bufLen.toNat
        writeBytes buf copied
        return BitVec.ofNat 64 copied.length
      | none => fail .notFound : SyscallM (BitVec 64)) := by
  split
  · exact ((grows_touchRange _ _).bind fun _ => (quiet_pokes _ _).grows).bind fun _ => (quiet_pure _).grows
  · exact (quiet_fail _).grows

theorem sysFsReadFile_escapes (h : ¬Service.UserRange a .fsReadFile) :
    Escapes (sysFsReadFile env a.arg1 a.arg2 a.arg3 a.arg4) := by
  unfold Service.UserRange at h
  simp only [Classical.not_imp] at h
  obtain ⟨hpath, hpL, hbuf, hbuO, hpO, hnot⟩ := h
  unfold sysFsReadFile
  rw [if_neg (not_or.2 ⟨hpath, hpL⟩), if_neg (by rw [hbuO]; simpa using hbuf)]
  by_cases hbe : Below a.arg1 a.arg2.toNat
  · -- the largest file there is reaches furthest
    obtain ⟨i, hi, hv⟩ := exists_of_not_below (not_and.1 hnot hbe)
    obtain ⟨data, hread, hlen⟩ := fsRead_sparseFs (BitVec.allOnes 32)
    have hflat := flat_flatState 0 [] (sparseFs (BitVec.allOnes 32)) none
    refine ⟨flatState 0 [] (sparseFs (BitVec.allOnes 32)) none, _, rfl, hv, ?_⟩
    refine reaches_bind_of (hflat.readUserString_empty env hpO hpL) fun path s' hs' => ?_
    obtain ⟨rfl, ha⟩ := hs'
    refine ends_bind (ends_get ?_)
    have hfs : s'.fs = sparseFs (BitVec.allOnes 32) := by
      obtain ⟨log, rfl⟩ := ha
      rfl
    rw [hfs, hread]
    refine Reaches.bind ((hflat.after ha).writeBytes_reaches ?_) fun _ => (quiet_pure _).grows
    rw [List.length_take, hlen]
    exact hi
  · exact escapes_readUserString env hpO hbe fun path => quiet_get.grows.bind fun s => grows_afterRead _ _ _ _

theorem call_escapes (h : ¬service.UserRange a) : Escapes (service.call env a) := by
  cases service with
  | «open» => exact sysOpen_escapes env h
  | realityStatus => exact sysRealityStatus_escapes h
  | blit => exact sysGraphicsBlit_escapes h
  | fsCreate | fsDelete =>
    unfold Service.UserRange at h
    simp only [Classical.not_imp] at h
    obtain ⟨hne, hlen, hv, hnot⟩ := h
    show Escapes (ite (a.arg1 = 0 ∨ a.arg2 = 0) _ _)
    rw [if_neg (not_or.2 ⟨hne, hlen⟩)]
    exact escapes_readUserString env hv hnot fun _ => quiet_get.grows.bind fun _ => grows_finish _ _ _
  | fsWriteFile => exact sysFsWriteFile_escapes env h
  | fsReadFile => exact sysFsReadFile_escapes env h
  | _ => exact absurd trivial h

theorem ring3Write_reaches {s : SysState} (hs : Flat 1 s) {buf len : BitVec 64} {i : Nat} (hlen : len.toNat ≤ 4096)
    (hbuf : buf ≠ 0) (hi : i < len.toNat) : Reaches (buf + BitVec.ofNat 64 i) (ring3Write 1 buf len) s := by
  unfold ring3Write
  rw [if_neg (by omega), if_pos ⟨rfl, by omega, hbuf⟩]
  have hg : ∀ j, Grows (do
      let c ← readByte (buf + BitVec.ofNat 64 j)
      emit (.char c 0xFFFFFF)) := fun j => (grows_readByte _).bind fun _ => (quiet_emit _).grows
  refine Reaches.bind (reaches_forM (I := Flat 1) (x := i) _ (List.mem_range.2 hi) ?_ hg ?_ hs)
    fun _ => (quiet_pure _).grows
  · intro j s hs
    refine Ends.bind (hs.readByte_ends _) (fun _ s' hs' => ends_modify ?_)
    exact ⟨(hs.after hs'.2.1).mem, (hs.after hs'.2.1).cr3⟩
  · exact fun s hs => Reaches.bind ((hs.readByte_ends _).mono (fun _ _ h' => h'.2.2) fun _ _ h' => h'.elim)
      fun _ => (quiet_emit _).grows

theorem ring3Call_escapes {service : Ring3Service} (h : ¬service.UserRange a) : Escapes (service.call env a) := by
  have hflat := flat_flatState 1 [0] (sparseFs 0) none
  cases service with
  | write =>
    simp only [Ring3Service.UserRange, Classical.not_imp] at h
    obtain ⟨hfd, hlen, hbuf, hnot⟩ := h
    refine escapes_of_reaches (s := flatState 1 [0] (sparseFs 0) none) rfl hnot fun i hi => ?_
    show Reaches _ (ring3Write a.arg1 a.arg2 a.arg3) _
    rw [hfd]
    exact ring3Write_reaches hflat hlen hbuf hi
  | read =>
    simp only [Ring3Service.UserRange, Classical.not_imp] at h
    obtain ⟨hfd, hbuf, hnot⟩ := h
    refine escapes_of_reaches (s := flatState 1 [0] (sparseFs 0) none) rfl hnot fun i hi => ?_
    show Reaches _ (ring3Read a.arg1 a.arg2) _
    unfold ring3Read
    rw [if_pos ⟨hfd, hbuf⟩]
    have hkey : Ends getchar (flatState 1 [0] (sparseFs 0) none) (fun key s => key = some 0 ∧ Flat 1 s)
        fun _ _ => False := ⟨rfl, rfl, rfl⟩
    refine reaches_bind_of hkey fun key s hs => ?_
    obtain ⟨rfl, hs⟩ := hs
    exact Reaches.bind (hs.writeBytes_reaches hi) fun _ => (quiet_pure _).grows
  | print =>
    simp only [Ring3Service.UserRange, Classical.not_imp] at h
    obtain ⟨hlen, hptr, hnot⟩ := h
    refine escapes_of_reaches (s := flatState 1 [0] (sparseFs 0) none) rfl hnot fun i hi => ?_
    show Reaches _ (ring3Print env a.arg1 a.arg2) _
    unfold ring3Print
    rw [if_pos ⟨hlen, hptr⟩]
    exact (hflat.strAt_reaches env hi).bind fun o => grows_print o _
  | printColored =>
    simp only [Ring3Service.UserRange, Classical.not_imp] at h
    obtain ⟨hlen, hptr, hnot⟩ := h
    refine escapes_of_reaches (s := flatState 1 [0] (sparseFs 0) none) rfl hnot fun i hi => ?_
    show Reaches _ (ring3PrintColored env a.arg1 a.arg2 _) _
    unfold ring3PrintColored
    rw [if_neg (not_or.2 ⟨by omega, hptr⟩)]
    exact (hflat.strAt_reaches env hi).bind fun o => grows_print o _
  | _ => exact absurd trivial h

/-! ### All system calls -/

variable {num : BitVec 64}

theorem not_shadowed (hring : ring3Table.lookup num = none)
    (hse : serviceTable.lookup num = some service) : service ∉ [.read, .write, .printColored] := by
  have ht : ∀ x ∈ serviceTable, x.2 ∈ [Service.read, .write, .printColored] → (ring3Table.lookup x.1).isSome := by
    decide
  intro hmem
  obtain ⟨l1, l2, hsp, -⟩ := List.lookup_eq_some_iff.1 hse
  have hin : (num, service) ∈ serviceTable := by
    simp [hsp]
  grind

theorem quiet_errnoOf (stop : SysStop) : Quiet (errnoOf stop) := by
  cases stop with
  | err e => exact quiet_pure _
  | _ => exact quiet_throw _

theorem handler_userOnly (h : UserRange num a) : Keeps UserOnly (ring3SyscallHandler env num a) := by
  unfold UserRange at h
  unfold ring3SyscallHandler
  cases hring : ring3Table.lookup num with
  | some service =>
    rw [hring] at h
    exact ring3Call_userOnly env h
  | none =>
    rw [hring] at h
    refine Keeps.tryCatch ?_ fun stop => (quiet_errnoOf stop).userOnly
    cases hs : serviceTable.lookup num with
    | none => exact keeps_throw _
    | some service =>
      rw [hs] at h
      exact call_userOnly env (not_shadowed hring hs) h

theorem handler_escapes (h : ¬UserRange num a) : Escapes (ring3SyscallHandler env num a) := by
  unfold UserRange at h
  unfold ring3SyscallHandler
  cases hring : ring3Table.lookup num with
  | some service =>
    rw [hring] at h
    exact ring3Call_escapes env h
  | none =>
    rw [hring] at h
    unfold handleSyscall
    cases hse : serviceTable.lookup num with
    | none =>
      simp_all [hse]
    | some service =>
      rw [hse] at h
      obtain ⟨s, v, hs, hv, hr⟩ := call_escapes env h
      exact ⟨s, v, hs, hv, reaches_tryCatch hr fun stop => (quiet_errnoOf stop).grows⟩

/-- A system call with these arguments accesses user memory only, whatever the state of the kernel, if and only if the
arguments are in range. -/
theorem accessed_user_iff (num : BitVec 64) (a : Args) :
    (∀ s, ∀ x ∈ accessed env num a s, x.toNat < 2 ^ 47) ↔ UserRange num a := by
  constructor
  · intro h
    by_contra hra
    obtain ⟨s, v, hs, hv, hre⟩ := handler_escapes env hra
    have hmem : v ∈ accessed env num a s := by
      unfold accessed
      rw [show { s with touched := [] } = s by rw [← hs]]
      exact Ends.state hre
    have := h s v hmem
    omega
  · intro h s
    have hem : UserOnly { s with touched := [] } := by
      intro a ha
      cases ha
    exact Ends.state (handler_userOnly env h _ hem)

/-- An environment in which all bytes are looked at. -/
def plainEnv : Env where
  cursorPos := fun _ => (0, 0)
  dimensions := (640, 480)
  cpuCount := 1
  examined := fun _ bytes => bytes.length
  examined_le := fun _ _ => Nat.le_refl _
  examined_of_valid := fun _ _ _ => rfl

/-- `write` reads a byte of the kernel for a user program. -/
theorem ring3_write_reads_kernel_memory :
    0xFFFF800000000000#64 ∈ accessed plainEnv 1 ⟨1, 0xFFFF800000000000, 1, 0, 0⟩ (flatState 1 [] (sparseFs 0) none) ∧
      ¬∀ env num a s, ∀ x ∈ accessed env num a s, x.toNat < 2 ^ 47 := by
  have hr : Reaches (0xFFFF800000000000 + BitVec.ofNat 64 0) (ring3Write 1 0xFFFF800000000000 1)
      (flatState 1 [] (sparseFs 0) none) :=
    ring3Write_reaches (flat_flatState _ _ _ _) (by decide) (by decide) (by decide)
  have hmem : 0xFFFF800000000000#64 ∈
      accessed plainEnv 1 ⟨1, 0xFFFF800000000000, 1, 0, 0⟩ (flatState 1 [] (sparseFs 0) none) := Ends.state hr
  exact ⟨hmem, fun h => absurd (h _ _ _ _ _ hmem) (by decide)⟩

end AstralOS.Syscall
