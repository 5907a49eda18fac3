import AstralOS.Usermode.SpawnImage

/-!
# Spawns that fail

None of the functions that build a process gives a frame back: a frame that is taken when one of them is called is taken when
it ends or stops (`InUse`).  So a spawn that fails keeps the frames it has taken, and leaves the set of free
frames as it was exactly if it stopped before the first allocation, or that allocation failed (`failed_spawn_frames_iff`).
The process table and the run queues are written last, and a spawn that fails does not write them.
-/

namespace AstralOS.Usermode

open Memory
open Fallible

def InUse (f : Nat) (s : Phys) : Prop := ¬s.frames.Free f

variable {f : Nat} {α : Type} {msg : String} {img : Image} {header : Elf64Header} {ph : Elf64ProgramHeader} {mapped : PageMap}
  {p4 table frame : PhysAddr} {i : Fin 512} {virt flags e : BitVec 64} {force : Bool} {frames : List PhysAddr}

/-! ### Taken frames stay taken -/

theorem keeps_okOr {o : Option α} : Keeps (InUse f) (okOr msg o) := by
  cases o with
  | none => exact keeps_throw _
  | some a => exact keeps_pure a

theorem keeps_ofExcept {r : Except Stop α} : Keeps (InUse f) (ofExcept r) := by
  cases r with
  | error e => exact keeps_throw e
  | ok a => exact keeps_pure a

theorem keeps_allocateZeroed : Keeps (InUse f) (allocateZeroed msg) := by
  intro s h
  refine (allocateZeroed_ends msg s).mono (fun p s' ht hfree => ?_) fun e s' ⟨_, hex⟩ hfree => ?_
  · exact h ((ht.rest f).1 hfree).1
  · exact h ((hex.rest f).1 hfree)

theorem keeps_setEntry : Keeps (InUse f) (setEntry table i e) :=
  keeps_modify fun _ h => h

theorem keeps_nextTable : Keeps (InUse f) (nextTable force table i) := by
  refine keeps_get.bind fun s => ?_
  split
  · refine Keeps.bind ?_ fun _ => keeps_pure _
    split
    · exact keeps_setEntry
    · exact keeps_pure _
  · exact keeps_allocateZeroed.bind fun frame => keeps_setEntry.bind fun _ => keeps_pure _

theorem keeps_lastTable : Keeps (InUse f) (lastTable force p4 virt) :=
  keeps_nextTable.bind fun _ => keeps_nextTable.bind fun _ => keeps_nextTable

theorem keeps_map : Keeps (InUse f) (map p4 virt frame flags) := by
  refine keeps_lastTable.bind fun p1 => keeps_get.bind fun s => ?_
  split
  · exact keeps_throw _
  · exact keeps_setEntry

theorem keeps_mapExecutable : Keeps (InUse f) (mapExecutable p4 virt frame flags) :=
  keeps_lastTable.bind fun _ => keeps_setEntry

theorem keeps_copyKernelHalf {current : PhysAddr} : Keeps (InUse f) (copyKernelHalf current p4) :=
  keeps_forM _ fun _ _ => keeps_get.bind fun _ => keeps_setEntry

theorem keeps_allocateUserStack : Keeps (InUse f) (allocateUserStack p4) := by
  refine (keeps_forM _ fun i _ => ?_).bind fun _ => keeps_pure _
  exact keeps_allocateZeroed.bind fun frame => keeps_map

theorem keeps_loadPage : Keeps (InUse f) (loadPage p4 ph mapped virt) := by
  unfold loadPage
  split
  · exact keeps_pure _
  · refine keeps_allocateZeroed.bind fun frame => Keeps.bind ?_ fun _ => keeps_pure _
    split
    · exact keeps_mapExecutable
    · exact keeps_map

theorem keeps_storeByte {offset : Nat} {byte : BitVec 8} :
    Keeps (InUse f) (storeByte ph frames offset byte) := by
  unfold storeByte
  dsimp only
  split
  · exact keeps_modify fun _ h => h
  · exact keeps_pure _

theorem keeps_copyData : Keeps (InUse f) (copyData img ph frames) := by
  refine keeps_ofExcept.bind fun r => keeps_okOr.bind fun data => keeps_forM _ fun x _ => ?_
  exact keeps_storeByte

theorem keeps_loadSegment : Keeps (InUse f) (loadSegment img p4 ph mapped) := by
  unfold loadSegment
  split
  · exact keeps_pure _
  · refine (keeps_foldlM _ (fun b i _ => ?_) _).bind fun r => Keeps.bind ?_ fun _ => keeps_pure _
    · exact keeps_loadPage.bind fun _ => keeps_pure _
    · split
      · exact keeps_copyData
      · exact keeps_pure _

theorem keeps_loadSegments {headers : List Elf64ProgramHeader} :
    Keeps (InUse f) (loadSegments img p4 headers) := by
  refine (keeps_foldlM _ (fun b ph _ => ?_) _).bind fun _ => keeps_pure _
  dsimp only
  split
  · exact keeps_loadSegment.bind fun _ => keeps_pure _
  · exact keeps_pure _

theorem keeps_allocateKernelStack {hhdm : BitVec 64} : Keeps (InUse f) (allocateKernelStack hhdm) := by
  refine keeps_allocateZeroed.bind fun base => (keeps_forM _ fun _ _ => ?_).bind fun _ => keeps_pure _
  exact keeps_allocateZeroed.bind fun _ => keeps_pure _

/-! ### Failed spawns -/

/-- The file is rejected before anything is allocated for it. -/
def Image.Rejected (img : Image) : Prop := ∀ header, Elf64Header.parse img = .ok header → header.entry ≥ 0x0000800000000000

theorem loadProgram_rejected (hhdm cr3 : BitVec 64) (h : img.Rejected) (s : Phys) :
    Ends (loadProgram hhdm cr3 img) s (fun _ _ => False) (fun _ s' => s' = s) := by
  unfold loadProgram
  cases hp : Elf64Header.parse img with
  | error e => exact ends_bind (ends_throw rfl)
  | ok header =>
    refine ends_bind (ends_pure ?_)
    rw [if_pos (h header hp)]
    exact ends_throw rfl

theorem loadProgram_takes (hhdm cr3 : BitVec 64) (hp : Elf64Header.parse img = .ok header)
    (hen : ¬header.entry ≥ 0x0000800000000000) (s : Phys) :
    Ends (loadProgram hhdm cr3 img) s (fun _ s' => (∃ f, s.frames.Free f ∧ InUse f s') ∨ Exhausted s s')
      (fun _ s' => (∃ f, s.frames.Free f ∧ InUse f s') ∨ Exhausted s s') := by
  unfold loadProgram createUserAddressSpace
  rw [hp]
  refine ends_bind (ends_pure ?_)
  rw [if_neg hen]
  refine ends_bind (ends_bind_of (allocateZeroed_ends _ s) ?_ fun _ _ h => Or.inr h.2)
  intro p4 s1 ht
  -- the frame of the top table stays taken in all that follows
  have huse : InUse p4.frame s1 := fun hfree => ((ht.rest p4.frame).1 hfree).2 rfl
  have hlost : ∀ {s' : Phys}, InUse p4.frame s' → (∃ f, s.frames.Free f ∧ InUse f s') ∨ Exhausted s s' :=
    fun h => Or.inl ⟨_, ht.free, h⟩
  refine ends_bind_of (keeps_copyKernelHalf s1 huse) ?_ fun _ _ h => hlost h
  intro _ s2 h2
  refine ends_bind_of (keeps_allocateUserStack s2 h2) ?_ fun _ _ h => hlost h
  intro stackTop s3 h3
  refine ends_pure ((keeps_ofExcept.bind fun headers => keeps_loadSegments.bind fun highest =>
    keeps_allocateKernelStack.bind fun kernelStack => keeps_pure _) s3 h3 |>.mono (fun _ _ h => hlost h) fun _ _ h => hlost h)

theorem failed_spawn_eq {hhdm cr3 : BitVec 64} {s s' : SpawnState} {e : Stop}
    (hs : spawnUserProcess hhdm cr3 img s = (.error e, s')) :
    s'.table = s.table ∧ s'.ready = s.ready ∧ ((loadProgram hhdm cr3 img).exec s.phys).2 = s'.phys := by
  unfold spawnUserProcess at hs
  cases hexec : (loadProgram hhdm cr3 img).exec s.phys with
  | mk r phys =>
    rw [hexec] at hs
    cases r with
    | error e' =>
      cases hs
      exact ⟨rfl, rfl, rfl⟩
    | ok prog =>
      dsimp only at hs
      split at hs
      · grind
      · cases hs

theorem failed_spawn_takes {hhdm cr3 : BitVec 64} {s s' : SpawnState} {e : Stop}
    (hs : spawnUserProcess hhdm cr3 img s = (.error e, s')) (hp : Elf64Header.parse img = .ok header)
    (hen : ¬header.entry ≥ 0x0000800000000000) :
    (∃ f, s.phys.frames.Free f ∧ ¬s'.phys.frames.Free f) ∨ Exhausted s.phys s'.phys := by
  obtain ⟨-, -, hphys⟩ := failed_spawn_eq hs
  rw [← hphys]
  exact (loadProgram_takes hhdm cr3 hp hen s.phys).state

/-- A spawn that fails leaves the process table and the run queues as they were.  It leaves the set of free frames as it was
exactly if the file was rejected by its header or there was no free frame. -/
theorem failed_spawn_frames_iff (hhdm cr3 : BitVec 64) (img : Image) (s s' : SpawnState) (e : Stop)
    (hspawn : spawnUserProcess hhdm cr3 img s = (.error e, s')) :
    s'.table = s.table ∧ s'.ready = s.ready ∧
      ((∀ f, s'.phys.frames.Free f ↔ s.phys.frames.Free f) ↔ img.Rejected ∨ ∀ f, ¬s.phys.frames.Free f) := by
  obtain ⟨ht, hre, hphys⟩ := failed_spawn_eq hspawn
  refine ⟨ht, hre, ?_⟩
  by_cases hr : img.Rejected
  · have hsame : s'.phys = s.phys :=
      hphys ▸ ((loadProgram_rejected hhdm cr3 hr s.phys).imp (fun _ _ h => h.elim)).state
    simp_all
  · unfold Image.Rejected at hr
    push Not at hr
    obtain ⟨header, hp, hen⟩ := hr
    rcases failed_spawn_takes hspawn hp (hen) with ⟨f, hfree, huse⟩ | hex
    · refine iff_of_false (fun h => huse ((h f).2 hfree)) ?_
      rintro (hr | hnone)
      · exact hen (hr header hp)
      · exact hnone f hfree
    · exact iff_of_true hex.rest (Or.inr ((FrameAllocator.avail_eq_zero_iff _).1 hex.avail))

theorem spawn_of_load_error {hhdm cr3 : BitVec 64} {s : SpawnState} {e : Stop} {phys : Phys}
    (h : (loadProgram hhdm cr3 img).exec s.phys = (.error e, phys)) :
    spawnUserProcess hhdm cr3 img s = (.error e, { s with phys }) := by
  unfold spawnUserProcess
  rw [h]

def noBytes : Image := ⟨[], by decide, fun _ => 0⟩

theorem rejected_noBytes : noBytes.Rejected := by
  intro header hp
  have her : Elf64Header.parse noBytes = .error (.err "Data too small for ELF header") := by decide
  cases hp

/-- A file without bytes is rejected, and nothing is taken. -/
theorem failed_spawn_frames_noBytes :
    ∃ e s', spawnUserProcess 0 kernelP4.addr noBytes smallSystem = (.error e, s') ∧
      ∀ f, s'.phys.frames.Free f ↔ smallSystem.phys.frames.Free f := by
  obtain ⟨e, phys, hexec, -⟩ :=
    (loadProgram_rejected 0 kernelP4.addr rejected_noBytes smallSystem.phys).exists_error
  have hs := spawn_of_load_error hexec
  exact ⟨e, _, hs, (failed_spawn_frames_iff 0 kernelP4.addr noBytes smallSystem _ e hs).2.2.2 (Or.inl rejected_noBytes)⟩

def headerOnly : Image where
  data := twoSegments.data.take 64
  length_lt := by decide +kernel
  outside := twoSegments.outside

theorem parse_headerOnly : Elf64Header.parse headerOnly = .ok ⟨0x400000, 64, 56, 2⟩ ∧
    Elf64Header.programHeaders ⟨0x400000, 64, 56, 2⟩ headerOnly = .error (.err "Program headers out of bounds") := by
  constructor <;> decide +kernel

theorem loadProgram_headerOnly :
    Ends (loadProgram 0 kernelP4.addr headerOnly) smallSystem.phys (fun _ _ => False)
      (fun e _ => e = .err "Program headers out of bounds") := by
  have hav : 65 ≤ smallSystem.phys.frames.avail := Nat.le_trans (by decide) avail_smallKernel.ge
  unfold loadProgram
  rw [parse_headerOnly.1]
  refine ends_bind (ends_pure ?_)
  refine ends_bind_of (createUserAddressSpace_shows kernelP4.addr smallSystem.phys) ?_ fun _ _ ha => by omega
  intro r s1 _
  exact ends_bind (ends_throw rfl)

/-- The program headers of the file are not in it; the spawn fails when the user stack is there, and does not give it back. -/
theorem failed_spawn_loses_frames :
    ¬∀ (hhdm cr3 : BitVec 64) (img : Image) (s s' : SpawnState) (msg : String),
      spawnUserProcess hhdm cr3 img s = (.error (.err msg), s') →
      (∀ f, s'.phys.frames.Free f ↔ s.phys.frames.Free f) ∧ s'.table = s.table ∧ s'.ready = s.ready := by
  intro hall
  obtain ⟨e, phys, hexec, rfl⟩ := loadProgram_headerOnly.exists_error
  have hs := spawn_of_load_error hexec
  have hf := (hall 0 kernelP4.addr headerOnly smallSystem _ _ hs).1
  rcases failed_spawn_takes hs parse_headerOnly.1 (by decide) with ⟨f, hfree, hlost⟩ | hex
  · exact hlost ((hf f).2 hfree)
  · exact absurd (hex.avail.symm.trans avail_smallKernel) (by decide)

end AstralOS.Usermode
