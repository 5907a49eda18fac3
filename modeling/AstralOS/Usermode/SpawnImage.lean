import AstralOS.Usermode.KernelHalf
import AstralOS.Usermode.Segments

/-!
# A process sees its program

`spawn_user_process` from the ELF file to the memory of the new process.  The new address space starts with nothing mapped
below the user stack (`createUserAddressSpace_shows`), the segments are loaded into it, and the kernel stack is taken from
frames of its own.  So through the new page table each segment is seen at its addresses, with zeros behind its part in the
file, and with enough frames and a place in the process table the call succeeds (`spawn_shows_image`).
-/

namespace AstralOS.Usermode

open Function Memory
open X86 (Role Tree lookup frameOf indices)
open Fallible

variable {role : Nat → Option Role} {s s' : Phys} {p4 current : PhysAddr} {mapped : PageMap} {view : ByteMem}
  {img : Image} {header : Elf64Header}

/-! ### The new address space -/

theorem copyKernelHalf_user :
    Ends (copyKernelHalf current p4) s
      (fun _ s' => s'.frames = s.frames ∧ ∀ i, UserHalf i → s'.entry p4 i = s.entry p4 i)
      (fun _ _ => False) := by
  refine Ends.imp (ends_forM kernelHalf
    (fun xs s' => (∀ i ∈ xs, ¬UserHalf i) ∧ s'.frames = s.frames ∧ ∀ i, UserHalf i → s'.entry p4 i = s.entry p4 i)
    ?_ ?_) (fun _ _ h => h.2)
  · rintro i xs s1 ⟨hxs, hf, hen⟩
    refine ⟨fun j hj => hxs j (by simp [hj]), hf, ?_⟩
    intro j hj
    rw [← hen j hj]
    refine X86.entry_write_of_ne p4.frame_lt p4.frame_lt ?_ _
    grind
  · refine ⟨fun i hi => ?_, rfl, fun _ _ => rfl⟩
    have := (mem_kernelHalf i).1 hi
    unfold UserHalf
    omega

theorem space_root (ht : Took s p4 s') (huser : ∀ i, UserHalf i → ¬X86.present (s'.entry p4 i)) :
    Space UserHalf (update (fun _ => none) p4.frame (some (.table []))) s' := by
  have hrole : ∀ {f r}, update (fun _ => none) p4.frame (some (Role.table [])) f = some r →
      f = p4.frame ∧ r = .table [] := by
    intro f r hf
    rcases X86.update_eq_some_iff.1 hf with h | ⟨-, h⟩
    · exact h
    · cases h
  refine ⟨{ lt := ?_, len := ?_, child := ?_, parent := ?_, inj := ?_ }, ?_⟩
  · intro f r hf
    obtain ⟨rfl, -⟩ := hrole hf
    exact p4.frame_lt
  · grind
  · intro f π i hf _ hd hp
    obtain ⟨rfl, hπ⟩ := hrole hf
    cases hπ
    exact absurd hp (huser i (hd rfl))
  · intro g π i hg
    obtain ⟨-, hπ⟩ := hrole hg
    simp at hπ
  · grind
  · intro f r hf hfree
    obtain ⟨rfl, -⟩ := hrole hf
    exact ((ht.rest _).1 hfree).2 rfl

theorem UserPage.indices_ne_stackPage {v : BitVec 64} (hv : UserPage v) {i : Nat} (hi : i < userStackPages) :
    indices v 3 ≠ indices (stackPage i) 3 := by
  have hbase : userStackBase.toNat = 0x7FFFFFE00000 := rfl
  have hp : userStackPages = 16 := by decide
  have hsize : pageSize = 4096 := rfl
  have hb := hv.below
  simp [stackPage, pageOf, BitVec.toNat_add, hbase, BitVec.toNat_ofNat, hsize, indices_eq_iff]
  omega

theorem shows_nothing (h : Space UserHalf role s) (htop : role p4.frame = some (.table []))
    (habs : ∀ v, UserPage v → lookup s.mem p4.frame (indices v 3) = none) :
    Shows role s p4 (fun _ => none) fun _ => 0 where
  toSpace := h
  top := htop
  page := fun hv => by cases hv
  held := fun hv => by cases hv
  own := fun hv => by cases hv
  entry := fun hv => by cases hv
  absent := fun hpage _ => habs _ hpage
  bytes := fun ha => by cases ha
  zero := fun _ => rfl

theorem createUserAddressSpace_shows (cr3 : BitVec 64) (s : Phys) :
    Ends (createUserAddressSpace cr3) s
      (fun r s' => (∃ role, Shows role s' r.1 (fun _ => none) fun _ => 0) ∧ s.frames.avail ≤ s'.frames.avail + 65)
      (fun _ _ => s.frames.avail < 65) := by
  refine ends_bind_of (allocateZeroed_ends _ s) ?_ ?_
  · intro p4 s1 ht
    refine ends_bind_of copyKernelHalf_user ?_ fun _ _ h => h.elim
    rintro _ s2 ⟨hf, hen⟩
    have huser : ∀ i, UserHalf i → ¬X86.present (s2.entry p4 i) := by
      intro i hi
      have hzero : s1.entry p4 i = 0 := by
        unfold Phys.entry
        rw [ht.mem, entry_fill_self]
      rw [hen i hi, hzero]
      decide
    have htook : Took s p4 s2 := by
      refine ⟨ht.free, ?_, ?_⟩
      · rw [hf]
        exact ht.rest
      · rw [hf]
        exact ht.avail
    have hroot := space_root htook huser
    have hlook : ∀ is : List (Fin 512), is.length = 4 → (∀ i ∈ is.head?, UserHalf i) → lookup s2.mem p4.frame is = none := by
      intro is hlen hd
      match is, hlen with
      | i :: rest, _ => exact if_neg (huser i (hd i (by simp)))
    have ha := htook.avail
    refine ends_bind_of (allocateUserStack_spec hroot (update_self ..) (show (255 : Nat) < 256 by decide)) ?_ ?_
    · rintro stackTop s3 ⟨role3, hg, ha3, hv⟩
      refine ⟨⟨role3, shows_nothing hg.toSpace (hg.le (update_self ..)) ?_⟩, by omega⟩
      intro v hpage
      rw [hv _ (X86.length_indices v 3) hpage.low.head_indices fun i hi => hpage.indices_ne_stackPage hi]
      exact hlook _ (X86.length_indices v 3) hpage.low.head_indices
    · rintro e s3 ⟨role3, -, hstop⟩
      rcases hstop with ha3 | ⟨i, hi, hm⟩
      · omega
      · refine absurd (hlook _ (X86.length_indices _ 3) ?_) hm
        rw [indices_eq, p4Index_stackPage hi]
        have h255 : UserHalf 255 := show (255 : Nat) < 256 by decide
        simpa using h255
  · rintro e s1 ⟨-, hex⟩
    have := hex.avail
    omega

/-! ### The program -/

theorem allocateKernelStack_shows (h : Shows role s p4 mapped view) (hhdm : BitVec 64) :
    Ends (allocateKernelStack hhdm) s (fun _ s' => Shows role s' p4 mapped view) (fun _ _ => s.frames.avail < 4) := by
  have hr : List.range' 1 (kernelStackSize / pageSize - 1) = [1, 2, 3] := by decide
  refine ends_bind_of (allocateZeroed_ends _ s) ?_ ?_
  · intro base s1 ht
    have ha1 := ht.avail
    -- the invariant: the frames for the rest of the list are still to be taken
    refine Ends.bind (ends_forM [1, 2, 3]
      (fun xs s' => Shows role s' p4 mapped view ∧ s.frames.avail + xs.length ≤ s'.frames.avail + 4) ?_ ?_)
      (fun _ _ h' => h'.1)
    · rintro i xs s2 ⟨h2, ha2⟩
      rw [List.length_cons] at ha2
      refine ends_bind_of (allocateZeroed_ends _ s2) ?_ ?_
      · intro frame s3 ht3
        have := ht3.avail
        exact ends_pure ⟨h2.alloc ht3, by omega⟩
      · rintro e s3 ⟨-, hex⟩
        have := hex.avail
        omega
    · exact ⟨h.alloc ht, by simp; omega⟩
  · rintro e s1 ⟨-, hex⟩
    have := hex.avail
    omega

theorem loadProgram_shows (hhdm cr3 : BitVec 64) (hpar : Elf64Header.parse img = .ok header) (hwf : header.WellFormed img)
    (s : Phys) :
    Ends (loadProgram hhdm cr3 img) s
      (fun prog s' => ∃ role mapped, Shows role s' prog.pageTable mapped (imageView img (header.segments img)) ∧
        ∀ ph ∈ header.segments img, ∀ i < ph.memsz.toNat, mapped (pageStart (ph.vaddr + BitVec.ofNat 64 i)) ≠ none)
      (fun _ _ => header.entry ≥ 0x0000800000000000 ∨ header.bound > img.data.length ∨
        s.frames.avail < 69 + 4 * pagesOf (header.segments img)) := by
  unfold loadProgram
  rw [hpar]
  refine ends_bind (ends_pure ?_)
  by_cases hen : header.entry ≥ 0x0000800000000000
  · rw [if_pos hen]
    exact ends_throw (Or.inl hen)
  rw [if_neg hen]
  refine ends_bind_of (createUserAddressSpace_shows cr3 s) ?_ fun _ _ ha => Or.inr (Or.inr (by omega))
  rintro ⟨p4, stackTop⟩ s1 ⟨⟨role1, h1⟩, ha1⟩
  by_cases hb : header.bound > img.data.length
  · rw [Elf64Header.programHeaders_eq, if_pos hb]
    exact ends_bind (ends_throw (Or.inr (Or.inl hb)))
  obtain ⟨headers, hh⟩ : ∃ headers, header.programHeaders img = .ok headers := by
    simp [Elf64Header.programHeaders_eq, hb]
  have hsegs := Elf64Header.segments_eq hwf.phentsize hh
  have hfits := hwf.fits
  rw [hsegs] at hfits
  rw [hh, hsegs]
  refine ends_bind (ends_pure (ends_bind_of (loadSegments_shows h1 hfits) ?_ ?_))
  · rintro highest s2 ⟨role2, mapped, h2, hpag, ha2⟩
    refine ends_bind_of (allocateKernelStack_shows h2 hhdm) ?_ fun _ _ ha3 => Or.inr (Or.inr (by omega))
    intro kernelStack s3 h3
    exact ends_pure ⟨role2, mapped, h3, hpag⟩
  · omega

theorem Shows.readByte_eq (h : Shows role s p4 mapped view) {a : BitVec 64} (ha : mapped (pageStart a) ≠ none) :
    X86.readByte s.mem p4.frame a = some (view a) := by
  obtain ⟨frame, hf⟩ := Option.ne_none_iff_exists'.1 ha
  have hpage := h.page hf
  obtain ⟨e, hlook, ht⟩ := h.entry hf
  have hi : indices (pageStart a) 3 = indices a 3 := by
    have hs := toNat_pageStart a
    rw [indices_eq_iff]
    unfold pageOf
    omega
  rw [hi] at hlook
  have hhalf : UserHalf (X86.index 3 a) := by
    refine hpage.low.head_indices _ ?_
    rw [hi]
    rfl
  have hwalk := h.tree.walk_eq_lookup (v := a) h.top rfl fun _ => hhalf
  rw [hlook, Option.map_some, ht, ← frame.toNat_add_pageOffset] at hwalk
  obtain ⟨r, hr, haddr⟩ := Option.map_eq_some_iff.1 hwalk
  unfold X86.readByte
  rw [hr, Option.map_some, haddr, BitVec.ofNat_toNat, BitVec.setWidth_eq, h.bytes hf]

theorem fillSlot_of_mem (process : Proc.Process) {ss : List (Option Proc.Process)} (h : none ∈ ss) :
    Proc.fillSlot process ss ≠ none := by
  induction ss with
  | nil => cases h
  | cons o ss ih =>
    cases o with
    | none => simp [Proc.fillSlot]
    | some q =>
      simp_all [Proc.fillSlot]

theorem exists_add {table : Proc.ProcessTable} (h : none ∈ table.processes) (process : Proc.Process) :
    ∃ table', table.add process = .ok table' := by
  unfold Proc.ProcessTable.add
  split
  · exact ⟨_, rfl⟩
  · rename_i hnone
    exact absurd hnone (fillSlot_of_mem process h)

theorem exists_loadProgram {hhdm cr3 : BitVec 64} {s s' : SpawnState} {process : SpawnedProcess}
    (hs : spawnUserProcess hhdm cr3 img s = (.ok process, s')) :
    ∃ prog, (loadProgram hhdm cr3 img).exec s.phys = (.ok prog, s'.phys) ∧
      PhysAddr.new process.pageTablePhys = prog.pageTable := by
  unfold spawnUserProcess at hs
  cases hexec : (loadProgram hhdm cr3 img).exec s.phys with
  | mk r phys =>
    rw [hexec] at hs
    cases r with
    | error e => cases hs
    | ok prog =>
      dsimp only at hs
      split at hs
      · cases hs
      · cases hs
        exact ⟨prog, rfl, PhysAddr.ext prog.pageTable.masked⟩

theorem readByte_of_spawn {hhdm cr3 : BitVec 64} {s s' : SpawnState} {process : SpawnedProcess}
    (hpar : Elf64Header.parse img = .ok header) (hwf : header.WellFormed img)
    (hsp : spawnUserProcess hhdm cr3 img s = (.ok process, s')) {ph : Elf64ProgramHeader}
    (hph : ph ∈ header.segments img) {i : Nat} (hi : i < ph.memsz.toNat) :
    X86.readByte s'.phys.mem (PhysAddr.new process.pageTablePhys).frame (ph.vaddr + BitVec.ofNat 64 i) =
      some (ph.byteAt img i) := by
  obtain ⟨prog, hexec, ht⟩ := exists_loadProgram hsp
  obtain ⟨role, mapped, hsh, hpag⟩ := (loadProgram_shows hhdm cr3 hpar hwf s.phys).ok hexec
  rw [ht, hsh.readByte_eq (hpag ph hph i hi), imageView_apply hwf hph hi]

theorem exists_spawn {hhdm cr3 : BitVec 64} {s : SpawnState} (hp : Elf64Header.parse img = .ok header)
    (hwf : header.WellFormed img) (hen : header.entry < 0x0000800000000000)
    (hin : header.phoff.toNat + 56 * header.phnum.toNat ≤ img.data.length)
    (ha : 69 + 4 * pagesOf (header.segments img) ≤ s.phys.frames.avail) (hslot : none ∈ s.table.processes) :
    ∃ process s', spawnUserProcess hhdm cr3 img s = (.ok process, s') := by
  have hload := loadProgram_shows hhdm cr3 hp hwf s.phys
  unfold spawnUserProcess
  cases hexec : (loadProgram hhdm cr3 img).exec s.phys with
  | mk r phys =>
    cases r with
    | error e =>
      rcases hload.error hexec with h | h | h
      · exact absurd hen (BitVec.not_lt.2 h)
      · have hsize : header.phentsize.toNat = 56 := congrArg BitVec.toNat hwf.phentsize
        grind [Elf64Header.bound]
      · omega
    | ok prog =>
      obtain ⟨table, ht⟩ := exists_add hslot (prog.process s.nextPid)
      simp [ht]

/-- A process that was spawned from a well-formed file reads the bytes of every segment at its addresses.  The call
succeeds if the entry point is in user space, the program headers are in the file, and there are enough frames and an
empty slot in the process table. -/
theorem spawn_shows_image (hhdm cr3 : BitVec 64) (s : SpawnState) (hparse : Elf64Header.parse img = .ok header)
    (hwf : header.WellFormed img) :
    (∀ process s', spawnUserProcess hhdm cr3 img s = (.ok process, s') →
      ∀ ph ∈ header.segments img, ∀ i < ph.memsz.toNat,
        X86.readByte s'.phys.mem (PhysAddr.new process.pageTablePhys).frame (ph.vaddr + BitVec.ofNat 64 i) =
          some (ph.byteAt img i)) ∧
      (header.entry < 0x0000800000000000 → header.phoff.toNat + 56 * header.phnum.toNat ≤ img.data.length →
        69 + 4 * pagesOf (header.segments img) ≤ s.phys.frames.avail → none ∈ s.table.processes →
        ∃ process s', spawnUserProcess hhdm cr3 img s = (.ok process, s')) :=
  ⟨fun _ _ hs _ hph _ hi => readByte_of_spawn hparse hwf hs hph hi, exists_spawn hparse hwf⟩

/-- An ELF file with two segments in one page: two bytes at 0x400000, and at 0x400010 one byte with zeros behind it that
reach into the next page. -/
def twoSegments : Image where
  data :=
    -- the file header: identification, type, machine, version, entry point, offset of the program headers
    [0x7F, 0x45, 0x4C, 0x46, 2, 1, 1, 0, 0, 0, 0, 0, 0, 0, 0, 0, 2, 0, 0x3E, 0, 1, 0, 0, 0] ++
    [0, 0, 0x40, 0, 0, 0, 0, 0] ++ [64, 0, 0, 0, 0, 0, 0, 0] ++
    [0, 0, 0, 0, 0, 0, 0, 0, 0, 0, 0, 0, 64, 0, 56, 0, 2, 0, 0, 0, 0, 0, 0, 0] ++
    -- the program headers: type, flags, offset, virtual and physical address, sizes, alignment
    [1, 0, 0, 0, 5, 0, 0, 0] ++ [176, 0, 0, 0, 0, 0, 0, 0] ++ [0, 0, 0x40, 0, 0, 0, 0, 0] ++ [0, 0, 0, 0, 0, 0, 0, 0] ++
    [2, 0, 0, 0, 0, 0, 0, 0] ++ [2, 0, 0, 0, 0, 0, 0, 0] ++ [0, 0x10, 0, 0, 0, 0, 0, 0] ++
    [1, 0, 0, 0, 6, 0, 0, 0] ++ [178, 0, 0, 0, 0, 0, 0, 0] ++ [0x10, 0, 0x40, 0, 0, 0, 0, 0] ++ [0, 0, 0, 0, 0, 0, 0, 0] ++
    [1, 0, 0, 0, 0, 0, 0, 0] ++ [0, 0x10, 0, 0, 0, 0, 0, 0] ++ [0, 0x10, 0, 0, 0, 0, 0, 0] ++
    [0xAA, 0xBB, 0xCC]
  length_lt := by decide +kernel
  outside := fun _ => 0

theorem parse_twoSegments : Elf64Header.parse twoSegments = .ok ⟨0x400000, 64, 56, 2⟩ ∧
    Elf64Header.segments ⟨0x400000, 64, 56, 2⟩ twoSegments =
      [⟨1, 5, 176, 0x400000, 2, 2⟩, ⟨1, 6, 178, 0x400010, 1, 0x1000⟩] := by
  constructor <;> decide +kernel

theorem length_twoSegments : twoSegments.data.length = 179 := by decide +kernel

theorem wellFormed_of_segments {flags : BitVec 32} (hlen : img.data.length = 179)
    (hsegs : Elf64Header.segments ⟨0x400000, 64, 56, 2⟩ img =
      [⟨1, flags, 176, 0x400000, 2, 2⟩, ⟨1, 6, 178, 0x400010, 1, 0x1000⟩]) :
    Elf64Header.WellFormed ⟨0x400000, 64, 56, 2⟩ img where
  phentsize := rfl
  fits := by
    rw [hsegs]
    intro ph hph
    simp only [List.mem_cons, List.not_mem_nil, or_false] at hph
    rcases hph with rfl | rfl
    · exact ⟨hlen ▸ show 176 + 2 ≤ 179 by decide, Nat.le_refl 2, fun _ => show 0x400000 + 2 ≤ userStackBase.toNat by decide⟩
    · exact ⟨by rw [hlen]; decide, by decide, by decide⟩
  disjoint := by
    rw [hsegs]
    refine List.pairwise_pair.2 ?_
    rintro a ⟨-, h1⟩ ⟨h2, -⟩
    have h₁' : a.toNat < 0x400000 + 2 := h1
    have h₂' : 0x400010 ≤ a.toNat := h2
    omega

theorem exists_spawn_of_segments {flags : BitVec 32} (hpar : Elf64Header.parse img = .ok ⟨0x400000, 64, 56, 2⟩)
    (hlen : img.data.length = 179)
    (hsegs : Elf64Header.segments ⟨0x400000, 64, 56, 2⟩ img =
      [⟨1, flags, 176, 0x400000, 2, 2⟩, ⟨1, 6, 178, 0x400010, 1, 0x1000⟩]) :
    ∃ process s', spawnUserProcess 0 kernelP4.addr img smallSystem = (.ok process, s') := by
  refine exists_spawn hpar (wellFormed_of_segments hlen hsegs) (by decide) ?_ ?_ (by decide)
  · rw [hlen]
    decide
  · have hf : Elf64ProgramHeader.numPages ⟨1, flags, 176, 0x400000, 2, 2⟩ = 1 := by
      unfold Elf64ProgramHeader.numPages Elf64ProgramHeader.virtStart
      dsimp only
      decide
    have hpag : pagesOf (Elf64Header.segments ⟨0x400000, 64, 56, 2⟩ img) = 1 + 2 := by
      rw [hsegs, pagesOf, List.map_cons, List.sum_cons, hf]
      rfl
    rw [hpag]
    exact Nat.le_trans (by decide) avail_smallKernel.ge

theorem exists_spawn_twoSegments :
    ∃ process s', spawnUserProcess 0 kernelP4.addr twoSegments smallSystem = (.ok process, s') :=
  exists_spawn_of_segments parse_twoSegments.1 length_twoSegments parse_twoSegments.2

/-- The new process reads the bytes of both segments, and zeros behind the second one in the next page. -/
theorem spawn_shows_image_twoSegments :
    ∃ process s', spawnUserProcess 0 kernelP4.addr twoSegments smallSystem = (.ok process, s') ∧
      X86.readByte s'.phys.mem (PhysAddr.new process.pageTablePhys).frame 0x400001 = some 0xBB ∧
      X86.readByte s'.phys.mem (PhysAddr.new process.pageTablePhys).frame 0x400010 = some 0xCC ∧
      X86.readByte s'.phys.mem (PhysAddr.new process.pageTablePhys).frame 0x401000 = some 0 := by
  obtain ⟨process, s', hs⟩ := exists_spawn_twoSegments
  have hread := (spawn_shows_image 0 kernelP4.addr smallSystem parse_twoSegments.1
    (wellFormed_of_segments length_twoSegments parse_twoSegments.2)).1 process s' hs
  rw [parse_twoSegments.2] at hread
  have h1 := hread ⟨1, 5, 176, 0x400000, 2, 2⟩ (by simp) 1 (by decide)
  have h2 := hread ⟨1, 6, 178, 0x400010, 1, 0x1000⟩ (by simp) 0 (by decide)
  have h3 := hread ⟨1, 6, 178, 0x400010, 1, 0x1000⟩ (by simp) 0xFF0 (by decide)
  refine ⟨process, s', hs, h1.trans (congrArg some ?_), h2.trans (congrArg some ?_), h3.trans (congrArg some ?_)⟩
  · decide +kernel
  · decide +kernel
  · decide +kernel

end AstralOS.Usermode
