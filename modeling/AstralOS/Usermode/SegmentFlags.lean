import AstralOS.Usermode.SpawnImage

/-!
# The permissions of the pages of a program

The loader chooses the flags of a page when the first segment that has a byte in it maps the page; later segments with bytes in
the same page take its frame as it is.  `Flagged` says that each page loaded so far has the flags of the first segment in
it.  So every segment has the permissions it asks for exactly if in each page the first one asks for as much as the others
(`segments_permitted_iff`).
-/

namespace AstralOS.Usermode

open Memory List Option
open X86 (Role lookup indices)
open PageTableEntry (setAddress writable noExecute)
open Fallible

def Elf64ProgramHeader.Touches (ph : Elf64ProgramHeader) (v : BitVec 64) : Prop :=
  ph.memsz ≠ 0 ∧ ph.vaddr.toNat / 4096 ≤ v.toNat / 4096 ∧
    v.toNat / 4096 ≤ (ph.vaddr.toNat + ph.memsz.toNat - 1) / 4096

instance (ph : Elf64ProgramHeader) (v : BitVec 64) : Decidable (ph.Touches v) := inferInstanceAs (Decidable (_ ∧ _ ∧ _))

def firstIn (segs : List Elf64ProgramHeader) (v : BitVec 64) : Option Elf64ProgramHeader :=
  segs.find? fun ph => decide (ph.Touches v)

/-- The entry of a page lets the process do what the segment asks for.  The tables above are entered with `interFlags`, so the
entry of the page decides. -/
def Permits (e : BitVec 64) (ph : Elf64ProgramHeader) : Prop :=
  (ph.isWritable → e &&& writable ≠ 0) ∧ (ph.isExecutable → e &&& noExecute = 0)

variable {role role' : Nat → Option Role} {s s' : Phys} {p4 frame : PhysAddr} {mapped : PageMap}
  {own own' : BitVec 64 → Option Elf64ProgramHeader} {v : BitVec 64} {ph first : Elf64ProgramHeader} {img : Image}
  {header : Elf64Header} {headers : List Elf64ProgramHeader}

/-! ### Flags -/

theorem writable_entryFlags (ph : Elf64ProgramHeader) : ph.entryFlags.getLsbD 1 = ph.isWritable := by
  unfold Elf64ProgramHeader.entryFlags Elf64ProgramHeader.pageFlags
  cases ph.isWritable <;> cases ph.isExecutable <;> decide

theorem noExecute_entryFlags (ph : Elf64ProgramHeader) : ph.entryFlags.getLsbD 63 = !ph.isExecutable := by
  unfold Elf64ProgramHeader.entryFlags Elf64ProgramHeader.pageFlags
  cases ph.isWritable <;> cases ph.isExecutable <;> decide

theorem permits_setAddress_iff (addr : BitVec 64) :
    Permits (setAddress addr first.entryFlags) ph ↔
      (ph.isWritable → first.isWritable) ∧ (ph.isExecutable → first.isExecutable) := by
  unfold Permits
  rw [writable_setAddress, noExecute_setAddress, writable_entryFlags, noExecute_entryFlags, Bool.not_eq_false']

/-! ### Pages -/

theorem Elf64ProgramHeader.InUserSpace.lowPage (h : ph.InUserSpace) (hz : ph.memsz ≠ 0) {i : Nat} (hi : i < ph.numPages) :
    LowPage (ph.page i) := by
  have hp := h.numPages_eq hz
  have hpage := h.toNat_page hz hi
  have hin := h hz
  refine ⟨BitVec.eq_of_toNat_eq ?_, by omega⟩
  rw [toNat_pageStart]
  omega

theorem Elf64ProgramHeader.InUserSpace.mem_pages_iff (h : ph.InUserSpace) (hz : ph.memsz ≠ 0) (hv : LowPage v) :
    v ∈ (List.range ph.numPages).map ph.page ↔ ph.Touches v := by
  have hp := h.numPages_eq hz
  have hmod := hv.toNat_mod
  rw [List.mem_map]
  constructor
  · rintro ⟨i, hi, rfl⟩
    have hpage := h.toNat_page hz (mem_range.1 hi)
    have hlt := mem_range.1 hi
    exact ⟨hz, by omega, by omega⟩
  · rintro ⟨-, hlo, hhi⟩
    have hpos : 0 < ph.memsz.toNat := Nat.pos_of_ne_zero fun h0 => hz (BitVec.eq_of_toNat_eq h0)
    have hlt : v.toNat / 4096 - ph.vaddr.toNat / 4096 < ph.numPages := by omega
    refine ⟨_, mem_range.2 hlt, BitVec.eq_of_toNat_eq ?_⟩
    rw [h.toNat_page hz hlt]
    omega

/-! ### Loading -/

/-- Each page loaded so far has the flags of the segment it belongs to, and every page that belongs to one is loaded. -/
structure Flagged (role : Nat → Option Role) (s : Phys) (p4 : PhysAddr) (mapped : PageMap)
    (own : BitVec 64 → Option Elf64ProgramHeader) : Prop extends Space UserHalf role s where
  top : role p4.frame = some (.table [])
  data : MapOk role mapped
  page : ∀ {v frame}, mapped v = some frame → LowPage v
  absent : ∀ {v}, LowPage v → mapped v = none → own v = none
  flags : ∀ {v frame}, mapped v = some frame →
    ∃ ph, own v = some ph ∧ lookup s.mem p4.frame (indices v 3) = some (setAddress frame.addr ph.entryFlags)

section

variable (h : Flagged role s p4 mapped own)
include h

theorem Flagged.congr (heq : ∀ v, LowPage v → own' v = own v) :
    Flagged role s p4 mapped own' where
  toSpace := h.toSpace
  top := h.top
  data := h.data
  page := h.page
  absent := fun hv hnone => by rw [heq _ hv, h.absent hv hnone]
  flags := fun hv => by
    rw [heq _ (h.page hv)]
    exact h.flags hv

theorem Flagged.same (hg : Grown UserHalf role s role' s')
    (hview : SameView UserHalf role s s') : Flagged role' s' p4 mapped own where
  toSpace := hg.toSpace
  top := hg.le h.top
  data := h.data.grown hg
  page := h.page
  absent := h.absent
  flags := fun {v frame} hv => by
    rw [hview h.top (X86.length_indices v 3) (h.page hv).head_indices]
    exact h.flags hv

theorem loadPage_flagged (hpage : LowPage v) :
    Ends (loadPage p4 ph mapped v) s
      (fun r s' => ∃ role', Grown UserHalf role s role' s' ∧ role' r.1.frame = some .data ∧
        Flagged role' s' p4 r.2 fun w => (own w).or (if w = v then some ph else none))
      (fun _ _ => True) := by
  refine (loadPage_spec h.toSpace h.top hpage.userHalf h.data).mono ?_ fun _ _ _ => trivial
  rintro ⟨frame, mapped'⟩ s' ⟨role', hg, hdata, hok, hcase⟩
  dsimp only at hdata hok hcase ⊢
  refine ⟨role', hg, hdata, ?_⟩
  rcases hcase with ⟨hv, rfl, rfl⟩ | ⟨hnone, rfl, hm⟩
  · refine (h.same hg fun _ _ _ => rfl).congr fun w _ => ?_
    by_cases hw : w = v
    · obtain ⟨q, hq, -⟩ := h.flags hv
      rw [hw, hq, some_or]
    · rw [if_neg hw, or_none]
  · have hown := h.absent hpage hnone
    have hlook : ∀ {w}, LowPage w → lookup s'.mem p4.frame (indices w 3) =
        if w = v then some (setAddress frame.addr ph.entryFlags) else lookup s.mem p4.frame (indices w 3) := by
      intro w hw
      rw [hm h.top (X86.length_indices w 3) hw.head_indices]
      by_cases hwv : w = v
      · rw [if_pos hwv, if_pos (by rw [hwv])]
      · rw [if_neg hwv, if_neg fun hi => hwv (hw.eq_of_indices hpage hi)]
    refine { toSpace := hg.toSpace, top := hg.le h.top, data := hok, page := ?_, absent := ?_, flags := ?_ }
    · intro w g hw
      rcases X86.update_eq_some_iff.1 hw with ⟨rfl, -⟩ | ⟨-, hw'⟩
      · exact hpage
      · exact h.page hw'
    · intro w hw hnone'
      by_cases hwv : w = v
      · simp_all [hwv, Function.update_self]
      · rw [Function.update_of_ne hwv] at hnone'
        rw [h.absent hw hnone', if_neg hwv, none_or]
    · intro w g hw
      rcases X86.update_eq_some_iff.1 hw with ⟨rfl, rfl⟩ | ⟨hwv, hw'⟩
      · exact ⟨ph, by rw [hown, if_pos rfl, none_or], by rw [hlook hpage, if_pos rfl]⟩
      · simpa [hlook (h.page hw'), hwv, or_none] using h.flags hw'

theorem loadSegment_flagged (img : Image) (hu : ph.InUserSpace) :
    Ends (loadSegment img p4 ph mapped) s
      (fun mapped' s' => ∃ role', Flagged role' s' p4 mapped' fun w => (own w).or (if ph.Touches w then some ph else none))
      (fun _ _ => True) := by
  unfold loadSegment
  by_cases hz : ph.memsz = 0
  · rw [if_pos hz]
    refine ends_pure ⟨role, h.congr fun w _ => ?_⟩
    rw [if_neg fun ht => ht.1 hz, or_none]
  rw [if_neg hz]
  -- the invariant: the pages done so far belong to the segment, and their frames hold data
  refine ends_bind_of (ends_foldlM_done (E := fun _ _ => True) (range ph.numPages)
    (fun done (b : PageMap × List PhysAddr) s' => ∃ role',
      (Flagged role' s' p4 b.1 fun w => (own w).or (if w ∈ done.map ph.page then some ph else none)) ∧
      ∀ frame ∈ b.2, role' frame.frame = some .data) ?_ ?_) ?_ fun _ _ _ => trivial
  · rintro done i rest ⟨mapped1, frames⟩ s1 hdone ⟨role1, h1, hf⟩
    have hi : i < ph.numPages := mem_range.1 (by rw [← hdone]; simp)
    refine ends_bind_of (loadPage_flagged h1 (hu.lowPage hz hi)) ?_ fun _ _ _ => trivial
    rintro ⟨frame, mapped2⟩ s2 ⟨role2, hg, hdata, h2⟩
    refine ends_pure ⟨role2, h2.congr fun w _ => ?_, fun g hg' => ?_⟩
    · rw [Option.or_assoc, List.map_append, List.map_singleton]
      congr 1
      by_cases hmem : w ∈ done.map ph.page
      · rw [if_pos hmem, if_pos (mem_append_left _ hmem), some_or]
      · simp only [mem_append, hmem, false_or, mem_singleton, if_false, none_or]
    · rcases mem_append.1 hg' with hg' | hg'
      · exact hg.le (hf g hg')
      · grind
  · refine ⟨role, h.congr fun w _ => ?_, by simp⟩
    rw [map_nil, if_neg not_mem_nil, or_none]
  · rintro ⟨mapped1, frames⟩ s1 ⟨role1, h1, hf⟩
    have hp : Flagged role1 s1 p4 mapped1 fun w => (own w).or (if ph.Touches w then some ph else none) := by
      refine h1.congr fun w hw => ?_
      simp only [hu.mem_pages_iff hz hw]
    dsimp only
    by_cases hfile : ph.filesz > 0
    · rw [if_pos hfile]
      refine ends_bind_of (copyData_spec h1.toSpace img hf) ?_ fun _ _ _ => trivial
      rintro _ s2 ⟨hg, hview⟩
      exact ends_pure ⟨role1, hp.same hg hview⟩
    · rw [if_neg hfile]
      exact ends_bind (ends_pure (ends_pure ⟨role1, hp⟩))

end

theorem loadSegments_flagged (h : Flagged role s p4 (fun _ => none) fun _ => none) (img : Image)
    (hu : ∀ ph ∈ headers.filter (·.type = ptLoad), ph.InUserSpace) :
    Ends (loadSegments img p4 headers) s
      (fun _ s' => ∃ role' mapped, Flagged role' s' p4 mapped (firstIn (headers.filter (·.type = ptLoad))))
      (fun _ _ => True) := by
  -- the invariant: each page belongs to the first of the segments done so far
  refine (ends_loadSegments (E := fun _ _ => True) (fun done mapped s' => ∃ role', Flagged role' s' p4 mapped (firstIn done))
    ?_ ⟨role, h⟩).imp ?_
  · rintro done ph rest mapped1 s1 hdone ⟨role1, h1⟩
    refine (loadSegment_flagged h1 img (hu ph (by rw [← hdone]; simp))).imp ?_
    rintro mapped2 s2 ⟨role2, h2⟩
    refine ⟨role2, h2.congr fun w _ => ?_⟩
    unfold firstIn
    by_cases ht : ph.Touches w
    · simp [ht]
    · simp [ht]
  · rintro _ s1 ⟨mapped1, role1, h1⟩
    exact ⟨role1, mapped1, h1⟩

theorem loadProgram_flagged (hhdm cr3 : BitVec 64) (hp : Elf64Header.parse img = .ok header)
    (hh : header.programHeaders img = .ok headers)
    (hu : ∀ ph ∈ headers.filter (·.type = ptLoad), ph.InUserSpace) (s : Phys) :
    Ends (loadProgram hhdm cr3 img) s
      (fun prog s' => ∃ role mapped, Flagged role s' prog.pageTable mapped (firstIn (headers.filter (·.type = ptLoad))))
      (fun _ _ => True) := by
  unfold loadProgram
  rw [hp]
  refine ends_bind (ends_pure ?_)
  by_cases hen : header.entry ≥ 0x0000800000000000
  · rw [if_pos hen]
    exact ends_throw trivial
  rw [if_neg hen]
  refine ends_bind_of (createUserAddressSpace_shows cr3 s) ?_ fun _ _ _ => trivial
  rintro ⟨p4, stackTop⟩ s1 ⟨⟨role1, hs⟩, -⟩
  have h1 : Flagged role1 s1 p4 (fun _ => none) fun _ => none :=
    { toSpace := hs.toSpace
      top := hs.top
      data := fun _ _ hv => by cases hv
      page := fun hv => by cases hv
      absent := fun _ _ => rfl
      flags := fun hv => by cases hv }
  rw [hh]
  refine ends_bind (ends_pure (ends_bind_of (loadSegments_flagged h1 img hu) ?_ fun _ _ _ => trivial))
  rintro highest s2 ⟨role2, mapped, h2⟩
  refine ends_bind_of (allocateKernelStack_spec h2.toSpace hhdm) ?_ fun _ _ _ => trivial
  rintro kernelStack s3 ⟨role3, hg, hview⟩
  exact ends_pure ⟨role3, mapped, h2.same hg hview⟩

/-! ### Permissions -/

def SegmentsPermitted (s : Phys) (p4 : PhysAddr) (segs : List Elf64ProgramHeader) : Prop :=
  ∀ ph ∈ segs, ∀ v, ph.Touches v → ∃ e, lookup s.mem p4.frame (indices v 3) = some e ∧ Permits e ph

/-- In each page the first segment asks for all that another one asks for. -/
def FirstAsksMost (segs : List Elf64ProgramHeader) : Prop :=
  ∀ ph ∈ segs, ∀ v, ph.Touches v → ∀ first, firstIn segs v = some first →
    (ph.isWritable → first.isWritable) ∧ (ph.isExecutable → first.isExecutable)

theorem Flagged.exists_entry {segs : List Elf64ProgramHeader} (h : Flagged role s p4 mapped (firstIn segs))
    (hph : ph ∈ segs) (hu : ph.InUserSpace) (hv : ph.Touches v) :
    ∃ first addr, firstIn segs v = some first ∧
      lookup s.mem p4.frame (indices v 3) = some (setAddress addr first.entryFlags) := by
  have hin := hu hv.1
  have hhi := hv.2.2
  have hs := toNat_pageStart v
  have hlow : LowPage (pageStart v) := by
    refine ⟨BitVec.eq_of_toNat_eq ?_, by omega⟩
    rw [toNat_pageStart, hs]
    omega
  have hf : firstIn segs (pageStart v) = firstIn segs v := by
    refine congrArg (fun p => segs.find? p) (funext fun q => decide_eq_decide.2 ?_)
    simp [Elf64ProgramHeader.Touches, hs]
  have hsome : firstIn segs (pageStart v) ≠ none := by
    rw [hf]
    intro hnone
    have := find?_eq_none.1 hnone ph hph
    exact this (decide_eq_true hv)
  have hi : indices v 3 = indices (pageStart v) 3 := by
    rw [indices_eq_iff]
    unfold pageOf
    omega
  cases hm : mapped (pageStart v) with
  | none => exact absurd (h.absent hlow hm) hsome
  | some frame =>
    obtain ⟨first, hown, hlook⟩ := h.flags hm
    grind

theorem exists_entry_of_spawn {hhdm cr3 : BitVec 64} {s s' : SpawnState} {process : SpawnedProcess}
    (hp : Elf64Header.parse img = .ok header) (hh : header.programHeaders img = .ok headers)
    (hu : ∀ ph ∈ headers.filter (·.type = ptLoad), ph.InUserSpace)
    (hs : spawnUserProcess hhdm cr3 img s = (.ok process, s')) (hph : ph ∈ headers.filter (·.type = ptLoad))
    (hv : ph.Touches v) :
    ∃ first addr, firstIn (headers.filter (·.type = ptLoad)) v = some first ∧
      lookup s'.phys.mem (PhysAddr.new process.pageTablePhys).frame (indices v 3) =
        some (setAddress addr first.entryFlags) := by
  obtain ⟨prog, hexec, ht⟩ := exists_loadProgram hs
  obtain ⟨role, mapped, hf⟩ := (loadProgram_flagged hhdm cr3 hp hh hu s.phys).ok hexec
  rw [ht]
  exact hf.exists_entry hph (hu ph hph) hv

/-- A process was spawned from a file whose segments have user addresses: the pages of all segments have the permissions
these ask for exactly if in each page the first segment asks for most. -/
theorem segments_permitted_iff (hhdm cr3 : BitVec 64) (img : Image) (header : Elf64Header)
    (headers : List Elf64ProgramHeader) (s s' : SpawnState) (process : SpawnedProcess)
    (hparse : Elf64Header.parse img = .ok header) (hheaders : header.programHeaders img = .ok headers)
    (hu : ∀ ph ∈ headers.filter (·.type = ptLoad), ph.InUserSpace)
    (hspawn : spawnUserProcess hhdm cr3 img s = (.ok process, s')) :
    SegmentsPermitted s'.phys (.new process.pageTablePhys) (headers.filter (·.type = ptLoad)) ↔
      FirstAsksMost (headers.filter (·.type = ptLoad)) := by
  refine forall₂_congr fun ph hph => forall₂_congr fun v hv => ?_
  obtain ⟨first, addr, hf, hlook⟩ := exists_entry_of_spawn hparse hheaders hu hspawn hph hv
  rw [hf, hlook]
  constructor
  · rintro ⟨e, he, hp⟩ q hq
    cases he
    cases hq
    exact (permits_setAddress_iff addr).1 hp
  · intro hall
    exact ⟨_, rfl, (permits_setAddress_iff addr).2 (hall first rfl)⟩

/-- The file with two segments in one page, the first of them writable too. -/
def writableFirst : Image where
  data := twoSegments.data.set 68 7
  length_lt := by decide +kernel
  outside := twoSegments.outside

theorem headers_writableFirst :
    Elf64Header.parse writableFirst = .ok ⟨0x400000, 64, 56, 2⟩ ∧
      Elf64Header.programHeaders ⟨0x400000, 64, 56, 2⟩ writableFirst =
        .ok [⟨1, 7, 176, 0x400000, 2, 2⟩, ⟨1, 6, 178, 0x400010, 1, 0x1000⟩] := by
  constructor <;> decide +kernel

theorem headers_twoSegments :
    Elf64Header.programHeaders ⟨0x400000, 64, 56, 2⟩ twoSegments =
      .ok [⟨1, 5, 176, 0x400000, 2, 2⟩, ⟨1, 6, 178, 0x400010, 1, 0x1000⟩] := by
  decide +kernel

theorem inUserSpace_two (flags : BitVec 32) : ∀ ph ∈ ([⟨1, flags, 176, 0x400000, 2, 2⟩,
    ⟨1, 6, 178, 0x400010, 1, 0x1000⟩] : List Elf64ProgramHeader).filter (·.type = ptLoad), ph.InUserSpace := by
  intro ph hph
  obtain ⟨hmem, -⟩ := mem_filter.1 hph
  simp only [mem_cons, not_mem_nil, or_false] at hmem
  rcases hmem with rfl | rfl
  · intro _
    dsimp only
    decide
  · intro _
    decide

theorem firstAsksMost_writableFirst :
    FirstAsksMost [⟨1, 7, 176, 0x400000, 2, 2⟩, ⟨1, 6, 178, 0x400010, 1, 0x1000⟩] := by
  intro ph hph v hv first hf
  unfold firstIn at hf
  simp only [mem_cons, not_mem_nil, or_false] at hph
  rcases hph with rfl | rfl
  · simp_all
  · have hmem := mem_of_find?_eq_some hf
    simp only [mem_cons, not_mem_nil, or_false] at hmem
    rcases hmem with rfl | rfl <;> decide

/-- If the first of the two segments is writable, both get what they ask for. -/
theorem segments_permitted_writableFirst :
    ∃ process s', spawnUserProcess 0 kernelP4.addr writableFirst smallSystem = (.ok process, s') ∧
      SegmentsPermitted s'.phys (.new process.pageTablePhys)
        [⟨1, 7, 176, 0x400000, 2, 2⟩, ⟨1, 6, 178, 0x400010, 1, 0x1000⟩] := by
  obtain ⟨hp, hh⟩ := headers_writableFirst
  obtain ⟨process, s', hs⟩ :=
    exists_spawn_of_segments hp (by decide +kernel) (Elf64Header.segments_eq rfl hh)
  exact ⟨process, s', hs, (segments_permitted_iff 0 kernelP4.addr writableFirst _ _ smallSystem s' process hp
    hh (inUserSpace_two 7) hs).2 firstAsksMost_writableFirst⟩

/-- The second segment of the file asks for a writable page, and shares it with the first, which does not. -/
theorem segments_not_permitted :
    ¬∀ (hhdm cr3 : BitVec 64) (img : Image) (header : Elf64Header) (headers : List Elf64ProgramHeader)
      (s s' : SpawnState) (process : SpawnedProcess), Elf64Header.parse img = .ok header →
      header.programHeaders img = .ok headers → spawnUserProcess hhdm cr3 img s = (.ok process, s') →
      SegmentsPermitted s'.phys (.new process.pageTablePhys) (headers.filter (·.type = ptLoad)) := by
  intro hall
  obtain ⟨process, s', hs⟩ := exists_spawn_twoSegments
  have hmem : (⟨1, 6, 178, 0x400010, 1, 0x1000⟩ : Elf64ProgramHeader) ∈ ([⟨1, 5, 176, 0x400000, 2, 2⟩,
      ⟨1, 6, 178, 0x400010, 1, 0x1000⟩] : List Elf64ProgramHeader).filter (·.type = ptLoad) := by decide
  have ht : Elf64ProgramHeader.Touches ⟨1, 6, 178, 0x400010, 1, 0x1000⟩ 0x400000 := by decide
  obtain ⟨e, he, hp⟩ := hall 0 kernelP4.addr twoSegments _ _ smallSystem s' process parse_twoSegments.1
    headers_twoSegments hs _ hmem _ ht
  obtain ⟨first, addr, hf, hlook⟩ := exists_entry_of_spawn parse_twoSegments.1 headers_twoSegments
    (inUserSpace_two 5) hs hmem ht
  -- the first segment in the page is not writable
  have h5 : first = ⟨1, 5, 176, 0x400000, 2, 2⟩ := (some.inj (hf.symm.trans (by decide)))
  rw [he, some.injEq] at hlook
  rw [hlook, permits_setAddress_iff, h5] at hp
  exact absurd (hp.1 (by decide)) (by decide)

end AstralOS.Usermode
