import AstralOS.Memory.PageMap
import AstralOS.Usermode.ElfImage
import AstralOS.Usermode.Load

/-!
# Loading the segments of a program

What the loader leaves in memory.  `Shows` relates the machine to the pages mapped so far and to the bytes a program is to
see there: each of these pages leads to a frame of its own with the bytes of the page, and no other page below the user
stack is mapped.  A new frame keeps it (`Shows.alloc`), mapping a frame of zeros adds a page (`Shows.map`), and storing a
byte in the frame of a page changes what is seen at one address (`Shows.store`).  From these, one segment after the other
is written over what was there before (`loadSegments_shows`).
-/

namespace AstralOS.Usermode

open Function Memory List BitVec
open X86 (Role lookup frameOf indices)
open Fallible

/-- The entries of a top table below which user pages lie. -/
def UserHalf (i : Fin 512) : Prop := i.val < 256

/-- A page of user addresses. -/
structure LowPage (v : BitVec 64) : Prop where
  aligned : pageStart v = v
  lt : v.toNat < 0x800000000000

/-- A page below the user stack. -/
structure UserPage (v : BitVec 64) : Prop where
  aligned : pageStart v = v
  below : v.toNat < userStackBase.toNat

namespace LowPage

variable {v w : BitVec 64}

theorem userHalf (h : LowPage v) : UserHalf (p4Index v) := by
  have hlt := h.lt
  have hi : p4Index v = X86.index 3 v := tableIndex_eq_index 3 v
  grind [UserHalf, X86.index]

theorem head_indices (h : LowPage v) : ∀ i ∈ (indices v 3).head?, UserHalf i := by
  rw [indices_eq]
  simpa using h.userHalf

theorem toNat_mod (h : LowPage v) : v.toNat % 4096 = 0 := by
  have := toNat_pageStart v
  rw [h.aligned] at this
  omega

theorem eq_of_indices (hv : LowPage v) (hw : LowPage w) (h : indices v 3 = indices w 3) : v = w := by
  have hv' := hv.lt
  have hw' := hw.lt
  have hvm := hv.toNat_mod
  have hwm := hw.toNat_mod
  rw [indices_eq_iff] at h
  unfold pageOf at h
  apply eq_of_toNat_eq
  omega

end LowPage

theorem UserPage.low {v : BitVec 64} (h : UserPage v) : LowPage v :=
  ⟨h.aligned, Nat.lt_of_lt_of_le h.below (by decide)⟩

/-- The pages mapped so far lead to frames of their own, in which the bytes of `view` stand; elsewhere below the user
stack nothing is mapped, and `view` is zero. -/
structure Shows (role : Nat → Option Role) (s : Phys) (p4 : PhysAddr) (mapped : PageMap) (view : ByteMem) : Prop
    extends Space UserHalf role s where
  top : role p4.frame = some (.table [])
  page : ∀ {v frame}, mapped v = some frame → UserPage v
  /-- The frames of the pages are not tables, and the allocator does not give them out again. -/
  held : ∀ {v frame}, mapped v = some frame → role frame.frame = none ∧ ¬s.frames.Free frame.frame
  own : ∀ {v w frame}, mapped v = some frame → mapped w = some frame → v = w
  entry : ∀ {v frame}, mapped v = some frame →
    ∃ e, lookup s.mem p4.frame (indices v 3) = some e ∧ X86.target e = frame.frame
  absent : ∀ {v}, UserPage v → mapped v = none → lookup s.mem p4.frame (indices v 3) = none
  bytes : ∀ {a frame}, mapped (pageStart a) = some frame → s.mem (frame.addr + pageOffset a) = view a
  zero : ∀ {a}, mapped (pageStart a) = none → view a = 0

def Extends (mapped mapped' : PageMap) : Prop := ∀ v frame, mapped v = some frame → mapped' v = some frame

variable {role : Nat → Option Role} {s s' : Phys} {p4 frame : PhysAddr} {mapped : PageMap} {view : ByteMem}
  {v a : BitVec 64} {ph : Elf64ProgramHeader} {img : Image}

theorem pageStart_add_pageOffset (a : BitVec 64) : pageStart a + pageOffset a = a := by
  have hs := toNat_pageStart a
  have hoff := toNat_pageOffset a
  apply eq_of_toNat_eq
  rw [toNat_add, hs, hoff]
  omega

namespace Shows

section

variable (h : Shows role s p4 mapped view)
include h

theorem lookup_eq (hview : SameView UserHalf role s s') (hpage : UserPage v) :
    lookup s'.mem p4.frame (indices v 3) = lookup s.mem p4.frame (indices v 3) :=
  hview h.top (X86.length_indices v 3) hpage.low.head_indices

theorem of_same (hmem : ∀ a, ¬s.frames.Free (frameOf a) → s'.mem a = s.mem a)
    (hfree : ∀ f, s'.frames.Free f → s.frames.Free f) : Shows role s' p4 mapped view := by
  obtain ⟨hs, hview⟩ : Space UserHalf role s' ∧ SameView UserHalf role s s' :=
    h.toSpace.of_same (fun a r hr => hmem a (h.taken hr)) hfree
  refine
    { toSpace := hs, top := h.top, page := h.page, own := h.own, zero := h.zero, held := ?_, entry := ?_, absent := ?_,
      bytes := ?_ }
  · intro v frame hv
    exact ⟨(h.held hv).1, fun hf => (h.held hv).2 (hfree _ hf)⟩
  · intro v frame hv
    rw [h.lookup_eq hview (h.page hv)]
    exact h.entry hv
  · intro v hpage hv
    rw [h.lookup_eq hview hpage]
    exact h.absent hpage hv
  · intro a frame ha
    rw [hmem _ (by rw [frame.frameOf_add_pageOffset]; exact (h.held ha).2)]
    exact h.bytes ha

theorem alloc (ht : Taken s frame s') : Shows role s' p4 mapped view := by
  refine h.of_same (fun a ha => ht.mem_of_ne ?_) fun f hf => ((ht.rest f).1 hf).1
  intro heq
  rw [heq] at ha
  exact ha ht.free

theorem store (ha : mapped (pageStart a) = some frame) (byte : BitVec 8) :
    Shows role { s with mem := s.mem.write8 (frame.addr + pageOffset a) byte } p4 mapped (view.write8 a byte) := by
  let s' : Phys := { s with mem := s.mem.write8 (frame.addr + pageOffset a) byte }
  have ho : ∀ b, frameOf b ≠ frame.frame → s'.mem b = s.mem b := by
    intro b hb
    refine if_neg ?_
    rintro rfl
    exact hb (frame.frameOf_add_pageOffset a)
  have hl : ∀ b r, role (frameOf b) = some r → s'.mem b = s.mem b := by
    intro b r hr
    apply ho
    intro hb
    rw [hb, (h.held ha).1] at hr
    cases hr
  obtain ⟨hs, hview⟩ : Space UserHalf role s' ∧ SameView UserHalf role s s' :=
    h.toSpace.of_same hl fun _ hf => hf
  refine
    { toSpace := hs, top := h.top, page := h.page, held := h.held, own := h.own, entry := ?_, absent := ?_,
      bytes := ?_, zero := ?_ }
  · intro v g hv
    rw [h.lookup_eq hview (h.page hv)]
    exact h.entry hv
  · intro v hpage hv
    rw [h.lookup_eq hview hpage]
    exact h.absent hpage hv
  · intro b g hb
    by_cases hba : b = a
    · simp_all [ByteMem.write8]
    · have hw : view.write8 a byte b = view b := if_neg hba
      rw [hw, ← h.bytes hb]
      by_cases hg : g = frame
      · -- another byte of the same page
        subst hg
        refine if_neg fun heq => hba ?_
        have hoff : pageOffset b = pageOffset a := by bv_omega
        rw [← pageStart_add_pageOffset b, ← pageStart_add_pageOffset a, h.own hb ha, hoff]
      · apply ho
        rw [g.frameOf_add_pageOffset]
        exact fun hf => hg (PhysAddr.eq_of_frame_eq hf)
  · intro b hb
    refine (if_neg ?_).trans (h.zero hb)
    rintro rfl
    rw [ha] at hb
    cases hb

theorem map (hpage : UserPage v) (hv : mapped v = none) {s1 : Phys}
    (ht : Taken s frame s1) {role' : Nat → Option Role} (hg : Grown UserHalf role s1 role' s') {e : BitVec 64}
    (hm : Mapped UserHalf role s1 s' v e) (he : X86.target e = frame.frame) :
    Shows role' s' p4 (update mapped v (some frame)) view := by
  have h1 := h.alloc ht
  -- a frame that was neither free nor labelled stays so, and is not written
  have hkeep : ∀ {g : Nat}, role g = none → ¬s1.frames.Free g →
      role' g = none ∧ ¬s'.frames.Free g ∧ ∀ a, frameOf a = g → s'.mem a = s1.mem a := by
    intro g hr hf
    have hr' : role' g = none := by
      cases hr' : role' g with
      | none => rfl
      | some r => exact absurd (hg.fresh hr hr') hf
    exact ⟨hr', fun hf' => hf (hg.free hf'), fun a ha => hg.same (by rw [ha]; exact hr')⟩
  have hfr := hkeep (h.role_eq_none ht.free) fun hf => ((ht.rest _).1 hf).2 rfl
  have hlook : ∀ {w}, UserPage w → lookup s'.mem p4.frame (indices w 3) =
      if w = v then some e else lookup s1.mem p4.frame (indices w 3) := by
    intro w hw
    rw [hm h.top (X86.length_indices w 3) hw.low.head_indices]
    by_cases hwv : w = v
    · rw [if_pos hwv, if_pos (by rw [hwv])]
    · rw [if_neg hwv, if_neg fun hi => hwv (hw.low.eq_of_indices hpage.low hi)]
  refine
    { toSpace := hg.toSpace, top := hg.le h.top, page := ?_, held := ?_, own := ?_, entry := ?_, absent := ?_, bytes := ?_,
      zero := ?_ }
  · intro w g hw
    rcases X86.update_eq_some_iff.1 hw with ⟨rfl, -⟩ | ⟨-, hw'⟩
    · exact hpage
    · exact h.page hw'
  · intro w g hw
    rcases X86.update_eq_some_iff.1 hw with ⟨-, rfl⟩ | ⟨-, hw'⟩
    · exact ⟨hfr.1, hfr.2.1⟩
    · obtain ⟨hr, hf, -⟩ := hkeep (h1.held hw').1 (h1.held hw').2
      exact ⟨hr, hf⟩
  · intro w x g hw hx
    -- the frame of an older page was not free
    have hnew : ∀ {y}, mapped y ≠ some frame := fun hy => (h.held hy).2 ht.free
    rcases X86.update_eq_some_iff.1 hw with ⟨rfl, hgw⟩ | ⟨-, hw'⟩
    · rcases X86.update_eq_some_iff.1 hx with ⟨rfl, -⟩ | ⟨-, hx'⟩
      · rfl
      · exact absurd (hgw ▸ hx') hnew
    · rcases X86.update_eq_some_iff.1 hx with ⟨rfl, hgx⟩ | ⟨-, hx'⟩
      · exact absurd (hgx ▸ hw') hnew
      · exact h.own hw' hx'
  · intro w g hw
    rcases X86.update_eq_some_iff.1 hw with ⟨rfl, rfl⟩ | ⟨hne, hw'⟩
    · exact ⟨e, by rw [hlook hpage, if_pos rfl], he⟩
    · rw [hlook (h.page hw'), if_neg hne]
      exact h1.entry hw'
  · intro w hw hnone
    have hne : w ≠ v := by
      grind
    rw [update_of_ne hne] at hnone
    rw [hlook hw, if_neg hne]
    exact h1.absent hw hnone
  · intro a g ha
    rcases X86.update_eq_some_iff.1 ha with ⟨hav, rfl⟩ | ⟨-, ha'⟩
    · rw [hfr.2.2 _ (g.frameOf_add_pageOffset a), ht.mem, fill_frame, if_pos (g.frameOf_add_pageOffset a)]
      exact (h.zero (by rw [hav]; exact hv)).symm
    · rw [(hkeep (h1.held ha').1 (h1.held ha').2).2.2 _ (g.frameOf_add_pageOffset a)]
      exact h1.bytes ha'
  · intro a ha
    by_cases hav : pageStart a = v
    · grind
    · rw [update_of_ne hav] at ha
      exact h.zero ha

end

end Shows

/-! ### The pages of a segment -/

theorem loadPage_shows (h : Shows role s p4 mapped view) (hpage : UserPage v) :
    Ends (loadPage p4 ph mapped v) s
      (fun r s' => (∃ role', Shows role' s' p4 r.2 view) ∧ r.2 v = some r.1 ∧ Extends mapped r.2 ∧
        s.frames.avail ≤ s'.frames.avail + 4)
      (fun _ _ => s.frames.avail < 4) := by
  unfold loadPage
  cases hv : mapped v with
  | some frame => exact ⟨⟨role, h⟩, hv, fun _ _ hw => hw, Nat.le_add_right _ _⟩
  | none =>
    refine ends_bind_of (allocateZeroed_ends _ s) ?_ ?_
    · intro frame s1 ht
      have h1 := h.alloc ht
      have ha1 := ht.avail
      refine ends_bind_of (mapPage_spec h1.toSpace h1.top hpage.low.userHalf frame) ?_ ?_
      · rintro _ s2 ⟨role2, hg, hm, ha2⟩
        refine ⟨⟨role2, h.map hpage hv ht hg hm (target_setAddress _ _)⟩, update_self .., ?_, by omega⟩
        intro w g hw
        grind
      · rintro _ s2 ⟨role2, -, hstop⟩
        rcases hstop with ha2 | hma
        · omega
        · exact absurd (h1.absent hpage hv) hma
    · rintro _ s1 ⟨-, hex⟩
      have := hex.avail
      omega

/-- The frames of the first pages of a segment. -/
def Backed (ph : Elf64ProgramHeader) (mapped : PageMap) (frames : List PhysAddr) : Prop :=
  ∀ j < frames.length, mapped (ph.page j) = frames[j]?

theorem Extends.trans {mapped' mapped'' : PageMap} (h : Extends mapped mapped') (h' : Extends mapped' mapped'') :
    Extends mapped mapped'' :=
  fun v frame hv => h' v frame (h v frame hv)

theorem Backed.concat {mapped' : PageMap} {frames : List PhysAddr} (h : Backed ph mapped frames)
    (hext : Extends mapped mapped') (hnew : mapped' (ph.page frames.length) = some frame) :
    Backed ph mapped' (frames ++ [frame]) := by
  intro j hj
  by_cases hlt : j < frames.length
  · have hj' := h j hlt
    rw [getElem?_append_left hlt]
    rw [List.getElem?_eq_getElem hlt] at hj' ⊢
    exact hext _ _ hj'
  · grind

theorem Elf64ProgramHeader.Fits.userPage (hf : ph.Fits img) (hz : ph.memsz ≠ 0) {j : Nat} (hj : j < ph.numPages) :
    UserPage (ph.page j) where
  aligned := by
    apply eq_of_toNat_eq
    rw [toNat_pageStart, hf.inUserSpace.toNat_page hz hj]
    omega
  below := hf.page_lt hz hj

theorem loadPages_shows (h : Shows role s p4 mapped view) (hf : ph.Fits img) (hz : ph.memsz ≠ 0) :
    Ends ((List.range ph.numPages).foldlM (fun (mapped, frames) i => do
        let (frame, mapped) ← loadPage p4 ph mapped (ph.page i)
        return (mapped, frames ++ [frame])) (mapped, ([] : List PhysAddr))) s
      (fun b s' => (∃ role', Shows role' s' p4 b.1 view) ∧ Extends mapped b.1 ∧ Backed ph b.1 b.2 ∧
        b.2.length = ph.numPages ∧ s.frames.avail ≤ s'.frames.avail + 4 * ph.numPages)
      (fun _ _ => s.frames.avail < 4 * ph.numPages) := by
  -- the invariant: the pages done so far have their frames
  refine Ends.imp (ends_foldlM_done (range ph.numPages)
    (fun done (b : PageMap × List PhysAddr) s' => (∃ role', Shows role' s' p4 b.1 view) ∧ Extends mapped b.1 ∧
      Backed ph b.1 b.2 ∧ b.2.length = done.length ∧ s.frames.avail ≤ s'.frames.avail + 4 * done.length) ?_ ?_) ?_
  · rintro done i rest ⟨mapped1, frames⟩ s1 hdone ⟨⟨role1, h1⟩, hext, hback, hlen, ha1⟩
    have hsum := congrArg length hdone
    rw [length_append, length_cons, length_range] at hsum
    have hi : i = done.length := by
      have hget : (done ++ i :: rest)[done.length]? = some i := by simp
      grind
    refine ends_bind_of (loadPage_shows h1 (hf.userPage hz (show i < ph.numPages by omega))) ?_ ?_
    · rintro ⟨frame, mapped2⟩ s2 ⟨h2, hfr, hext2, ha2⟩
      refine ⟨h2, hext.trans hext2, hback.concat hext2 ?_, ?_, ?_⟩
      · rw [hlen, ← hi]
        exact hfr
      · simpa using hlen
      · grind
    · intro _ s2 ha2
      omega
  · exact ⟨⟨role, h⟩, fun _ _ hv => hv, fun j hj => absurd hj (Nat.not_lt_zero j), rfl, Nat.le_add_right _ _⟩
  · simp [length_range]

/-! ### The bytes of a segment -/

theorem Elf64ProgramHeader.Fits.getData_eq (hf : ph.Fits img) : ph.getData img = .ok (some (ph.fileBytes img)) := by
  have hin := hf.inside
  have hlen := img.length_lt
  grind [getData, fileBytes, gt_iff_lt, lt_def, Nat.add_sub_cancel_left]

theorem storeByte_shows (h : Shows role s p4 mapped view) (hf : ph.Fits img) {frames : List PhysAddr}
    (hback : Backed ph mapped frames) (hlen : frames.length = ph.numPages) {i : Nat} (hi : i < ph.memsz.toNat)
    (byte : BitVec 8) :
    Ends (storeByte ph frames i byte) s
      (fun _ s' => Shows role s' p4 mapped (view.write8 (ph.vaddr + BitVec.ofNat 64 i) byte) ∧ s'.frames = s.frames)
      (fun _ _ => False) := by
  obtain ⟨hlt, hpage⟩ := hf.page_pageIdx hi
  have hget := hback (ph.pageIdx i) (by omega)
  rw [hpage] at hget
  have hfr : frames[ph.pageIdx i]? = some frames[ph.pageIdx i] := getElem?_eq_getElem (by omega)
  unfold storeByte
  dsimp only
  rw [show ((ph.vaddr + BitVec.ofNat 64 i &&& ~~~0xFFF) - ph.virtStart).toNat / pageSize = ph.pageIdx i from rfl, hfr]
  exact ⟨h.store (hget.trans hfr) byte, rfl⟩

theorem copyData_shows (h : Shows role s p4 mapped view) (hf : ph.Fits img) {frames : List PhysAddr}
    (hback : Backed ph mapped frames) (hlen : frames.length = ph.numPages) :
    Ends (copyData img ph frames) s
      (fun _ s' => Shows role s' p4 mapped (view.writeBytes ph.vaddr (ph.fileBytes img)) ∧ s'.frames = s.frames)
      (fun _ _ => False) := by
  have hby := hf.length_fileBytes
  have hle := hf.filesz_le
  unfold copyData
  rw [hf.getData_eq]
  refine ends_bind (ends_pure (ends_bind (ends_pure ?_)))
  -- the invariant: the bytes done so far are written
  refine Ends.imp (ends_forM_done (ph.fileBytes img).zipIdx
    (fun done s' => Shows role s' p4 mapped (view.writeBytes ph.vaddr (done.map Prod.fst)) ∧ s'.frames = s.frames) ?_ ?_)
    ?_
  · rintro done ⟨byte, i⟩ rest s1 hdone ⟨h1, hfr⟩
    have hget : (done ++ (byte, i) :: rest)[done.length]? = some (byte, i) := by simp
    rw [hdone, getElem?_zipIdx, Option.map_eq_some_iff] at hget
    obtain ⟨b, hb, hpair⟩ := hget
    obtain ⟨rfl, rfl⟩ := Prod.mk.inj hpair
    have hlt : done.length < (ph.fileBytes img).length := (List.getElem?_eq_some_iff.1 hb).1
    refine (storeByte_shows h1 hf hback hlen (show 0 + done.length < ph.memsz.toNat by omega) b).imp ?_
    rintro _ s2 ⟨h2, hfr2⟩
    refine ⟨?_, hfr2.trans hfr⟩
    rw [map_append, map_singleton, ByteMem.writeBytes_concat _ _ _ (by rw [length_map]; omega),
      length_map]
    rwa [Nat.zero_add] at h2
  · exact ⟨h, rfl⟩
  · simp [zipIdx_map_fst]

/-! ### The segments -/

theorem loadSegment_shows (h : Shows role s p4 mapped view) (hf : ph.Fits img) :
    Ends (loadSegment img p4 ph mapped) s
      (fun mapped' s' => (∃ role', Shows role' s' p4 mapped' (view.writeBytes ph.vaddr (ph.fileBytes img))) ∧
        Extends mapped mapped' ∧
        (∀ i < ph.memsz.toNat, mapped' (pageStart (ph.vaddr + BitVec.ofNat 64 i)) ≠ none) ∧
        s.frames.avail ≤ s'.frames.avail + 4 * ph.numPages)
      (fun _ _ => s.frames.avail < 4 * ph.numPages) := by
  unfold loadSegment
  by_cases hz : ph.memsz = 0
  · have hnone : ∀ i < ph.memsz.toNat, mapped (pageStart (ph.vaddr + BitVec.ofNat 64 i)) ≠ none := by
      simp [hz]
    rw [if_pos hz]
    refine ends_pure ⟨⟨role, ?_⟩, fun _ _ hv => hv, hnone, Nat.le_add_right _ _⟩
    rw [hf.fileBytes_eq_nil hz]
    exact h
  · rw [if_neg hz]
    refine Ends.bind (loadPages_shows h hf hz) ?_
    rintro ⟨mapped1, frames⟩ s1 ⟨⟨role1, h1⟩, hext, hback, hlen, ha1⟩
    have hp : ∀ i < ph.memsz.toNat, mapped1 (pageStart (ph.vaddr + BitVec.ofNat 64 i)) ≠ none := by
      intro i hi
      obtain ⟨hlt, hpage⟩ := hf.page_pageIdx hi
      have hget := hback (ph.pageIdx i) (by omega)
      simp_all
    have hcopy : Ends (if ph.filesz > 0 then copyData img ph frames else pure ⟨⟩) s1
        (fun _ s' => Shows role1 s' p4 mapped1 (view.writeBytes ph.vaddr (ph.fileBytes img)) ∧ s'.frames = s1.frames)
        (fun _ _ => False) := by
      by_cases hfile : ph.filesz > 0
      · rw [if_pos hfile]
        exact copyData_shows h1 hf hback hlen
      · have hnil : ph.fileBytes img = [] := by
          apply eq_nil_of_length_eq_zero
          simp_all [hf.length_fileBytes, gt_iff_lt, lt_def]
        rw [if_neg hfile, hnil]
        exact ends_pure ⟨h1, rfl⟩
    refine ends_bind_of hcopy ?_ fun _ _ hstop => hstop.elim
    rintro _ s2 ⟨h2, hfr⟩
    exact ⟨⟨role1, h2⟩, hext, hp, by rw [hfr]; exact ha1⟩

def pagesOf (segs : List Elf64ProgramHeader) : Nat := (segs.map Elf64ProgramHeader.numPages).sum

theorem loadSegments_shows (h : Shows role s p4 (fun _ => none) fun _ => 0) {headers : List Elf64ProgramHeader}
    (hfits : ∀ ph ∈ headers.filter (·.type = ptLoad), ph.Fits img) :
    Ends (loadSegments img p4 headers) s
      (fun _ s' => ∃ role' mapped, Shows role' s' p4 mapped (imageView img (headers.filter (·.type = ptLoad))) ∧
        (∀ ph ∈ headers.filter (·.type = ptLoad), ∀ i < ph.memsz.toNat,
          mapped (pageStart (ph.vaddr + BitVec.ofNat 64 i)) ≠ none) ∧
        s.frames.avail ≤ s'.frames.avail + 4 * pagesOf (headers.filter (·.type = ptLoad)))
      (fun _ _ => s.frames.avail < 4 * pagesOf (headers.filter (·.type = ptLoad))) := by
  -- the invariant: the segments done so far are loaded
  refine (ends_loadSegments (fun done mapped s' => (∃ role', Shows role' s' p4 mapped (imageView img done)) ∧
    (∀ ph ∈ done, ∀ i < ph.memsz.toNat, mapped (pageStart (ph.vaddr + BitVec.ofNat 64 i)) ≠ none) ∧
    s.frames.avail ≤ s'.frames.avail + 4 * pagesOf done) ?_ ⟨⟨role, h⟩, by simp, Nat.le_add_right _ _⟩).imp ?_
  · rintro done ph rest mapped1 s1 hdone ⟨⟨role1, h1⟩, hpages, ha1⟩
    have hsum : pagesOf (done ++ [ph]) = pagesOf done + ph.numPages := by
      simp [pagesOf]
    have hle : pagesOf (done ++ [ph]) ≤ pagesOf (headers.filter (·.type = ptLoad)) := by
      rw [← hdone]
      simp [pagesOf]
    refine (loadSegment_shows h1 (hfits ph (by rw [← hdone]; simp))).mono ?_ ?_
    · rintro mapped2 s2 ⟨⟨role2, h2⟩, hext, hnew, ha2⟩
      refine ⟨⟨role2, ?_⟩, ?_, by omega⟩
      · rw [imageView, foldl_append]
        exact h2
      · intro q hq i hi
        rcases mem_append.1 hq with hq | hq
        · obtain ⟨frame, hframe⟩ := Option.ne_none_iff_exists'.1 (hpages q hq i hi)
          exact Option.ne_none_iff_exists'.2 ⟨frame, hext _ _ hframe⟩
        · obtain rfl := mem_singleton.1 hq
          exact hnew i hi
    · intro _ s2 ha2
      omega
  · rintro _ s1 ⟨mapped1, ⟨role1, h1⟩, hpages, ha1⟩
    exact ⟨role1, mapped1, h1, hpages, ha1⟩

end AstralOS.Usermode
