import AstralOS.Memory.Heap
import AstralOS.Memory.PageMap

/-!
# Mapping the registers of a device

`map_mmio` maps a range of physical addresses at the direct map of the boot loader, page by page, and skips pages that are
mapped.  The first page is the one that holds the start of the range, but the number of pages is computed from the size alone,
so a range that crosses one page boundary more than its size needs loses its last page (`map_mmio_maps_iff`).
-/

namespace AstralOS.Memory

open Fallible BitVec Option

def mmioFlags : BitVec 64 :=
  PageTableEntry.present ||| PageTableEntry.writable ||| PageTableEntry.noCache ||| PageTableEntry.writeThrough |||
    PageTableEntry.noExecute

def mmioPages (size : BitVec 64) : Nat := ((size + BitVec.ofNat 64 pageSize - 1) / BitVec.ofNat 64 pageSize).toNat

def mmioPage (physAddr : BitVec 64) (i : Nat) : BitVec 64 := (physAddr &&& ~~~0xFFF) + BitVec.ofNat 64 (i * pageSize)

def mapMmioPage (hhdm : BitVec 64) (p4 : PhysAddr) (pagePhys : BitVec 64) : PhysM PUnit := do
  let s ← get
  if (translate s p4 (pagePhys + hhdm)).isSome then return
  map p4 (pagePhys + hhdm) (.new pagePhys) mmioFlags

def mapMmio (hhdm : BitVec 64) (p4 : PhysAddr) (physAddr size : BitVec 64) : PhysM PUnit :=
  forM (List.range (mmioPages size)) fun i => mapMmioPage hhdm p4 (mmioPage physAddr i)

variable {s s' : Phys} {p4 : PhysAddr} {hhdm : BitVec 64}

/-! ### The loop -/

def mmioFrame (hhdm : BitVec 64) (pages : List (BitVec 64)) (v : BitVec 64) : Option PhysAddr :=
  (pages.find? fun p => pageOf (p + hhdm) = pageOf v).map .new

theorem mapMmioPage_ends (h : PageTables (fun _ => True) s p4) (page : BitVec 64) :
    Ends (mapMmioPage hhdm p4 page) s
      (fun _ s' => PageTables (fun _ => True) s' p4 ∧ (∀ v, translate s' p4 v = (translate s p4 v).or (mmioFrame hhdm [page] v)) ∧
        s.frames.avail ≤ s'.frames.avail + 3)
      (fun e _ => e = .err "Out of memory" ∧ s.frames.avail < 3) := by
  refine ends_bind (ends_get ?_)
  cases ht : translate s p4 (page + hhdm) with
  | some p =>
    refine ⟨h, fun v => ?_, Nat.le_add_right _ _⟩
    by_cases hv : pageOf (page + hhdm) = pageOf v
    · rw [← translate_congr hv, ht, some_or]
    · simp [mmioFrame, hv]
  | none =>
    refine (h.map trivial (by decide) ht).mono ?_ fun _ _ he => he.2.2
    rintro _ s' ⟨hta, htr, ha, -⟩
    refine ⟨hta, fun v => ?_, ha⟩
    rw [htr v trivial]
    by_cases hv : pageOf (page + hhdm) = pageOf v
    · rw [if_pos hv.symm, ← translate_congr hv, ht]
      simp [mmioFrame, hv]
    · simp [Ne.symm hv, mmioFrame, hv]

theorem mapMmio_ends (h : PageTables (fun _ => True) s p4) (hhdm physAddr size : BitVec 64) :
    Ends (mapMmio hhdm p4 physAddr size) s
      (fun _ s' => PageTables (fun _ => True) s' p4 ∧ ∀ v, translate s' p4 v =
        (translate s p4 v).or (mmioFrame hhdm ((List.range (mmioPages size)).map (mmioPage physAddr)) v))
      (fun e _ => e = .err "Out of memory" ∧ s.frames.avail < 3 * mmioPages size) := by
  refine (ends_forM_done (List.range (mmioPages size)) (fun done s' => PageTables (fun _ => True) s' p4 ∧
    (∀ v, translate s' p4 v = (translate s p4 v).or (mmioFrame hhdm (done.map (mmioPage physAddr)) v)) ∧
    s.frames.avail ≤ s'.frames.avail + 3 * done.length) ?_ ?_).imp ?_
  · rintro done i rest s1 hdone ⟨hta, htr, ha⟩
    have hlen : done.length < mmioPages size := by
      grind [List.length_append, List.length_cons, List.length_range]
    refine (mapMmioPage_ends hta (mmioPage physAddr i)).mono ?_ ?_
    · rintro _ s2 ⟨hta', htr', ha'⟩
      refine ⟨hta', fun v => ?_, ?_⟩
      · simp [htr', htr, Option.or_assoc, List.map_append, mmioFrame, Option.map_or, List.map_cons,
          List.map_nil]
      · grind
    · grind
  · simp [List.map_nil, mmioFrame, map_none, or_none]
    omega
  · simp_all

/-! ### Page numbers -/

theorem mmioPages_eq (size : BitVec 64) : mmioPages size = (size.toNat + 4095) % 2 ^ 64 / 4096 := by
  have hsize : BitVec.ofNat 64 pageSize = 4096 := rfl
  simp [mmioPages, hsize, toNat_udiv, toNat_sub, toNat_add]
  omega

theorem mmioPage_div (a : BitVec 64) {i : Nat} (hi : i < 2 ^ 52) :
    (mmioPage a i).toNat / 4096 = (a.toNat / 4096 + i) % 2 ^ 52 := by
  have hs : (a &&& ~~~0xFFF).toNat = a.toNat / 4096 * 4096 := and_not_lowMask (k := 12) (by decide) a
  have hsize : pageSize = 4096 := rfl
  grind [mmioPage, toNat_add, toNat_ofNat]

theorem pageOf_add_eq_iff (hh : hhdm.toNat % 4096 = 0) (x y : BitVec 64) :
    pageOf (x + hhdm) = pageOf (y + hhdm) ↔ x.toNat / 4096 % 2 ^ 36 = y.toNat / 4096 % 2 ^ 36 := by
  simp [pageOf, toNat_add]
  omega

theorem PhysAddr.new_eq_new_iff (x y : BitVec 64) :
    PhysAddr.new x = .new y ↔ x.toNat / 4096 % 2 ^ 40 = y.toNat / 4096 % 2 ^ 40 := by
  have hsize : pageSize = 4096 := rfl
  have hf : ∀ z : BitVec 64, (PhysAddr.new z).frame = z.toNat / 4096 % 2 ^ 40 := by
    grind [PhysAddr.frame, PhysAddr.new_toNat]
  rw [← hf x, ← hf y]
  exact ⟨congrArg PhysAddr.frame, PhysAddr.eq_of_frame_eq⟩

theorem mmioFrame_eq_none_iff (a v : BitVec 64) (n : Nat) :
    mmioFrame hhdm ((List.range n).map (mmioPage a)) v = none ↔ ∀ i < n, pageOf (mmioPage a i + hhdm) ≠ pageOf v := by
  simp [mmioFrame]

theorem mmioFrame_eq_some {a v : BitVec 64} {n : Nat} {p : PhysAddr}
    (h : mmioFrame hhdm ((List.range n).map (mmioPage a)) v = some p) :
    ∃ i < n, pageOf (mmioPage a i + hhdm) = pageOf v ∧ p = .new (mmioPage a i) ∧
      ∀ j < i, pageOf (mmioPage a j + hhdm) ≠ pageOf v := by
  unfold mmioFrame at h
  rw [List.find?_map, map_map, map_eq_some_iff] at h
  obtain ⟨i, hi, hp⟩ := h
  rw [List.find?_range_eq_some] at hi
  grind

/-! ### The range -/

def InRange (a size b : BitVec 64) : Prop := a.toNat ≤ b.toNat ∧ b.toNat < a.toNat + size.toNat

/-- What a call that returns `Ok` is to achieve: every byte of the range is mapped, to its own physical page if it was not
mapped before, and the pages outside the range are as they were. -/
structure MmioMapped (hhdm : BitVec 64) (p4 : PhysAddr) (a size : BitVec 64) (s s' : Phys) : Prop where
  covered : ∀ b, InRange a size b → translate s' p4 (b + hhdm) ≠ none
  own : ∀ b, InRange a size b → translate s p4 (b + hhdm) = none → translate s' p4 (b + hhdm) = some (.new b)
  outside : ∀ v, (∀ b, InRange a size b → pageOf (b + hhdm) ≠ pageOf v) → translate s' p4 v = translate s p4 v

/-- When it does.  The pages of the range that are not mapped are among those visited; no two of them have the same place in
the direct map, which takes a range of 256 TiB; and pages visited past the end of the address space are mapped already or
share the place of a page of the range. -/
structure MmioFits (hhdm : BitVec 64) (p4 : PhysAddr) (a size : BitVec 64) (s : Phys) : Prop where
  reached : ∀ b, InRange a size b → translate s p4 (b + hhdm) = none →
    b.toNat / 4096 < a.toNat / 4096 + mmioPages size
  alone : ∀ b c, InRange a size b → InRange a size c → translate s p4 (b + hhdm) = none →
    pageOf (b + hhdm) = pageOf (c + hhdm) → b.toNat / 4096 = c.toNat / 4096
  inside : ∀ i < mmioPages size, 2 ^ 52 ≤ a.toNat / 4096 + i → translate s p4 (mmioPage a i + hhdm) = none →
    ∃ b, InRange a size b ∧ pageOf (b + hhdm) = pageOf (mmioPage a i + hhdm)

variable {a size : BitVec 64}

theorem exists_inRange {k : Nat} (hk : k < 2 ^ 52) (hf : a.toNat / 4096 ≤ k)
    (hlast : k * 4096 < a.toNat + size.toNat) (hsize : 0 < size.toNat) : ∃ b, InRange a size b ∧ b.toNat / 4096 = k := by
  refine ⟨BitVec.ofNat 64 (max a.toNat (k * 4096)), ?_⟩
  unfold InRange
  rw [toNat_ofNat]
  omega

theorem exists_inRange_page {i : Nat} (hi : i < mmioPages size) (hend : a.toNat / 4096 + i < 2 ^ 52) :
    ∃ b, InRange a size b ∧ b.toNat / 4096 = a.toNat / 4096 + i := by
  rw [mmioPages_eq] at hi
  exact exists_inRange hend (by omega) (by omega) (by omega)

theorem mmioPages_lt (size : BitVec 64) : mmioPages size < 2 ^ 52 := by
  rw [mmioPages_eq]
  omega

section

variable (hh : hhdm.toNat % 4096 = 0)
  (hview : ∀ v, translate s' p4 v =
    (translate s p4 v).or (mmioFrame hhdm ((List.range (mmioPages size)).map (mmioPage a)) v))

include hh

/-- Two pages of the range at one place, not mapped before, would both be their own physical page: then they are so far apart
that another page of the range lies between them, at the same place. -/
theorem MmioMapped.not_lt (h : MmioMapped hhdm p4 a size s s') {b c : BitVec 64} (hb : InRange a size b)
    (hc : InRange a size c) (hnone : translate s p4 (b + hhdm) = none) (hpage : pageOf (b + hhdm) = pageOf (c + hhdm)) :
    ¬b.toNat / 4096 < c.toNat / 4096 := by
  intro hlt
  have heq : ∀ d, InRange a size d → pageOf (b + hhdm) = pageOf (d + hhdm) →
      b.toNat / 4096 % 2 ^ 40 = d.toNat / 4096 % 2 ^ 40 := by
    intro d hd hbd
    have hown := h.own d hd (by rwa [← translate_congr hbd])
    rw [← translate_congr hbd, h.own b hb hnone, some.injEq, PhysAddr.new_eq_new_iff] at hown
    exact hown
  have hbc := heq c hc hpage
  have hcs := c.isLt
  obtain ⟨d, hd, hdk⟩ : ∃ d, InRange a size d ∧ d.toNat / 4096 = b.toNat / 4096 + 2 ^ 36 := by
    have hb1 := hb.1
    have hb2 := hb.2
    have hc2 := hc.2
    exact exists_inRange (by omega) (by omega) (by omega) (by omega)
  have hbd := heq d hd (by rw [pageOf_add_eq_iff hh]; omega)
  omega

include hview

theorem MmioMapped.fits (h : MmioMapped hhdm p4 a size s s') : MmioFits hhdm p4 a size s := by
  have ha : ∀ b c, InRange a size b → InRange a size c → translate s p4 (b + hhdm) = none →
      pageOf (b + hhdm) = pageOf (c + hhdm) → b.toNat / 4096 = c.toNat / 4096 := by
    intro b c hb hc hnone hpage
    have h1 := h.not_lt hh hb hc hnone hpage
    have h2 := h.not_lt hh hc hb (by rwa [← translate_congr hpage]) hpage.symm
    omega
  refine ⟨?_, ha, ?_⟩
  · intro b hb hnone
    have hown := h.own b hb hnone
    rw [hview, hnone, none_or] at hown
    obtain ⟨i, hi, hpage, -, -⟩ := mmioFrame_eq_some hown
    by_contra hlt
    -- the page visited at the place of `b` is another page of the range
    obtain ⟨c, hc, hck⟩ := exists_inRange_page (a := a) hi (by omega)
    have hp : pageOf (b + hhdm) = pageOf (c + hhdm) := by
      rw [← hpage, pageOf_add_eq_iff hh, mmioPage_div a (Nat.lt_trans hi (mmioPages_lt size)), hck]
      omega
    grind
  · intro i hi _ hnone
    by_contra hno
    have hout := h.outside (mmioPage a i + hhdm) fun b hb hpage => hno ⟨b, hb, hpage⟩
    grind [mmioFrame_eq_none_iff]

theorem MmioFits.mapped (h : MmioFits hhdm p4 a size s) : MmioMapped hhdm p4 a size s s' := by
  have hown : ∀ b, InRange a size b → translate s p4 (b + hhdm) = none → translate s' p4 (b + hhdm) = some (.new b) := by
    intro b hb hnone
    have hr := h.reached b hb hnone
    have hfi := hb.1
    rw [hview, hnone, none_or]
    -- the page of `b` is visited, and no page visited before it is at its place
    have hv : pageOf (mmioPage a (b.toNat / 4096 - a.toNat / 4096) + hhdm) = pageOf (b + hhdm) := by
      rw [pageOf_add_eq_iff hh, mmioPage_div a (by omega)]
      omega
    cases hfr : mmioFrame hhdm ((List.range (mmioPages size)).map (mmioPage a)) (b + hhdm) with
    | none => exact absurd hv ((mmioFrame_eq_none_iff a (b + hhdm) _).1 hfr _ (by omega))
    | some p =>
      obtain ⟨i, hi, hpage, rfl, hbe⟩ := mmioFrame_eq_some hfr
      have hle : i ≤ b.toNat / 4096 - a.toNat / 4096 := Nat.le_of_not_lt fun hlt => hbe _ hlt hv
      obtain ⟨c, hc, hck⟩ := exists_inRange_page (a := a) hi (by omega)
      have hi52 := Nat.lt_trans hi (mmioPages_lt size)
      have hp : pageOf (b + hhdm) = pageOf (c + hhdm) := by
        rw [← hpage, pageOf_add_eq_iff hh, mmioPage_div a hi52, hck]
        omega
      have := h.alone b c hb hc hnone hp
      rw [some.injEq, PhysAddr.new_eq_new_iff, mmioPage_div a hi52]
      omega
  refine ⟨fun b hb => ?_, hown, fun v hout => ?_⟩
  · grind
  · cases hnone : translate s p4 v with
    | some p => rw [hview, hnone, some_or]
    | none =>
      rw [hview, hnone, none_or, mmioFrame_eq_none_iff]
      intro i hi hpage
      by_cases hend : a.toNat / 4096 + i < 2 ^ 52
      · obtain ⟨b, hb, hbk⟩ := exists_inRange_page (a := a) hi hend
        refine hout b hb (Eq.trans ?_ hpage)
        rw [pageOf_add_eq_iff hh, mmioPage_div a (Nat.lt_trans hi (mmioPages_lt size)), hbk]
        omega
      · obtain ⟨b, hb, hbp⟩ := h.inside i hi (Nat.le_of_not_lt hend) (by rw [translate_congr hpage, hnone])
        exact hout b hb (hbp.trans hpage)

end

/-- A call that returns `Ok` has mapped the range exactly if `MmioFits`: for a range that ends below 256 TiB, if its last page is
one of those counted from the size, or was mapped. -/
theorem map_mmio_maps_iff (hhdm : BitVec 64) (hh : hhdm.toNat % 4096 = 0) (p4 : PhysAddr) (s s' : Phys) (h : PageTables (fun _ => True) s p4)
    (a size : BitVec 64) (hok : (mapMmio hhdm p4 a size).exec s = (.ok ⟨⟩, s')) :
    MmioMapped hhdm p4 a size s s' ↔ MmioFits hhdm p4 a size s := by
  obtain ⟨-, hview⟩ := (mapMmio_ends h hhdm a size).ok hok
  exact ⟨fun hm => hm.fits hh hview, fun hf => hf.mapped hh hview⟩

theorem exists_mapMmio (h : PageTables (fun _ => True) s p4) (hhdm a size : BitVec 64)
    (ha : 3 * mmioPages size ≤ s.frames.avail) : ∃ s', (mapMmio hhdm p4 a size).exec s = (.ok ⟨⟩, s') := by
  have hends : Ends (mapMmio hhdm p4 a size) s (fun _ _ => True) fun _ _ => False :=
    (mapMmio_ends h hhdm a size).mono (fun _ _ _ => trivial) fun _ _ he => absurd he.2 (by omega)
  obtain ⟨_, s', hok, -⟩ := hends.exists_ok
  exact ⟨s', hok⟩

theorem pages_page : mmioPages 0x1000 = 1 := by decide

/-- A range of one page that starts on a page boundary is mapped. -/
theorem map_mmio_maps_page :
    ∃ (s s' : Phys) (p4 : PhysAddr), PageTables (fun _ => True) s p4 ∧ (mapMmio 0 p4 0x1000 0x1000).exec s = (.ok ⟨⟩, s') ∧
      MmioMapped 0 p4 0x1000 0x1000 s s' := by
  obtain ⟨s, p4, ht, -, ha⟩ := Mapping.exists_newTables
  have hm : maxFrames = 1024 * 1024 := rfl
  obtain ⟨s', hok⟩ := exists_mapMmio ht 0 0x1000 0x1000 (by rw [pages_page]; omega)
  have hf : (0x1000 : BitVec 64).toNat = 4096 := rfl
  have hr : ∀ b, InRange 0x1000 0x1000 b → b.toNat / 4096 = 1 := by
    intro b hb
    have := hb.1
    have := hb.2
    omega
  refine ⟨s, s', p4, ht, hok, (map_mmio_maps_iff 0 (by decide) p4 s s' ht 0x1000 0x1000 hok).2 ⟨?_, ?_, ?_⟩⟩
  · grind [pages_page]
  · grind
  · grind [pages_page]

/-- The same number of bytes from the middle of a page: of the two pages only the first is mapped. -/
theorem map_mmio_misses_page :
    ¬ ∀ (hhdm : BitVec 64) (p4 : PhysAddr) (s s' : Phys) (a size : BitVec 64), hhdm.toNat % 4096 = 0 → PageTables (fun _ => True) s p4 →
      (mapMmio hhdm p4 a size).exec s = (.ok ⟨⟩, s') → MmioMapped hhdm p4 a size s s' := by
  intro hall
  obtain ⟨s, p4, ht, hnone, ha⟩ := Mapping.exists_newTables
  have hm : maxFrames = 1024 * 1024 := rfl
  obtain ⟨s', hok⟩ := exists_mapMmio ht 0 0x1800 0x1000 (by rw [pages_page]; omega)
  have hview := ((mapMmio_ends ht 0 0x1800 0x1000).ok hok).2
  have hfits := (hall 0 p4 s s' 0x1800 0x1000 (by decide) ht hok).fits (by decide) hview
  have hr := hfits.reached 0x2000 (by unfold InRange; decide) (hnone _)
  revert hr
  decide

end AstralOS.Memory
