import AstralOS.Memory.PageSpace
import AstralOS.Usermode.Spawn

/-!
# Loading a program

What `spawn_user_process` does to memory, for every outcome.  The frames it takes are labelled as it goes: the tables it
makes by their place, the others as data.  `createUserAddressSpace_spec` is about the new top table and the stack,
`loadSegments_spec` about the segments, and `loadProgram_spec` about the whole: if every page lies below an entry of the
top table that is not shared with the kernel, only labelled frames are written, and these were free.
-/

namespace AstralOS.Usermode

open Function Memory
open X86 (Role Tree lookup frameOf indices)
open PageTableEntry (setAddress)
open Fallible

variable {dom : Fin 512 → Prop} {role pre : Nat → Option Role} {s s' : Phys} {p4 current : PhysAddr}

/-! ### The top table -/

theorem mem_kernelHalf (i : Fin 512) : i ∈ kernelHalf ↔ 256 ≤ i.val := by
  unfold kernelHalf
  rw [List.mem_iff_getElem]
  constructor
  · rintro ⟨k, hk, rfl⟩
    simp
  · intro h
    refine ⟨i.val - 256, by simp; omega, ?_⟩
    apply Fin.ext
    simp
    omega

theorem p4Index_stackPage {i : Nat} (hi : i < userStackPages) : p4Index (stackPage i) = 255 := by
  have : ∀ j : Fin userStackPages, p4Index (stackPage j) = 255 := by decide +kernel
  exact this ⟨i, hi⟩

theorem stackPage_inj {i j : Nat} (hi : i < userStackPages) (hj : j < userStackPages)
    (h : indices (stackPage i) 3 = indices (stackPage j) 3) : i = j := by
  have : ∀ a b : Fin userStackPages, indices (stackPage a) 3 = indices (stackPage b) 3 → a = b := by decide +kernel
  exact congrArg Fin.val (this ⟨i, hi⟩ ⟨j, hj⟩ h)

theorem allocateStackPage_spec (h : Space dom role s) (hp4 : role p4.frame = some (.table [])) (hd : dom 255) {i : Nat}
    (hi : i < userStackPages) :
    Ends (allocateStackPage p4 i) s
      (fun _ s' => ∃ role' e, Grown dom role s role' s' ∧ Mapped dom role s s' (stackPage i) e ∧
        s.frames.avail ≤ s'.frames.avail + 4)
      (fun _ s' => ∃ role', Grown dom role s role' s' ∧
        (s.frames.avail < 4 ∨ lookup s.mem p4.frame (indices (stackPage i) 3) ≠ none)) := by
  have hd' : dom (p4Index (stackPage i)) := by
    rw [p4Index_stackPage hi]
    exact hd
  refine ends_bind_of (allocateZeroed_spec h _) ?_ ?_
  · rintro frame s1 ⟨role1, hg1, hv1, -, ha1⟩
    refine (map_spec hg1.toSpace (hg1.le hp4) hd' (by decide)).mono ?_ ?_
    · rintro _ s2 ⟨role2, hg2, hm, ha2⟩
      exact ⟨role2, _, hg1.trans hg2, hv1.mapped hg1 hm, by omega⟩
    · rintro e s2 ⟨role2, hg2, -, he⟩
      refine ⟨role2, hg1.trans hg2, ?_⟩
      rcases he with ⟨-, ha2⟩ | ⟨-, hma⟩
      · exact Or.inl (by omega)
      · rw [hv1 hp4 (X86.length_indices _ _) (by rw [indices_eq]; simpa using hd')] at hma
        exact Or.inr hma
  · rintro e s1 ⟨-, hg1, -, ha1⟩
    exact ⟨role, hg1, Or.inl (by omega)⟩

theorem allocateUserStack_spec (h : Space dom role s) (hp4 : role p4.frame = some (.table [])) (hd : dom 255) :
    Ends (allocateUserStack p4) s
      (fun _ s' => ∃ role', Grown dom role s role' s' ∧ s.frames.avail ≤ s'.frames.avail + 64 ∧
        ∀ is : List (Fin 512), is.length = 4 → (∀ i ∈ is.head?, dom i) →
          (∀ i < userStackPages, is ≠ indices (stackPage i) 3) → lookup s'.mem p4.frame is = lookup s.mem p4.frame is)
      (fun _ s' => ∃ role', Grown dom role s role' s' ∧
        (s.frames.avail < 64 ∨ ∃ i < userStackPages, lookup s.mem p4.frame (indices (stackPage i) 3) ≠ none)) := by
  have hp : userStackPages = 16 := by decide
  -- the invariant: the pages that are done are mapped, the others as they were
  refine Ends.bind (ends_forM_done (List.range userStackPages)
    (fun done s' => ∃ role', Grown dom role s role' s' ∧
      s.frames.avail ≤ s'.frames.avail + 4 * done.length ∧
      ∀ is : List (Fin 512), is.length = 4 → (∀ i ∈ is.head?, dom i) → (∀ i ∈ done, is ≠ indices (stackPage i) 3) →
        lookup s'.mem p4.frame is = lookup s.mem p4.frame is) ?_ ?_) ?_
  · rintro done x xs s1 hdone ⟨role1, hg1, ha1, hv1⟩
    have hlen := congrArg List.length hdone
    rw [List.length_append, List.length_cons, List.length_range] at hlen
    have hlt : ∀ i ∈ done ++ x :: xs, i < userStackPages := by
      intro i hi
      rw [hdone] at hi
      exact List.mem_range.1 hi
    have hx := hlt x (by simp)
    have hnew : ∀ i ∈ done, indices (stackPage x) 3 ≠ indices (stackPage i) 3 := by
      intro i hi heq
      have hxi := stackPage_inj hx (hlt i (by simp [hi])) heq
      have hn : (done ++ x :: xs).Nodup := by
        rw [hdone]
        exact List.nodup_range
      exact (List.nodup_append.1 hn).2.2 i hi x (by simp) hxi.symm
    refine (allocateStackPage_spec hg1.toSpace (hg1.le hp4) hd hx).mono ?_ ?_
    · rintro _ s2 ⟨role2, e, hg2, hm, ha2⟩
      refine ⟨role2, hg1.trans hg2, ?_, ?_⟩
      · rw [List.length_append, List.length_singleton]
        omega
      · intro is hlen' hhead hne
        rw [hm (hg1.le hp4) hlen' hhead, if_neg (hne x (by simp)), hv1 is hlen' hhead fun i hi => hne i (by simp [hi])]
    · rintro e s2 ⟨role2, hg2, he⟩
      refine ⟨role2, hg1.trans hg2, ?_⟩
      rcases he with ha2 | hma
      · exact Or.inl (by omega)
      · rw [hv1 _ (X86.length_indices _ _) ?_ hnew] at hma
        · exact Or.inr ⟨x, hx, hma⟩
        · rw [indices_eq, p4Index_stackPage hx]
          simpa using hd
  · exact ⟨role, Grown.refl h, by omega, fun _ _ _ _ => rfl⟩
  · rintro _ s1 ⟨role1, hg1, ha1, hv1⟩
    refine ⟨role1, hg1, ?_, ?_⟩
    · exact ha1
    · intro is hlen hhead hne
      exact hv1 is hlen hhead fun i hi => hne i (List.mem_range.1 hi)

/-! ### The new address space -/

variable {ph : Elf64ProgramHeader} {mapped : PageMap}

/-- The frames of the pages loaded so far are labelled as data. -/
def MapOk (role : Nat → Option Role) (mapped : PageMap) : Prop :=
  ∀ v frame, mapped v = some frame → role frame.frame = some .data

theorem MapOk.grown {role' : Nat → Option Role} (hm : MapOk role mapped) (hg : Grown dom role s role' s') :
    MapOk role' mapped := by
  intro v frame hv
  exact hg.le (hm v frame hv)

theorem MapOk.insert (hm : MapOk role mapped) {v : BitVec 64} {frame : PhysAddr} (hf : role frame.frame = some .data) :
    MapOk role (update mapped v (some frame)) := by
  intro w frame' hw
  rcases X86.update_eq_some_iff.1 hw with ⟨-, rfl⟩ | ⟨-, hw'⟩
  · exact hf
  · exact hm w frame' hw'

theorem present_pageFlags (ph : Elf64ProgramHeader) : ph.pageFlags.getLsbD 0 = true := by
  unfold Elf64ProgramHeader.pageFlags
  cases ph.isWritable <;> cases ph.isExecutable <;> decide

/-- The flags with which a page of a segment is mapped: `map_executable` takes NO_EXECUTE away. -/
def Elf64ProgramHeader.entryFlags (ph : Elf64ProgramHeader) : BitVec 64 :=
  if ph.isExecutable then ph.pageFlags &&& ~~~PageTableEntry.noExecute else ph.pageFlags

section

variable (h : Space dom role s)
include h

theorem mapPage_spec (hp4 : role p4.frame = some (.table [])) {v : BitVec 64}
    (hd : dom (p4Index v)) (frame : PhysAddr) :
    Ends (if ph.isExecutable then mapExecutable p4 v frame ph.pageFlags else map p4 v frame ph.pageFlags) s
      (fun _ s' => ∃ role', Grown dom role s role' s' ∧ Mapped dom role s s' v (setAddress frame.addr ph.entryFlags) ∧
        s.frames.avail ≤ s'.frames.avail + 3)
      (fun _ s' => ∃ role', Grown dom role s role' s' ∧
        (s.frames.avail < 3 ∨ lookup s.mem p4.frame (indices v 3) ≠ none)) := by
  unfold Elf64ProgramHeader.entryFlags
  by_cases hx : ph.isExecutable = true
  · rw [if_pos hx, if_pos hx]
    refine (mapExecutable_spec h hp4 hd (present_pageFlags ph)).mono ?_ ?_
    · rintro _ s' ⟨role', hg, hm, ha⟩
      exact ⟨role', hg, hm, ha⟩
    · rintro _ s' ⟨role', hg, -, -, ha⟩
      exact ⟨role', hg, Or.inl ha⟩
  · rw [if_neg hx, if_neg hx]
    refine (map_spec h hp4 hd (present_pageFlags ph)).mono ?_ ?_
    · rintro _ s' ⟨role', hg, hm, ha⟩
      exact ⟨role', hg, hm, ha⟩
    · rintro _ s' ⟨role', hg, -, he⟩
      refine ⟨role', hg, ?_⟩
      rcases he with ⟨-, ha⟩ | ⟨-, hma⟩
      · exact Or.inl ha
      · exact Or.inr hma

theorem loadPage_spec (hp4 : role p4.frame = some (.table [])) {v : BitVec 64}
    (hd : dom (p4Index v)) (hm : MapOk role mapped) :
    Ends (loadPage p4 ph mapped v) s
      (fun r s' => ∃ role', Grown dom role s role' s' ∧ role' r.1.frame = some .data ∧ MapOk role' r.2 ∧
        (mapped v = some r.1 ∧ r.2 = mapped ∧ s' = s ∨ mapped v = none ∧ r.2 = update mapped v (some r.1) ∧
          Mapped dom role s s' v (setAddress r.1.addr ph.entryFlags)))
      (fun _ s' => ∃ role', Grown dom role s role' s' ∧
        (s.frames.avail < 4 ∨ lookup s.mem p4.frame (indices v 3) ≠ none)) := by
  unfold loadPage
  cases hv : mapped v with
  | some frame => exact ⟨role, Grown.refl h, hm v frame hv, hm, Or.inl ⟨rfl, rfl, rfl⟩⟩
  | none =>
    refine ends_bind_of (allocateZeroed_spec h _) ?_ ?_
    · rintro frame s1 ⟨role1, hg1, hv1, hdata, ha1⟩
      refine ends_bind_of (mapPage_spec hg1.toSpace (hg1.le hp4) hd frame) ?_ ?_
      · rintro _ s2 ⟨role2, hg2, hm2, -⟩
        exact ⟨role2, hg1.trans hg2, hg2.le hdata, (hm.grown (hg1.trans hg2)).insert (hg2.le hdata),
          Or.inr ⟨rfl, rfl, hv1.mapped hg1 hm2⟩⟩
      · rintro _ s2 ⟨role2, hg2, he⟩
        refine ⟨role2, hg1.trans hg2, ?_⟩
        rcases he with ha2 | hma
        · exact Or.inl (by omega)
        · rw [hv1 hp4 (X86.length_indices _ _) (by rw [indices_eq]; simpa using hd)] at hma
          exact Or.inr hma
    · rintro _ s1 ⟨-, hg1, -, ha1⟩
      exact ⟨role, hg1, Or.inl (by omega)⟩

theorem Space.grown_write8 {frame : PhysAddr} (hf : role frame.frame = some .data)
    (virt : BitVec 64) (byte : BitVec 8) :
    Grown dom role s role { s with mem := s.mem.write8 (frame.addr + pageOffset virt) byte } ∧
      SameView dom role s { s with mem := s.mem.write8 (frame.addr + pageOffset virt) byte } := by
  have hsame : ∀ a, frameOf a ≠ frame.frame → s.mem.write8 (frame.addr + pageOffset virt) byte a = s.mem a := by
    intro a ha
    refine if_neg ?_
    rintro rfl
    exact ha (frame.frameOf_add_pageOffset virt)
  have hen : ∀ {f π} (i : Fin 512), role f = some (.table π) →
      X86.entry (s.mem.write8 (frame.addr + pageOffset virt) byte) f i = X86.entry s.mem f i := by
    intro f π i hr
    have hne : f ≠ frame.frame := by
      rintro rfl
      rw [hf] at hr
      cases hr
    exact X86.entry_congr (h.tree.lt hr) (fun a ha => hsame a (by rw [ha]; exact hne)) i
  have hl : Tree.SameLinks role s.mem (s.mem.write8 (frame.addr + pageOffset virt) byte) := by
    intro f π i hr _
    rw [hen i hr]
    exact ⟨rfl, rfl, id⟩
  refine ⟨h.grown_write hl fun a ha => hsame a fun hap => ?_, ?_⟩
  · rw [hap, hf] at ha
    cases ha
  · intro t is htop hlen hd
    exact h.tree.lookup_congr hl htop (by simpa using hlen) (fun _ => hd) fun f ρ i hr _ _ => hen i hr

theorem copyData_spec (img : Image) {frames : List PhysAddr}
    (hf : ∀ frame ∈ frames, role frame.frame = some .data) :
    Ends (copyData img ph frames) s (fun _ s' => Grown dom role s role s' ∧ SameView dom role s s')
      (fun _ s' => Grown dom role s role s') := by
  have hs : ∀ {s1 : Phys} (x : BitVec 8 × Nat), Grown dom role s role s1 ∧ SameView dom role s s1 →
      Ends (storeByte ph frames x.2 x.1) s1 (fun _ s' => Grown dom role s role s' ∧ SameView dom role s s')
        (fun _ s' => Grown dom role s role s') := by
    rintro s1 x ⟨hg1, hv1⟩
    unfold storeByte
    dsimp only
    cases hget : frames[((ph.vaddr + BitVec.ofNat 64 x.2 &&& ~~~0xFFF) - ph.virtStart).toNat / pageSize]? with
    | none => exact ⟨hg1, hv1⟩
    | some frame =>
      obtain ⟨hg2, hv2⟩ := Space.grown_write8 hg1.toSpace (hf frame (List.mem_of_getElem? hget))
        (ph.vaddr + BitVec.ofNat 64 x.2) x.1
      exact ⟨hg1.trans hg2, hv1.trans hg1 hv2⟩
  unfold copyData
  cases hdata : ph.getData img with
  | error e => exact Grown.refl h
  | ok data =>
    cases data with
    | none => exact Grown.refl h
    | some data =>
      exact ends_forM data.zipIdx (fun _ s' => Grown dom role s role s' ∧ SameView dom role s s')
        (fun x _ _ hg1 => hs x hg1) ⟨Grown.refl h, fun _ _ _ => rfl⟩

end

theorem ends_loadSegments {img : Image} {headers : List Elf64ProgramHeader} {E : Stop → Phys → Prop}
    (I : List Elf64ProgramHeader → PageMap → Phys → Prop)
    (hstep : ∀ done ph rest mapped s, done ++ ph :: rest = headers.filter (·.type = ptLoad) → I done mapped s →
      Ends (loadSegment img p4 ph mapped) s (I (done ++ [ph])) E) (h : I [] (fun _ => none) s) :
    Ends (loadSegments img p4 headers) s (fun _ s' => ∃ mapped, I (headers.filter (·.type = ptLoad)) mapped s') E := by
  refine Ends.bind (ends_foldlM_done headers
    (fun done (b : PageMap × BitVec 64) s' => I (done.filter (·.type = ptLoad)) b.1 s') ?_ h) fun b _ hb => ⟨b.1, hb⟩
  rintro done ph rest ⟨mapped, highest⟩ s1 rfl h1
  dsimp only at h1 ⊢
  rw [List.filter_append]
  by_cases htype : ph.type = ptLoad
  · rw [if_pos htype, List.filter_cons_of_pos (by simpa using htype)]
    refine (hstep _ ph (rest.filter (·.type = ptLoad)) mapped s1 ?_ h1).bind fun _ _ h2 => h2
    simp [htype]
  · rw [if_neg htype, List.filter_cons_of_neg (by simpa using htype), List.filter_nil, List.append_nil]
    exact h1

theorem allocateKernelStack_spec (h : Space dom role s) (hhdm : BitVec 64) :
    Ends (allocateKernelStack hhdm) s (fun _ s' => ∃ role', Grown dom role s role' s' ∧ SameView dom role s s')
      (fun _ s' => ∃ role', Grown dom role s role' s' ∧ SameView dom role s s') := by
  have hone : ∀ {role1 s1}, Grown dom role s role1 s1 → SameView dom role s s1 → ∀ msg,
      Ends (allocateZeroed msg) s1 (fun _ s' => ∃ role', Grown dom role s role' s' ∧ SameView dom role s s')
        (fun _ s' => ∃ role', Grown dom role s role' s' ∧ SameView dom role s s') := by
    intro role1 s1 hg1 hv1 msg
    refine (allocateZeroed_spec hg1.toSpace msg).mono ?_ ?_
    · rintro _ s2 ⟨role2, hg2, hv2, -⟩
      exact ⟨role2, hg1.trans hg2, hv1.trans hg1 hv2⟩
    · rintro _ s2 ⟨-, hg2, hv2, -⟩
      exact ⟨role1, hg1.trans hg2, hv1.trans hg1 hv2⟩
  refine Ends.bind (hone (Grown.refl h) (fun _ _ _ => rfl) _) ?_
  rintro base s1 h1
  refine Ends.bind (ends_forM (List.range' 1 (kernelStackSize / pageSize - 1))
    (fun _ s' => ∃ role', Grown dom role s role' s' ∧ SameView dom role s s') ?_ h1) (fun _ _ h => h)
  rintro _ _ s2 ⟨role2, hg2, hv2⟩
  exact Ends.bind (hone hg2 hv2 _) (fun _ _ h => h)

end AstralOS.Usermode
