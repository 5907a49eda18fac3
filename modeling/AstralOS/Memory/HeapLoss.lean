import AstralOS.Memory.HeapRuns

/-!
# Bytes the kernel heap loses

An allocation drops the padding before the block it hands out, and what is left behind it if that is no larger than
a header.  Such a byte is neither free nor held afterwards, and no later call brings it back (`accounted_exec`).  So a run that
ends with no held block ends with the free list it started with exactly if none of its allocations dropped a byte
(`heap_restored_iff`).
-/

namespace AstralOS.Memory

open FreeList (Sorted Fits Covered Tight)

theorem Seg.unique {m : ByteMem} {p : BitVec 64} {bs cs : List Block} (hb : Seg m p bs 0) (hc : Seg m p cs 0)
    (hbin : ∀ b ∈ bs, InHeap b) (hcin : ∀ c ∈ cs, InHeap c) : bs = cs := by
  induction bs generalizing p cs with
  | nil =>
    cases cs with
    | nil => rfl
    | cons c cs =>
      have hp : p = 0 := hb
      have hpos := (hcin c (by simp)).bounds.1
      rw [← hc.1, hp] at hpos
      exact absurd hpos (by decide)
  | cons b bs ih =>
    cases cs with
    | nil =>
      have hp : p = 0 := hc
      have hpos := (hbin b (by simp)).bounds.1
      rw [← hb.1, hp] at hpos
      exact absurd hpos (by decide)
    | cons c cs =>
      have hhead : b = c := by
        cases b
        cases c
        rw [Block.mk.injEq]
        exact ⟨hb.1.symm.trans hc.1, hb.2.1.symm.trans hc.2.1⟩
      have htail := ih hb.2.2 hc.2.2 (fun b hb => hbin b (by simp [hb])) (fun c hc => hcin c (by simp [hc]))
      rw [hhead, htail]

namespace HeapState

/-- The free list in memory is the list of blocks `bs` of the heap. -/
def FreeBlocks (s : HeapState) (bs : List Block) : Prop :=
  Seg s.heap.mem s.heap.freeList bs 0 ∧ ∀ b ∈ bs, InHeap b

/-- The free list is the one block `init` makes of the heap. -/
def Restored (s : HeapState) : Prop := s.FreeBlocks [⟨heapStart, kernelHeapSize⟩]

/-- If the call is an allocation, the first free block that holds the request starts at an aligned address, and the
block handed out uses it up or leaves more than a header of it. -/
def Lossless (s : HeapState) : HeapCall → Prop
  | .alloc layout => ∃ bs, s.FreeBlocks bs ∧ Tight layout.align.toNat layout.blockBytes headerSize bs
  | _ => True

def Accounted (bs : List Block) (s : HeapState) (x : Nat) : Prop := Covered bs x ∨ ∃ l ∈ s.live, x ∈ liveBlock l

variable {s : HeapState} {bs : List Block}

theorem Inv.freeBlocks (h : Inv bs s) : s.FreeBlocks bs := ⟨h.seg, h.arranged.inHeap⟩

theorem FreeBlocks.unique {cs : List Block} (hb : s.FreeBlocks bs) (hc : s.FreeBlocks cs) : bs = cs :=
  hb.1.unique hc.1 hb.2 hc.2

theorem Inv.lossless_alloc_iff (h : Inv bs s) (layout : Layout) :
    s.Lossless (.alloc layout) ↔ Tight layout.align.toNat layout.blockBytes headerSize bs := by
  constructor
  · intro hl
    obtain ⟨cs, hcs, ht⟩ := hl
    rw [h.freeBlocks.unique hcs]
    exact ht
  · intro ht
    exact ⟨bs, h.freeBlocks, ht⟩

/-- What a call does to a set of bytes: none is gained, and none is lost exactly by the lossless calls. -/
structure Moves (bs : List Block) (s : HeapState) (bs' : List Block) (s' : HeapState) (lossless : Prop) :
    Prop where
  back : ∀ x, Accounted bs' s' x → Accounted bs s x
  kept : lossless ↔ ∀ x, Accounted bs s x → Accounted bs' s' x

theorem moves_of_iff {bs' : List Block} {s' : HeapState} (h : ∀ x, Accounted bs' s' x ↔ Accounted bs s x)
    {lossless : Prop} (hl : lossless) : Moves bs s bs' s' lossless :=
  ⟨fun x => (h x).1, ⟨fun _ x => (h x).2, fun _ => hl⟩⟩

section

variable (h : Inv bs s)
include h

theorem accounted_alloc (layout : Layout) :
    ∃ s' bs', s.exec (.alloc layout) = some s' ∧ Inv bs' s' ∧ Moves bs s bs' s' (s.Lossless (.alloc layout)) := by
  rcases h.allocImpl layout with ⟨hno, heq⟩ | ⟨pre, b, post, h', p, rfl, hpre, hfits, heq, hne, hp, hinv⟩
  · refine ⟨s, bs, exec_alloc_null heq, h, moves_of_iff (fun x => Iff.rfl) ?_⟩
    exact (h.lossless_alloc_iff layout).2 (FreeList.tight_of_not_fits hno)
  · refine ⟨_, _, exec_alloc_some heq hne, hinv, ?_, ?_⟩
    · intro x hx
      have hcov := FreeList.covered_alloc headerSize layout.align_pos h.arranged.sorted hfits x
      rcases hx with hx | ⟨l, hl, hx⟩
      · exact Or.inl (hcov.1 hx).1
      · rcases List.mem_cons.1 hl with rfl | hl
        · unfold liveBlock at hx
          rw [hp] at hx
          exact Or.inl (hcov.2 hx)
        · exact Or.inr ⟨l, hl, hx⟩
    · rw [h.lossless_alloc_iff, FreeList.tight_iff headerSize layout.align_pos h.arranged.sorted hpre hfits]
      constructor
      · intro hall x hx
        rcases hx with hx | ⟨l, hl, hx⟩
        · rcases hall x hx with hx | hx
          · refine Or.inr ⟨_, List.mem_cons_self, ?_⟩
            grind [liveBlock]
          · exact Or.inl hx
        · exact Or.inr ⟨l, List.mem_cons_of_mem _ hl, hx⟩
      · intro hall x hx
        rcases hall x (Or.inl hx) with hx' | ⟨l, hl, hx'⟩
        · exact Or.inr hx'
        · rcases List.mem_cons.1 hl with rfl | hl
          · simpa [liveBlock, hp] using Or.inl hx'
          · exact absurd hx' ((h.arranged.covered hx).2 l hl)

theorem accounted_dealloc {ptr : BitVec 64} {layout : Layout} (hl : (ptr, layout) ∈ s.live) :
    ∃ s' bs', s.exec (.dealloc ptr layout) = some s' ∧ Inv bs' s' ∧
      Moves bs s bs' s' (s.Lossless (.dealloc ptr layout)) := by
  obtain ⟨pre, post, h', rfl, heq, hinv⟩ := h.dealloc hl
  refine ⟨_, _, heq, hinv, moves_of_iff (fun x => ?_) trivial⟩
  grind [Accounted, FreeList.covered_release]

theorem accounted_exec {c : HeapCall} (hc : s.Permitted c) :
    ∃ s' bs', s.exec c = some s' ∧ Inv bs' s' ∧ Moves bs s bs' s' (s.Lossless c) := by
  cases c with
  | alloc layout => exact accounted_alloc h layout
  | dealloc ptr layout => exact accounted_dealloc h hc
  | store addr byte => exact ⟨_, bs, rfl, h.store hc, ⟨fun _ hx => hx, fun _ _ hx => hx, fun _ => trivial⟩⟩

theorem accounted_run {cs : List HeapCall}
    (hcs : Meets step (fun o c => ∀ s, o = some s → s.Permitted c) (some s) cs) :
    ∃ s' bs', run step (some s) cs = some s' ∧ Inv bs' s' ∧
      Moves bs s bs' s' (Meets step (fun o c => ∀ s, o = some s → s.Lossless c) (some s) cs) := by
  induction cs generalizing s bs with
  | nil => exact ⟨s, bs, rfl, h, moves_of_iff (fun x => Iff.rfl) trivial⟩
  | cons c cs ih =>
    obtain ⟨s1, bs1, heq, h1, hmove⟩ := accounted_exec h (hcs.1 s rfl)
    have hstep : step (some s) c = some s1 := heq
    have htail := hcs.2
    rw [hstep] at htail
    obtain ⟨s', bs', hrun, h', hmo⟩ := ih h1 htail
    refine ⟨s', bs', ?_, h', fun x hx => hmove.back x (hmo.back x hx), ?_⟩
    · rw [run_cons, hstep]
      exact hrun
    · have hme : Meets step (fun o c => ∀ s, o = some s → s.Lossless c) (some s) (c :: cs) ↔
          s.Lossless c ∧ Meets step (fun o c => ∀ s, o = some s → s.Lossless c) (some s1) cs := by
        rw [← hstep]
        exact and_congr_left fun _ => ⟨fun hq => hq s rfl, fun hq t ht => Option.some.inj ht ▸ hq⟩
      rw [hme, hmove.kept, hmo.kept]
      constructor
      · simp_all
      · intro hall
        exact ⟨fun x hx => hmo.back x (hall x hx), fun x hx => hall x (hmove.back x hx)⟩

theorem restored_iff_covered :
    s.Restored ↔ ∀ x, heapStart ≤ x → x < heapEnd → Covered bs x := by
  constructor
  · intro hr x hlo hhi
    rw [h.freeBlocks.unique hr, FreeList.covered_cons]
    exact Or.inl ⟨hlo, hhi⟩
  · intro hcov
    have hbs : bs = [⟨heapStart, heapEnd - heapStart⟩] := by
      refine FreeList.eq_singleton_of_covered (by decide) h.arranged.sorted (fun b hb => ?_) hcov
      have hin := h.arranged.inHeap b hb
      exact ⟨hin.1, Nat.lt_of_lt_of_le (by decide) hin.2.1, hin.2.2⟩
    have hfree := h.freeBlocks
    rw [hbs] at hfree
    exact hfree

end

/-- After a permitted run from the initial heap that leaves no block held, the heap is restored exactly if every
call was lossless. -/
theorem restored_run_iff (m : ByteMem) {cs : List HeapCall}
    (hcs : Meets step (fun o c => ∀ s, o = some s → s.Permitted c) (some (init m)) cs)
    (hend : ∀ s, run step (some (init m)) cs = some s → s.live = []) :
    (∃ s, run step (some (init m)) cs = some s ∧ s.Restored) ↔
      Meets step (fun o c => ∀ s, o = some s → s.Lossless c) (some (init m)) cs := by
  obtain ⟨s, bs, hrun, hinv, hm⟩ := accounted_run (Inv.init m) hcs
  have hlive := hend s hrun
  have hf : ∀ x, Accounted [⟨heapStart, kernelHeapSize⟩] (init m) x ↔ heapStart ≤ x ∧ x < heapEnd := by
    intro x
    simp only [Accounted, HeapState.init, FreeList.covered_cons, FreeList.covered_nil, List.not_mem_nil, false_and,
      exists_false, or_false]
    exact Iff.rfl
  have hlast : ∀ x, Accounted bs s x ↔ Covered bs x := by
    intro x
    simp only [Accounted, hlive, List.not_mem_nil, false_and, exists_false, or_false]
  rw [hm.kept, hrun]
  simp only [Option.some.injEq, exists_eq_left', hf, hlast, and_imp]
  exact restored_iff_covered hinv

/-- A permitted run from the initial heap that leaves no block held ends with the whole heap in one free block
exactly if every allocation was lossless. -/
theorem heap_restored_iff (m : ByteMem) (cs : List HeapCall)
    (hcs : Meets step (fun o c => ∀ s, o = some s → s.Permitted c) (some (init m)) cs)
    (hend : ∀ s, run step (some (init m)) cs = some s → s.live = []) :
    (∃ s, run step (some (init m)) cs = some s ∧ s.Restored) ↔
      Meets step (fun o c => ∀ s, o = some s → s.Lossless c) (some (init m)) cs :=
  restored_run_iff m hcs hend

def takeAndRelease (layout : Layout) : List HeapCall :=
  [.alloc layout, .dealloc (BitVec.ofNat 64 heapStart) layout]

theorem takeAndRelease_permitted {layout : Layout} {bs : List Block}
    (ha : FreeList.alloc layout.align.toNat layout.blockBytes headerSize [⟨heapStart, kernelHeapSize⟩] =
      some (heapStart, bs)) :
    Meets step (fun o c => ∀ s, o = some s → s.Permitted c) (some (init fun _ => 0)) (takeAndRelease layout) ∧
      ∀ s, run step (some (init fun _ => 0)) (takeAndRelease layout) = some s → s.live = [] := by
  obtain ⟨h, heq⟩ := (Inv.init fun _ => 0).exec_alloc ha (by decide)
  have hstep : step (some (init fun _ => 0)) (.alloc layout) = some ⟨h, [(BitVec.ofNat 64 heapStart, layout)]⟩ := heq
  constructor
  · refine ⟨fun _ _ => trivial, ?_⟩
    rw [hstep]
    refine ⟨fun s hs => ?_, trivial⟩
    cases hs
    exact List.mem_singleton.2 rfl
  · intro s hs
    unfold takeAndRelease at hs
    rw [run_cons, hstep, run_cons, run_nil] at hs
    obtain ⟨h', -, rfl⟩ := Option.map_eq_some_iff.1 hs
    simp

/-- Taking 40 bytes at a multiple of 32 from the fresh heap loses nothing. -/
theorem heap_restored_takeAndRelease :
    ∃ s, run step (some (init fun _ => 0)) (takeAndRelease layout40) = some s ∧ s.Restored := by
  obtain ⟨hperm, hend⟩ := takeAndRelease_permitted alloc_layout40
  refine (heap_restored_iff (fun _ => 0) (takeAndRelease layout40) hperm hend).2
    ⟨fun s hs => ?_, fun s hs => trivial, trivial⟩
  cases hs
  rw [(Inv.init fun _ => 0).lossless_alloc_iff layout40, FreeList.tight_singleton]
  decide

def layoutAllBut16 : Layout :=
  { size := 104857584
    align := 1
    isPow := ⟨0, by decide, by decide⟩
    sizeLe := by decide }

/-- Taking all but 16 bytes of the heap and releasing them does not restore it. -/
theorem heap_not_restored :
    ¬ ∀ (m : ByteMem) (cs : List HeapCall),
      Meets step (fun o c => ∀ s, o = some s → s.Permitted c) (some (init m)) cs →
      (∀ s, run step (some (init m)) cs = some s → s.live = []) →
      ∃ s, run step (some (init m)) cs = some s ∧ s.Restored := by
  intro hall
  have ha : FreeList.alloc layoutAllBut16.align.toNat layoutAllBut16.blockBytes headerSize
      [⟨heapStart, kernelHeapSize⟩] = some (heapStart, []) := by decide
  obtain ⟨hperm, hend⟩ := takeAndRelease_permitted ha
  have hm := (restored_run_iff _ hperm hend).1 (hall _ _ hperm hend)
  have ht := ((Inv.init fun _ => 0).lossless_alloc_iff layoutAllBut16).1 (hm.1 _ rfl)
  rw [FreeList.tight_singleton] at ht
  exact absurd ht (by decide)

end HeapState

end AstralOS.Memory
