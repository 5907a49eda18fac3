import AstralOS.Lib.Run
import AstralOS.Memory.HeapList
import Mathlib.Data.List.Pairwise

/-!
# Runs of the kernel heap

The heap together with the blocks its callers hold.  A run is any sequence of allocations, releases of held blocks with
their layouts, and stores by the holders into their blocks or by anyone outside the heap.  `Arranged` says
how the free blocks and the held blocks share the heap; every call returns and keeps it, with the free list in memory
(`Inv.exec`), so it holds after every run (`heap_safe`).
-/

namespace AstralOS.Memory

open List BitVec

open FreeList (Sorted Fits Covered total)

/-- The heap and the blocks handed out and not yet released, with their layouts. -/
structure HeapState where
  heap : Heap
  live : List (BitVec 64 × Layout)

/-- The calls of the heap, and the stores of those who use the memory. -/
inductive HeapCall
  | alloc (layout : Layout)
  | dealloc (ptr : BitVec 64) (layout : Layout)
  | store (addr : BitVec 64) (byte : BitVec 8)

def liveBlock (l : BitVec 64 × Layout) : Block := ⟨l.1.toNat, l.2.blockBytes⟩

/-- The free blocks `bs` are sorted and share the heap with the held blocks, no byte in two of them. -/
structure Arranged (bs : List Block) (live : List (BitVec 64 × Layout)) : Prop where
  sorted : Sorted bs
  inHeap : ∀ b ∈ bs, InHeap b
  liveIn : ∀ l ∈ live, InHeap (liveBlock l)
  aligned : ∀ l ∈ live, l.2.align.toNat ∣ l.1.toNat
  liveDisjoint : live.Pairwise fun l k => Block.Disjoint (liveBlock l) (liveBlock k)
  apart : ∀ l ∈ live, ∀ b ∈ bs, Block.Disjoint (liveBlock l) b

namespace Arranged

variable {bs pre post : List Block} {b : Block} {live : List (BitVec 64 × Layout)}

theorem covered (h : Arranged bs live) {x : Nat} (hx : Covered bs x) :
    (heapStart ≤ x ∧ x < heapEnd) ∧ ∀ l ∈ live, x ∉ liveBlock l := by
  obtain ⟨b, hb, hxb⟩ := hx
  obtain ⟨h1, -, h3⟩ := h.inHeap b hb
  have := hxb.1
  have := hxb.2
  exact ⟨⟨by omega, by omega⟩, fun l hl hxl => h.apart l hl b hb x hxl hxb⟩

theorem inHeap_of_bytes (hsize : headerSize ≤ b.size) (h : ∀ x, x ∈ b → heapStart ≤ x ∧ x < heapEnd) :
    InHeap b := by
  have hh : headerSize = 16 := rfl
  have h1 := h b.start ⟨Nat.le_refl _, by unfold Block.stop; omega⟩
  have h2 := h (b.start + b.size - 1) ⟨by omega, by unfold Block.stop; omega⟩
  unfold InHeap Block.stop
  omega

theorem start_mem (h : InHeap b) : b.start ∈ b := by
  have := h.bounds
  exact ⟨Nat.le_refl _, by unfold Block.stop; omega⟩

theorem alloc (h : Arranged (pre ++ b :: post) live) {layout : Layout} {p : BitVec 64}
    (hf : Fits layout.align.toNat layout.blockBytes b) (hp : p.toNat = roundUp layout.align.toNat b.start) :
    Arranged (pre ++ (FreeList.rest layout.align.toNat layout.blockBytes headerSize b ++ post))
      ((p, layout) :: live) := by
  have hb : liveBlock (p, layout) = ⟨roundUp layout.align.toNat b.start, layout.blockBytes⟩ := by
    unfold liveBlock
    rw [hp]
  have hcov := fun x => FreeList.covered_alloc headerSize layout.align_pos h.sorted hf x
  refine ⟨FreeList.sorted_alloc h.sorted, ?_, ?_, ?_, ?_, ?_⟩
  · intro c hc
    refine inHeap_of_bytes ?_ fun x hx => (h.covered ((hcov x).1 ⟨c, hc, hx⟩).1).1
    simp only [mem_append] at hc
    rcases hc with hc | hc | hc
    · exact (h.inHeap c (by simp [hc])).2.1
    · exact Nat.le_of_lt (FreeList.mem_rest hc).1
    · exact (h.inHeap c (by simp [hc])).2.1
  · intro l hl
    rcases mem_cons.1 hl with rfl | hl
    · rw [hb]
      exact inHeap_of_bytes layout.headerSize_le_blockBytes fun x hx => (h.covered ((hcov x).2 hx)).1
    · exact h.liveIn l hl
  · intro l hl
    rcases mem_cons.1 hl with rfl | hl
    · rw [hp]
      exact dvd_roundUp
    · exact h.aligned l hl
  · refine pairwise_cons.2 ⟨fun l hl x hx hxl => ?_, h.liveDisjoint⟩
    rw [hb] at hx
    exact (h.covered ((hcov x).2 hx)).2 l hl hxl
  · intro l hl c hc x hx hxc
    have hold := (hcov x).1 ⟨c, hc, hxc⟩
    rcases mem_cons.1 hl with rfl | hl
    · rw [hb] at hx
      exact hold.2 hx
    · exact (h.covered hold.1).2 l hl hx

theorem disjoint_of_ne (h : Arranged bs live) {l k : BitVec 64 × Layout} (hl : l ∈ live) (hk : k ∈ live) (hne : l ≠ k) :
    Block.Disjoint (liveBlock l) (liveBlock k) := by
  have : Std.Symm fun l k : BitVec 64 × Layout => Block.Disjoint (liveBlock l) (liveBlock k) := ⟨fun _ _ hd => hd.symm⟩
  exact h.liveDisjoint.forall hl hk hne

theorem nodup (h : Arranged bs live) : live.Nodup := by
  refine List.Pairwise.imp_of_mem ?_ h.liveDisjoint
  intro l k hl _ hd heq
  subst heq
  exact hd _ (start_mem (h.liveIn l hl)) (start_mem (h.liveIn l hl))

theorem release (h : Arranged (pre ++ post) live) {l : BitVec 64 × Layout} (hl : l ∈ live)
    (hpre : ∀ c ∈ pre, c.stop ≤ (liveBlock l).start) (hpost : ∀ c ∈ post, (liveBlock l).stop ≤ c.start) :
    Arranged (FreeList.release pre (liveBlock l) post) (live.erase l) := by
  have hlin := h.liveIn l hl
  have hcov := FreeList.covered_release pre (liveBlock l) post
  refine ⟨FreeList.sorted_release h.sorted hpre hpost, ?_, fun k hk => h.liveIn k (mem_of_mem_erase hk),
    fun k hk => h.aligned k (mem_of_mem_erase hk), h.liveDisjoint.sublist erase_sublist, ?_⟩
  · intro c hc
    refine inHeap_of_bytes (FreeList.le_size_of_mem_release hlin.2.1 (fun d hd => (h.inHeap d hd).2.1) hc) fun x hx => ?_
    rcases (hcov x).1 ⟨c, hc, hx⟩ with hx | hx
    · have := hlin.1
      have := hlin.2.2
      have := hx.1
      have := hx.2
      omega
    · exact (h.covered hx).1
  · intro k hk c hc x hx hxc
    obtain ⟨hne, hk⟩ := h.nodup.mem_erase_iff.1 hk
    rcases (hcov x).1 ⟨c, hc, hxc⟩ with hxl | hx'
    · exact h.disjoint_of_ne hk hl hne x hx hxl
    · exact (h.covered hx').2 k hk hx

end Arranged

namespace HeapState

def init (m : ByteMem) : HeapState := ⟨Heap.init m, []⟩

def exec (s : HeapState) : HeapCall → Option HeapState
  | .alloc layout =>
    (s.heap.allocImpl layout).map fun (h, p) => ⟨h, if p = 0 then s.live else (p, layout) :: s.live⟩
  | .dealloc ptr layout => (s.heap.deallocImpl ptr layout).map fun h => ⟨h, s.live.erase (ptr, layout)⟩
  | .store addr byte => some ⟨{ s.heap with mem := s.heap.mem.write8 addr byte }, s.live⟩

def step (s : Option HeapState) (c : HeapCall) : Option HeapState := s.bind fun s => s.exec c

/-- A release names a held block with its layout; a store goes into a held block or outside the heap. -/
def Permitted (s : HeapState) : HeapCall → Prop
  | .alloc _ => True
  | .dealloc ptr layout => (ptr, layout) ∈ s.live
  | .store addr _ => addr.toNat < heapStart ∨ heapEnd ≤ addr.toNat ∨ ∃ l ∈ s.live, addr.toNat ∈ liveBlock l

/-- The free list in memory is `bs`, arranged with the held blocks, and the counter is the size of those. -/
structure Inv (bs : List Block) (s : HeapState) : Prop where
  seg : Seg s.heap.mem s.heap.freeList bs 0
  arranged : Arranged bs s.live
  allocated : s.heap.allocated = BitVec.ofNat 64 (total (s.live.map liveBlock))

variable {s : HeapState} {bs : List Block}

theorem Inv.init (m : ByteMem) : Inv [⟨heapStart, kernelHeapSize⟩] (init m) := by
  have hin : InHeap ⟨heapStart, kernelHeapSize⟩ := ⟨Nat.le_refl _, by decide, Nat.le_refl _⟩
  refine ⟨⟨rfl, ?_, ?_⟩, ⟨pairwise_singleton _ _, ?_, by simp [HeapState.init], by simp [HeapState.init],
    List.Pairwise.nil, by simp [HeapState.init]⟩, rfl⟩
  · unfold HeapState.init Heap.init
    rw [nodeSize_writeNode (by decide)]
    rfl
  · unfold HeapState.init Heap.init
    rw [nodeNext_writeNode]
    rfl
  · grind

theorem Inv.allocImpl (h : Inv bs s) (layout : Layout) :
    ((∀ b ∈ bs, ¬ Fits layout.align.toNat layout.blockBytes b) ∧ s.heap.allocImpl layout = some (s.heap, 0)) ∨
      ∃ pre b post h' p, bs = pre ++ b :: post ∧ (∀ c ∈ pre, ¬ Fits layout.align.toNat layout.blockBytes c) ∧
        Fits layout.align.toNat layout.blockBytes b ∧ s.heap.allocImpl layout = some (h', p) ∧ p ≠ 0 ∧
        p.toNat = roundUp layout.align.toNat b.start ∧
        Inv (pre ++ (FreeList.rest layout.align.toNat layout.blockBytes headerSize b ++ post))
          ⟨h', (p, layout) :: s.live⟩ := by
  have hspec := allocImpl_spec layout h.arranged.sorted h.arranged.inHeap h.seg
  rcases FreeList.alloc_cases layout.align.toNat layout.blockBytes headerSize bs with
    ⟨hnone, hno⟩ | ⟨pre, b, post, rfl, hpre, hfits, hsome⟩
  · simp_all
  · rw [hsome] at hspec
    obtain ⟨h', heq, ha, hseg⟩ := hspec
    have hbb := (h.arranged.inHeap b (by simp)).bounds
    have hadd := add_padding (x := b.start) layout.align_pos
    have hptr : (BitVec.ofNat 64 (roundUp layout.align.toNat b.start)).toNat = roundUp layout.align.toNat b.start := by
      grind [Fits, toNat_ofNat]
    refine Or.inr ⟨pre, b, post, h', _, rfl, hpre, hfits, heq, ?_, hptr, hseg, h.arranged.alloc hfits hptr, ?_⟩
    · grind
    · rw [ha, h.allocated, layout.blockSize_eq, ← ofNat_add, map_cons, Nat.add_comm]
      rfl

theorem exec_alloc_null {layout : Layout} (heq : s.heap.allocImpl layout = some (s.heap, 0)) :
    s.exec (.alloc layout) = some s := by
  simp only [HeapState.exec]
  rw [heq]
  rfl

theorem exec_alloc_some {layout : Layout} {h' : Heap} {p : BitVec 64} (heq : s.heap.allocImpl layout = some (h', p))
    (hne : p ≠ 0) : s.exec (.alloc layout) = some ⟨h', (p, layout) :: s.live⟩ := by
  simp [HeapState.exec, heq, Option.map_some, hne]
  omega

section

variable (h : Inv bs s)
include h

theorem Inv.alloc (layout : Layout) : ∃ s' bs', s.exec (.alloc layout) = some s' ∧ Inv bs' s' := by
  rcases h.allocImpl layout with ⟨-, heq⟩ | ⟨pre, b, post, h', p, -, -, -, heq, hne, -, hinv⟩
  · exact ⟨s, bs, exec_alloc_null heq, h⟩
  · exact ⟨_, _, exec_alloc_some heq hne, hinv⟩

theorem Inv.dealloc {ptr : BitVec 64} {layout : Layout} (hl : (ptr, layout) ∈ s.live) :
    ∃ pre post h', bs = pre ++ post ∧ s.exec (.dealloc ptr layout) = some ⟨h', s.live.erase (ptr, layout)⟩ ∧
      Inv (FreeList.release pre (liveBlock (ptr, layout)) post) ⟨h', s.live.erase (ptr, layout)⟩ := by
  obtain ⟨pre, post, h', rfl, hpre, hpost, heq, ha, hseg⟩ :=
    deallocImpl_spec (b := liveBlock (ptr, layout)) h.arranged.sorted h.arranged.inHeap h.seg rfl rfl
      (h.arranged.liveIn _ hl) (h.arranged.apart _ hl)
  refine ⟨pre, post, h', rfl, ?_, hseg, h.arranged.release hl hpre hpost, ?_⟩
  · grind [HeapState.exec]
  · have hperm := ((perm_cons_erase hl).map liveBlock).map Block.size
    have hsum : total (s.live.map liveBlock) = total ((s.live.erase (ptr, layout)).map liveBlock) + layout.blockBytes := by
      unfold total
      rw [hperm.sum_nat, map_cons, map_cons, sum_cons, Nat.add_comm]
      rfl
    grind [h.allocated, layout.blockSize_eq, ofNat_add]

theorem Inv.store {addr : BitVec 64} {byte : BitVec 8} (hp : s.Permitted (.store addr byte)) :
    Inv bs ⟨{ s.heap with mem := s.heap.mem.write8 addr byte }, s.live⟩ := by
  refine ⟨h.seg.congr fun b hb p hpb => ?_, h.arranged, h.allocated⟩
  have hbb := (h.arranged.inHeap b hb).bounds
  have hnot : addr.toNat ∉ b := by
    intro hx
    obtain ⟨hin, hlive⟩ := h.arranged.covered ⟨b, hb, hx⟩
    rcases hp with hlt | hge | ⟨l, hl, hxl⟩
    · omega
    · omega
    · exact hlive l hl hxl
  rw [Block.mem_def] at hnot
  have hp8 : (p + 8).toNat = p.toNat + 8 := by
    simp [toNat_add]
    omega
  constructor
  · apply ByteMem.read64_write8_of_le
    rw [toNat_sub]
    omega
  · apply ByteMem.read64_write8_of_le
    rw [toNat_sub, hp8]
    omega

theorem Inv.exec {c : HeapCall} (hc : s.Permitted c) :
    ∃ s' bs', s.exec c = some s' ∧ Inv bs' s' := by
  cases c with
  | alloc layout => exact h.alloc layout
  | dealloc ptr layout =>
    obtain ⟨pre, post, h', -, heq, hinv⟩ := h.dealloc hc
    exact ⟨_, _, heq, hinv⟩
  | store addr byte => exact ⟨_, bs, rfl, h.store hc⟩

theorem Inv.allocated_toNat : s.heap.allocated.toNat = total (s.live.map liveBlock) := by
  have hle : total (s.live.map liveBlock) ≤ heapEnd - heapStart := by
    refine FreeList.total_le (pairwise_map.2 h.arranged.liveDisjoint) fun b hb x hx => ?_
    obtain ⟨l, hl, rfl⟩ := mem_map.1 hb
    have hin := h.arranged.liveIn l hl
    have := hin.1
    have := hin.2.2
    have := hx.1
    have := hx.2
    omega
  have : heapEnd - heapStart < 2 ^ 64 := by decide
  simp [h.allocated, toNat_ofNat]
  omega

end

/-- What it means for the heap to be safe in a state: `bs` is its free list. -/
structure Safe (s : HeapState) (bs : List Block) : Prop where
  freeList : Seg s.heap.mem s.heap.freeList bs 0
  aligned : ∀ l ∈ s.live, l.2.align.toNat ∣ l.1.toNat
  inside : ∀ l ∈ s.live, heapStart ≤ (liveBlock l).start ∧ (liveBlock l).stop ≤ heapEnd
  disjoint : s.live.Pairwise fun l k => Block.Disjoint (liveBlock l) (liveBlock k)
  apart : ∀ l ∈ s.live, ∀ b ∈ bs, Block.Disjoint (liveBlock l) b
  increasing : bs.Pairwise fun b c => b.start < c.start ∧ b.stop < c.start
  room : ∀ b ∈ bs, 16 ≤ b.size
  counter : s.heap.allocated.toNat = ((s.live.map liveBlock).map Block.size).sum
  returns : ∀ layout, ∃ h p, s.heap.allocImpl layout = some (h, p)
  null : ∀ layout h, s.heap.allocImpl layout = some (h, 0) →
    ∀ b ∈ bs, ¬ ∃ a, layout.align.toNat ∣ a ∧ b.start ≤ a ∧ a + layout.blockBytes ≤ b.stop

theorem Inv.safe (h : Inv bs s) : Safe s bs where
  freeList := h.seg
  aligned := h.arranged.aligned
  inside := fun l hl => ⟨(h.arranged.liveIn l hl).1, (h.arranged.liveIn l hl).2.2⟩
  disjoint := h.arranged.liveDisjoint
  apart := h.arranged.apart
  increasing := by
    refine List.Pairwise.imp ?_ h.arranged.sorted
    intro b c hbc
    have : b.start ≤ b.stop := Nat.le_add_right _ _
    exact ⟨by omega, hbc⟩
  room := fun b hb => (h.arranged.inHeap b hb).2.1
  counter := h.allocated_toNat
  returns := by
    intro layout
    rcases h.allocImpl layout with ⟨-, heq⟩ | ⟨_, _, _, h', p, -, -, -, heq, -⟩
    · exact ⟨_, _, heq⟩
    · exact ⟨_, _, heq⟩
  null := by
    intro layout h' hnull b hb hex
    rcases h.allocImpl layout with ⟨hno, -⟩ | ⟨_, _, _, h'', p, -, -, -, heq, hne, -⟩
    · exact hno b hb ((FreeList.fits_iff layout.align_pos).2 hex)
    · rw [heq] at hnull
      cases hnull
      exact hne rfl

/-- After every permitted run from any memory, every call has returned and the heap is safe. -/
theorem heap_safe (m : ByteMem) (cs : List HeapCall)
    (hcs : Meets step (fun o c => ∀ s, o = some s → s.Permitted c) (some (init m)) cs) :
    ∃ s bs, run step (some (init m)) cs = some s ∧ Safe s bs := by
  have hinv : Always step (fun o => ∃ s bs, o = some s ∧ Inv bs s) (some (init m)) cs := by
    refine always_of_meets (R := fun _ => True) (fun _ h => h) ?_ ⟨_, _, rfl, Inv.init m⟩ (fun _ _ => trivial) hcs
    intro o c _ ho hc
    obtain ⟨s, bs, rfl, hs⟩ := ho
    obtain ⟨s', bs', heq, hs'⟩ := hs.exec (hc s rfl)
    exact ⟨s', bs', heq, hs'⟩
  obtain ⟨s, bs, heq, hs⟩ := hinv.run
  exact ⟨s, bs, heq, hs.safe⟩

def layout40 : Layout :=
  { size := 40
    align := 32
    isPow := ⟨5, by decide, by decide⟩
    sizeLe := by decide }

theorem alloc_layout40 :
    FreeList.alloc layout40.align.toNat layout40.blockBytes headerSize [⟨heapStart, kernelHeapSize⟩] =
      some (heapStart, [⟨heapStart + 64, kernelHeapSize - 64⟩]) := by
  decide

def useOnce : List HeapCall :=
  [.alloc layout40, .store (BitVec.ofNat 64 heapStart) 255, .dealloc (BitVec.ofNat 64 heapStart) layout40]

theorem Inv.exec_alloc (h : Inv bs s) {layout : Layout} {a : Nat} {bs' : List Block}
    (ha : FreeList.alloc layout.align.toNat layout.blockBytes headerSize bs = some (a, bs'))
    (hne : BitVec.ofNat 64 a ≠ 0) :
    ∃ h', s.exec (.alloc layout) = some ⟨h', (BitVec.ofNat 64 a, layout) :: s.live⟩ := by
  have hspec := allocImpl_spec layout h.arranged.sorted h.arranged.inHeap h.seg
  rw [ha] at hspec
  obtain ⟨h', heq, -, -⟩ := hspec
  exact ⟨h', exec_alloc_some heq hne⟩

theorem heap_safe_useOnce :
    Meets step (fun o c => ∀ s, o = some s → s.Permitted c) (some (init fun _ => 0)) useOnce ∧
      ∃ s bs, run step (some (init fun _ => 0)) useOnce = some s ∧ Safe s bs := by
  have hm : Meets step (fun o c => ∀ s, o = some s → s.Permitted c) (some (init fun _ => 0)) useOnce := by
    obtain ⟨h, heq⟩ := (Inv.init fun _ => 0).exec_alloc alloc_layout40 (by decide)
    have hstep : step (some (init fun _ => 0)) (.alloc layout40) =
        some ⟨h, [(BitVec.ofNat 64 heapStart, layout40)]⟩ := heq
    refine ⟨fun _ _ => trivial, ?_⟩
    refine ⟨fun s hs => ?_, fun s hs => ?_, trivial⟩
    · cases hs
      exact Or.inr (Or.inr ⟨_, mem_singleton.2 rfl, by decide, by decide⟩)
    · cases hs
      exact mem_singleton.2 rfl
  exact ⟨hm, heap_safe (fun _ => 0) useOnce hm⟩

end HeapState

end AstralOS.Memory
