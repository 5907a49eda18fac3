import AstralOS.Memory.HeapLoss

/-!
# Where the kernel heap writes headers

The addresses at which `alloc_impl` and `dealloc_impl` write a `FreeBlock` or a field of one.  The lists below follow the two
functions; a call changes no byte outside the headers at these addresses (`onlyHeaders_allocImpl`), so none of a held
block (`held_bytes_kept`).

A header lies at the start of the heap, at the end of a block handed out, or at a released block.  As long as the headers are
aligned, an aligned block starts at a multiple of 8 whatever its alignment; so the first header that is not aligned is written
behind a block whose size is no multiple of 8 (`headers_aligned_iff`).
-/

namespace AstralOS.Memory

open List

open FreeList (Sorted Fits)

def headerAlign : Nat := 8

/-! ### The addresses -/

namespace Heap

def prevHeader (prev : BitVec 64) : List (BitVec 64) := if prev = 0 then [] else [prev]

/-- Where `takeNode` writes: the header of the remainder, and the next field of the node before. -/
def takeHeaders (h : Heap) (prev node allocStart size requiredSize : BitVec 64) : List (BitVec 64) :=
  let allocEnd := allocStart + size
  (if nodeSize h.mem node > requiredSize + 16 then [allocEnd] else []) ++ prevHeader prev

def allocLoopHeaders (h : Heap) (size align : BitVec 64) : Nat → BitVec 64 → BitVec 64 → List (BitVec 64)
  | 0, _, _ => []
  | fuel + 1, prev, current =>
    if current = 0 then []
    else
      let alignedAddr := alignUp current align
      let padding := alignedAddr - current
      let requiredSize := padding + size
      if nodeSize h.mem current ≥ requiredSize then h.takeHeaders prev current alignedAddr size requiredSize
      else allocLoopHeaders h size align fuel current (nodeNext h.mem current)

def allocHeaders (h : Heap) (layout : Layout) : List (BitVec 64) :=
  h.allocLoopHeaders (blockSize layout) layout.align walkFuel 0 h.freeList

def deallocHeaders (h : Heap) (ptr : BitVec 64) : List (BitVec 64) :=
  match findPlace h.mem ptr walkFuel 0 h.freeList with
  | none => []
  | some (prev, _) => ptr :: prevHeader prev

end Heap

/-- The memories differ only in the headers at the addresses. -/
def OnlyHeaders (as : List (BitVec 64)) (m m' : ByteMem) : Prop :=
  ∀ x : BitVec 64, (∀ a ∈ as, headerSize ≤ (x - a).toNat) → m' x = m x

theorem mem_prevHeader {prev a : BitVec 64} : a ∈ Heap.prevHeader prev ↔ prev ≠ 0 ∧ a = prev := by
  unfold Heap.prevHeader
  by_cases h0 : prev = 0
  · simp [h0]
  · rw [if_neg h0, mem_singleton, and_iff_right h0]

section OnlyHeaders

variable {as bs : List (BitVec 64)} {m m' m'' : ByteMem} {a : BitVec 64}

theorem OnlyHeaders.trans (h : OnlyHeaders as m m') (h' : OnlyHeaders as m' m'') : OnlyHeaders as m m'' :=
  fun x hx => (h' x hx).trans (h x hx)

theorem onlyHeaders_size (ha : a ∈ as) (m : ByteMem) (v : BitVec 64) : OnlyHeaders as m (m.write64 a v) := by
  intro x hx
  have := hx a ha
  have hh : headerSize = 16 := rfl
  exact ByteMem.write64_of_le (by omega)

theorem onlyHeaders_next (ha : a ∈ as) (m : ByteMem) (v : BitVec 64) : OnlyHeaders as m (m.write64 (a + 8) v) := by
  intro x hx
  have := hx a ha
  have hh : headerSize = 16 := rfl
  have hsub : (x - (a + 8)).toNat = (x - a).toNat - 8 := by
    rw [← BitVec.sub_sub, BitVec.toNat_sub]
    grind
  exact ByteMem.write64_of_le (by omega)

theorem onlyHeaders_writeNode (ha : a ∈ as) (m : ByteMem) (size next : BitVec 64) :
    OnlyHeaders as m (writeNode m a size next) :=
  (onlyHeaders_size ha m size).trans (onlyHeaders_next ha _ next)

theorem onlyHeaders_setNext {h : Heap} {prev : BitVec 64} (hp : prev ≠ 0 → prev ∈ as) (v : BitVec 64) :
    OnlyHeaders as h.mem (h.setNext prev v).mem := by
  unfold Heap.setNext
  by_cases h0 : prev = 0
  · rw [if_pos h0]
    exact fun _ _ => rfl
  · rw [if_neg h0]
    exact onlyHeaders_next (hp h0) _ v

theorem onlyHeaders_takeNode (h : Heap) (prev node allocStart size requiredSize : BitVec 64) :
    OnlyHeaders (h.takeHeaders prev node allocStart size requiredSize) h.mem
      (h.takeNode prev node allocStart size requiredSize).mem := by
  have hprev : prev ≠ 0 → prev ∈ h.takeHeaders prev node allocStart size requiredSize := by
    intro h0
    exact mem_append_right _ (mem_prevHeader.2 ⟨h0, rfl⟩)
  unfold Heap.takeNode
  dsimp only
  by_cases hs : nodeSize h.mem node > requiredSize + 16
  · rw [if_pos hs]
    refine OnlyHeaders.trans (onlyHeaders_writeNode ?_ _ _ _) (onlyHeaders_setNext hprev _)
    refine mem_append_left _ ?_
    simp [hs]
    omega
  · rw [if_neg hs]
    exact onlyHeaders_setNext hprev _

theorem onlyHeaders_allocLoop {h h' : Heap} {size align p : BitVec 64} {fuel : Nat} {prev current : BitVec 64}
    (heq : h.allocLoop size align fuel prev current = some (h', p)) :
    OnlyHeaders (h.allocLoopHeaders size align fuel prev current) h.mem h'.mem := by
  induction fuel generalizing prev current with
  | zero => cases heq
  | succ fuel ih =>
    unfold Heap.allocLoop at heq
    unfold Heap.allocLoopHeaders
    dsimp only at heq ⊢
    split_ifs at heq ⊢ with h0 hfits
    · cases heq
      exact fun _ _ => rfl
    · cases heq
      exact onlyHeaders_takeNode h _ _ _ _ _
    · exact ih heq

theorem onlyHeaders_allocImpl {h h' : Heap} {layout : Layout} {p : BitVec 64} (heq : h.allocImpl layout = some (h', p)) :
    OnlyHeaders (h.allocHeaders layout) h.mem h'.mem :=
  onlyHeaders_allocLoop heq

theorem onlyHeaders_writeReleased (ha : a ∈ as) (m : ByteMem) (size current : BitVec 64) :
    OnlyHeaders as m (Heap.writeReleased m a size current) := by
  unfold Heap.writeReleased
  split_ifs
  all_goals exact onlyHeaders_writeNode ha _ _ _

theorem onlyHeaders_linkReleased {prev : BitVec 64} (hp : prev ≠ 0 → prev ∈ as) (h : Heap) (addr : BitVec 64) :
    OnlyHeaders as h.mem (h.linkReleased prev addr).mem := by
  unfold Heap.linkReleased
  split_ifs with h0 hjoin
  · exact fun _ _ => rfl
  · exact (onlyHeaders_size (hp h0) _ _).trans (onlyHeaders_next (hp h0) _ _)
  · exact onlyHeaders_next (hp h0) _ _

theorem onlyHeaders_deallocImpl {h h' : Heap} {ptr : BitVec 64} {layout : Layout}
    (heq : h.deallocImpl ptr layout = some h') : OnlyHeaders (h.deallocHeaders ptr) h.mem h'.mem := by
  obtain ⟨⟨prev, current⟩, hfind, rfl⟩ := Option.map_eq_some_iff.1 heq
  unfold Heap.deallocHeaders
  rw [hfind]
  refine (onlyHeaders_writeReleased mem_cons_self _ (blockSize layout) current).trans ?_
  refine onlyHeaders_linkReleased (fun h0 => ?_) { h with mem := _ } ptr
  exact mem_cons_of_mem _ (mem_prevHeader.2 ⟨h0, rfl⟩)

end OnlyHeaders

/-! ### The addresses and the free list -/

section Spec

variable {h : Heap} {layout : Layout} {pre mid post bs : List Block} {b : Block} {p prev a : BitVec 64}

theorem mem_prevHeader_iff (hin : ∀ c ∈ pre, InHeap c) (hprev : Prev pre prev) :
    a ∈ Heap.prevHeader prev ↔ ∃ c, pre.getLast? = some c ∧ a.toNat = c.start := by
  rw [mem_prevHeader]
  rcases eq_nil_or_concat pre with rfl | ⟨pre, b, rfl⟩
  · rw [prev_nil] at hprev
    simp [hprev]
  · rw [concat_eq_append] at *
    rw [prev_concat] at hprev
    have hne := ne_zero_of_inHeap (hin b (by simp)) hprev
    simp only [getLast?_concat, Option.some.injEq, exists_eq_left', ← hprev, BitVec.toNat_inj, and_iff_right hne]

theorem mem_takeHeaders (hin : ∀ c ∈ pre, InHeap c) (hprev : Prev pre prev) (hb : InHeap b) (hp : p.toNat = b.start)
    (hsize : (nodeSize h.mem p).toNat = b.size) (hf : Fits layout.align.toNat layout.blockBytes b) :
    a ∈ h.takeHeaders prev p (alignUp p layout.align) (blockSize layout) (alignUp p layout.align - p + blockSize layout) ↔
      ∃ c, (c ∈ FreeList.rest layout.align.toNat layout.blockBytes headerSize b ∨ pre.getLast? = some c) ∧
        a.toNat = c.start := by
  have hcond := splits_node_iff hb hp hsize hf
  obtain ⟨-, hend⟩ := toNat_alignUp hb hp hf
  unfold Heap.takeHeaders FreeList.rest
  simp only [mem_append, mem_prevHeader_iff hin hprev, or_and_right, exists_or]
  refine or_congr_left ?_
  by_cases hs : padding layout.align.toNat b.start + layout.blockBytes + headerSize < b.size
  · rw [if_pos (hcond.2 hs), if_pos hs]
    simp only [mem_singleton, exists_eq_left, ← hend, BitVec.toNat_inj]
  · grind

theorem mem_allocLoopHeaders {fuel : Nat} (hfuel : mid.length < fuel) (hin : ∀ c ∈ pre ++ (mid ++ b :: post), InHeap c)
    (hprev : Prev pre prev) (hseg : Seg h.mem p (mid ++ b :: post) 0)
    (hmid : ∀ c ∈ mid, ¬ Fits layout.align.toNat layout.blockBytes c) (hf : Fits layout.align.toNat layout.blockBytes b) :
    a ∈ h.allocLoopHeaders (blockSize layout) layout.align fuel prev p ↔
      ∃ c, (c ∈ FreeList.rest layout.align.toNat layout.blockBytes headerSize b ∨ (pre ++ mid).getLast? = some c) ∧
        a.toNat = c.start := by
  induction mid generalizing pre p prev fuel with
  | nil =>
    obtain ⟨fuel, rfl⟩ : ∃ n, fuel = n + 1 := ⟨fuel - 1, by omega⟩
    have hb := hin b (by simp)
    obtain ⟨hp, hsize, -⟩ := hseg
    unfold Heap.allocLoopHeaders
    rw [if_neg (ne_zero_of_inHeap hb hp), if_pos ((fits_node_iff layout hp hsize).2 hf), append_nil]
    exact mem_takeHeaders (fun c hc => hin c (by simp [hc])) hprev hb hp hsize hf
  | cons d mid ih =>
    obtain ⟨fuel, rfl⟩ : ∃ n, fuel = n + 1 := ⟨fuel - 1, by omega⟩
    obtain ⟨hp, hsize, hnext⟩ := hseg
    have hd := hmid d (by simp)
    have hin' : ∀ c ∈ (pre ++ [d]) ++ (mid ++ b :: post), InHeap c := by simpa using hin
    unfold Heap.allocLoopHeaders
    rw [if_neg (ne_zero_of_inHeap (hin d (by simp)) hp), if_neg (fun hge => hd ((fits_node_iff layout hp hsize).1 hge)),
      ih (Nat.lt_of_succ_lt_succ hfuel) hin' (prev_concat.2 hp) hnext fun c hc => hmid c (by simp [hc])]
    simp

theorem allocLoopHeaders_eq_nil {fuel : Nat} (hfuel : post.length < fuel) (hin : ∀ c ∈ post, InHeap c)
    (hseg : Seg h.mem p post 0) (hno : ∀ c ∈ post, ¬ Fits layout.align.toNat layout.blockBytes c) :
    h.allocLoopHeaders (blockSize layout) layout.align fuel prev p = [] := by
  induction post generalizing p prev fuel with
  | nil =>
    obtain ⟨fuel, rfl⟩ : ∃ n, fuel = n + 1 := ⟨fuel - 1, by omega⟩
    have hp : p = 0 := hseg
    unfold Heap.allocLoopHeaders
    rw [if_pos hp]
  | cons b post ih =>
    obtain ⟨fuel, rfl⟩ : ∃ n, fuel = n + 1 := ⟨fuel - 1, by omega⟩
    obtain ⟨hp, hsize, hnext⟩ := hseg
    have hb := hno b (by simp)
    unfold Heap.allocLoopHeaders
    rw [if_neg (ne_zero_of_inHeap (hin b (by simp)) hp), if_neg (fun hge => hb ((fits_node_iff layout hp hsize).1 hge))]
    exact ih (Nat.lt_of_succ_lt_succ hfuel) (fun c hc => hin c (by simp [hc])) hnext fun c hc => hno c (by simp [hc])

theorem deallocHeaders_spec (hs : Sorted bs) (hin : ∀ c ∈ bs, InHeap c) (hseg : Seg h.mem h.freeList bs 0) :
    ∀ a ∈ h.deallocHeaders p, a = p ∨ ∃ c ∈ bs, a.toNat = c.start := by
  have hs' : Sorted ([] ++ bs) := hs
  have hem : Seg h.mem h.freeList [] h.freeList := rfl
  have hprev0 : Prev [] 0 := rfl
  obtain ⟨pre, post, prev, cur, rfl, hfind, -, hprev, -⟩ :=
    findPlace_spec p (length_lt_walkFuel hs hin) hs' hin hem hprev0 hseg (by simp)
  intro a ha
  unfold Heap.deallocHeaders at ha
  rw [hfind] at ha
  rcases mem_cons.1 ha with rfl | ha
  · exact Or.inl rfl
  · obtain ⟨c, hc, hac⟩ := (mem_prevHeader_iff (fun c hc => hin c (by simp [hc])) hprev).1 ha
    exact Or.inr ⟨c, by simp [mem_of_getLast? hc], hac⟩

end Spec

/-! ### Runs -/

namespace HeapState

def headers (s : HeapState) : HeapCall → List (BitVec 64)
  | .alloc layout => s.heap.allocHeaders layout
  | .dealloc ptr _ => s.heap.deallocHeaders ptr
  | .store _ _ => []

def HeadersAligned (s : HeapState) (c : HeapCall) : Prop := ∀ a ∈ s.headers c, headerAlign ∣ a.toNat

/-- If the call is an allocation, the bytes of the block are a multiple of the alignment of a header, or nothing is left of
the free block it is taken from. -/
def Even (s : HeapState) : HeapCall → Prop
  | .alloc layout => headerAlign ∣ layout.blockBytes ∨ ∃ bs, s.FreeBlocks bs ∧
      ∀ b, bs.find? (fun b => decide (Fits layout.align.toNat layout.blockBytes b)) = some b →
        FreeList.rest layout.align.toNat layout.blockBytes headerSize b = []
  | _ => True

/-- The free blocks and the held blocks start at multiples of the alignment of a header. -/
structure OnGrid (bs : List Block) (s : HeapState) : Prop where
  inv : Inv bs s
  free : ∀ b ∈ bs, headerAlign ∣ b.start
  live : ∀ l ∈ s.live, headerAlign ∣ l.1.toNat

variable {s : HeapState} {bs pre post : List Block} {b : Block}

theorem onGrid_init (m : ByteMem) : OnGrid [⟨heapStart, kernelHeapSize⟩] (init m) where
  inv := Inv.init m
  free := by
    intro b hb
    rw [mem_singleton.1 hb]
    decide
  live := by simp [HeapState.init]

theorem headerAlign_dvd_roundUp (layout : Layout) {x : Nat} (hx : headerAlign ∣ x) :
    headerAlign ∣ roundUp layout.align.toNat x := by
  obtain ⟨k, hk⟩ := layout.exists_align_eq
  by_cases hle : k ≤ 3
  · have hdvd : layout.align.toNat ∣ x := by
      rw [hk]
      exact Nat.dvd_trans (Nat.pow_dvd_pow 2 hle) hx
    have hr : roundUp layout.align.toNat x = x :=
      Nat.le_antisymm (roundUp_le layout.align_pos hdvd (Nat.le_refl x)) (le_roundUp layout.align_pos)
    rwa [hr]
  · have hdvd : headerAlign ∣ layout.align.toNat := by
      rw [hk]
      exact Nat.pow_dvd_pow 2 (by omega : 3 ≤ k)
    exact Nat.dvd_trans hdvd dvd_roundUp

theorem OnGrid.rest_aligned_iff {layout : Layout} (h : OnGrid (pre ++ b :: post) s)
    (hpre : ∀ c ∈ pre, ¬ Fits layout.align.toNat layout.blockBytes c) (hf : Fits layout.align.toNat layout.blockBytes b) :
    (∀ c ∈ FreeList.rest layout.align.toNat layout.blockBytes headerSize b, headerAlign ∣ c.start) ↔
      s.Even (.alloc layout) := by
  have hr := headerAlign_dvd_roundUp layout (h.free b (by simp))
  have hs : ∀ c ∈ FreeList.rest layout.align.toNat layout.blockBytes headerSize b,
      c.start = roundUp layout.align.toNat b.start + layout.blockBytes := by
    intro c hc
    rw [(FreeList.mem_rest hc).2.1, ← Nat.add_assoc, add_padding layout.align_pos]
  constructor
  · intro hall
    cases hrest : FreeList.rest layout.align.toNat layout.blockBytes headerSize b with
    | nil =>
      refine Or.inr ⟨_, h.inv.freeBlocks, fun c hc => ?_⟩
      grind
    | cons c cs =>
      have hmem : c ∈ FreeList.rest layout.align.toNat layout.blockBytes headerSize b := by simp [hrest]
      have hc := hall c hmem
      rw [hs c hmem] at hc
      exact Or.inl ((Nat.dvd_add_right hr).1 hc)
  · rintro (hdvd | ⟨cs, hcs, hnone⟩) c hc
    · rw [hs c hc]
      exact Nat.dvd_add hr hdvd
    · rw [hcs.unique h.inv.freeBlocks] at hnone
      grind

theorem OnGrid.headersAligned_iff (h : OnGrid bs s) {c : HeapCall} (hc : s.Permitted c) :
    s.HeadersAligned c ↔ s.Even c := by
  cases c with
  | alloc layout =>
    have hlen := length_lt_walkFuel h.inv.arranged.sorted h.inv.arranged.inHeap
    rcases FreeList.alloc_cases layout.align.toNat layout.blockBytes headerSize bs with
      ⟨-, hno⟩ | ⟨pre, b, post, rfl, hpre, hf, -⟩
    · have hnil : s.headers (.alloc layout) = [] :=
        allocLoopHeaders_eq_nil hlen h.inv.arranged.inHeap h.inv.seg hno
      refine ⟨fun _ => Or.inr ⟨bs, h.inv.freeBlocks, fun b hb => ?_⟩, fun _ a ha => ?_⟩
      · grind
      · rw [hnil] at ha
        cases ha
    · have hin : ∀ c ∈ [] ++ (pre ++ b :: post), InHeap c := h.inv.arranged.inHeap
      have hprev : Prev [] 0 := rfl
      have hlen' : pre.length < walkFuel := by
        grind
      rw [← h.rest_aligned_iff hpre hf]
      constructor
      · intro hall c hmem
        have hbo := (h.inv.arranged.inHeap b (by simp)).bounds
        have hstop := (FreeList.mem_rest hmem).2.2
        have ha : (BitVec.ofNat 64 c.start).toNat = c.start := by
          grind [Block.stop, BitVec.toNat_ofNat]
        have hmem' := (mem_allocLoopHeaders hlen' hin hprev h.inv.seg hpre hf).2 ⟨c, Or.inl hmem, ha⟩
        rw [← ha]
        exact hall _ hmem'
      · intro hall a ha
        obtain ⟨c, hc | hc, hac⟩ := (mem_allocLoopHeaders hlen' hin hprev h.inv.seg hpre hf).1 ha
        · rw [hac]
          exact hall c hc
        · rw [hac]
          exact h.free c (mem_append_left _ (mem_of_getLast? hc))
  | dealloc ptr layout =>
    refine ⟨fun _ => trivial, fun _ a ha => ?_⟩
    rcases deallocHeaders_spec h.inv.arranged.sorted h.inv.arranged.inHeap h.inv.seg a ha with rfl | ⟨c, hc', hac⟩
    · exact h.live _ hc
    · rw [hac]
      exact h.free c hc'
  | store addr byte => exact ⟨fun _ => trivial, fun _ a ha => by cases ha⟩

theorem OnGrid.exec (h : OnGrid bs s) {c : HeapCall} (hc : s.Permitted c) (heven : s.Even c) :
    ∃ s' bs', s.exec c = some s' ∧ OnGrid bs' s' := by
  cases c with
  | alloc layout =>
    rcases h.inv.allocImpl layout with ⟨-, heq⟩ | ⟨pre, b, post, h', p, rfl, hpre, hf, heq, hne, hp, hinv⟩
    · exact ⟨s, bs, exec_alloc_null heq, h⟩
    · refine ⟨_, _, exec_alloc_some heq hne, hinv, fun c hc => ?_, fun l hl => ?_⟩
      · simp only [mem_append] at hc
        rcases hc with hc | hc | hc
        · exact h.free c (by simp [hc])
        · exact (h.rest_aligned_iff hpre hf).2 heven c hc
        · exact h.free c (by simp [hc])
      · rcases mem_cons.1 hl with rfl | hl
        · rw [hp]
          exact headerAlign_dvd_roundUp layout (h.free b (by simp))
        · exact h.live l hl
  | dealloc ptr layout =>
    obtain ⟨pre, post, h', rfl, heq, hinv⟩ := h.inv.dealloc hc
    refine ⟨_, _, heq, hinv, fun c hmem => ?_, fun l hl => h.live l (mem_of_mem_erase hl)⟩
    rcases FreeList.start_of_mem_release hmem with hs | ⟨d, hd, hs⟩
    · rw [hs]
      exact h.live _ hc
    · rw [hs]
      exact h.free d hd
  | store addr byte => exact ⟨_, bs, rfl, h.inv.store hc, h.free, h.live⟩

/-! ### The bytes of held blocks -/

/-- The call returns.  What is held stays held but for what it releases, with its bytes but for the one it stores to. -/
def KeepsHeld (s : HeapState) (c : HeapCall) : Prop :=
  ∃ s', s.exec c = some s' ∧ ∀ l ∈ s.live, c ≠ .dealloc l.1 l.2 → l ∈ s'.live ∧
    ∀ x : BitVec 64, x.toNat ∈ liveBlock l → (∀ byte, c ≠ .store x byte) → s'.heap.mem x = s.heap.mem x

theorem headerSize_le_sub {x a : BitVec 64} (hb : InHeap b) (ha : a.toNat = b.start) (hx : x.toNat ∉ b) :
    headerSize ≤ (x - a).toNat := by
  have hh : headerSize = 16 := rfl
  have hbb := hb.bounds
  rw [Block.mem_def] at hx
  rw [BitVec.toNat_sub]
  omega

theorem Inv.keepsHeld (h : Inv bs s) {c : HeapCall} (hc : s.Permitted c) : s.KeepsHeld c := by
  have hap := h.arranged
  cases c with
  | alloc layout =>
    rcases h.allocImpl layout with ⟨-, heq⟩ | ⟨pre, b, post, h', p, rfl, hpre, hf, heq, hne, -, hinv⟩
    · exact ⟨s, exec_alloc_null heq, fun l hl _ => ⟨hl, fun _ _ _ => rfl⟩⟩
    · -- the headers lie in blocks that are free afterwards
      have hlen := length_lt_walkFuel hap.sorted hap.inHeap
      have hprev : Prev [] 0 := rfl
      rw [length_append] at hlen
      refine ⟨_, exec_alloc_some heq hne, fun l hl _ => ⟨mem_cons_of_mem _ hl, fun x hx _ => ?_⟩⟩
      refine onlyHeaders_allocImpl heq x fun a ha => ?_
      obtain ⟨c, hc, hac⟩ := (mem_allocLoopHeaders (by omega) hap.inHeap hprev h.seg hpre hf).1 ha
      have hmem : c ∈ pre ++ (FreeList.rest layout.align.toNat layout.blockBytes headerSize b ++ post) := by
        rcases hc with hc | hc
        · simp [hc]
        · exact mem_append_left _ (mem_of_getLast? hc)
      exact headerSize_le_sub (hinv.arranged.inHeap c hmem) hac (hinv.arranged.apart l (mem_cons_of_mem _ hl) c hmem _ hx)
  | dealloc ptr layout =>
    obtain ⟨s', _, heq, -⟩ := h.exec hc
    obtain ⟨h', hd, rfl⟩ := Option.map_eq_some_iff.1 heq
    refine ⟨_, heq, fun l hl hc' => ?_⟩
    have hne : l ≠ (ptr, layout) := fun heq => hc' (by rw [heq])
    refine ⟨(mem_erase_of_ne hne).2 hl, fun x hx _ => onlyHeaders_deallocImpl hd x fun a ha => ?_⟩
    rcases deallocHeaders_spec hap.sorted hap.inHeap h.seg a ha with rfl | ⟨c, hc', hac⟩
    · exact headerSize_le_sub (hap.liveIn _ hc) rfl (hap.disjoint_of_ne hl hc hne _ hx)
    · exact headerSize_le_sub (hap.inHeap c hc') hac (hap.apart l hl c hc' _ hx)
  | store addr byte =>
    exact ⟨_, rfl, fun l hl _ => ⟨hl, fun x _ hst => if_neg fun heq => hst byte (by rw [heq])⟩⟩

/-- In a permitted run no call writes into a block that someone holds. -/
theorem held_bytes_kept (m : ByteMem) (cs : List HeapCall)
    (hcs : Meets step (fun o c => ∀ s, o = some s → s.Permitted c) (some (init m)) cs) :
    Meets step (fun o c => ∃ s, o = some s ∧ s.KeepsHeld c) (some (init m)) cs := by
  refine meets_of_meets (I := fun o => ∃ s bs, o = some s ∧ Inv bs s) (R := fun _ => True) ?_ ?_ ⟨_, _, rfl, Inv.init m⟩
    (fun _ _ => trivial) hcs
  · rintro o c - ⟨s, bs, rfl, h⟩ hc
    exact ⟨s, rfl, h.keepsHeld (hc s rfl)⟩
  · rintro o c - ⟨s, bs, rfl, h⟩ hc
    exact h.exec (hc s rfl)

theorem held_bytes_kept_takeAndRelease :
    Meets step (fun o c => ∃ s, o = some s ∧ s.KeepsHeld c) (some (init fun _ => 0)) (takeAndRelease layout40) :=
  held_bytes_kept (fun _ => 0) _ (takeAndRelease_permitted alloc_layout40).1

/-- Over a permitted run from the initial heap, every header is written at a multiple of its alignment exactly if every
allocation is even. -/
theorem headers_aligned_iff (m : ByteMem) (cs : List HeapCall)
    (hcs : Meets step (fun o c => ∀ s, o = some s → s.Permitted c) (some (init m)) cs) :
    Meets step (fun o c => ∀ s, o = some s → s.HeadersAligned c) (some (init m)) cs ↔
      Meets step (fun o c => ∀ s, o = some s → s.Even c) (some (init m)) cs := by
  refine meets_iff_meets (I := fun o => ∃ s bs, o = some s ∧ OnGrid bs s) ?_ ?_ ⟨_, _, rfl, onGrid_init m⟩ hcs
  · rintro o c ⟨s, bs, rfl, h⟩ hc
    simp only [Option.some.injEq, forall_eq']
    exact h.headersAligned_iff (hc s rfl)
  · rintro o c ⟨s, bs, rfl, h⟩ hc heven
    obtain ⟨s', bs', heq, h'⟩ := h.exec (hc s rfl) (heven s rfl)
    exact ⟨s', bs', heq, h'⟩

/-- The headers that taking 40 bytes at a multiple of 32 and releasing them writes. -/
theorem headers_aligned_takeAndRelease :
    Meets step (fun o c => ∀ s, o = some s → s.HeadersAligned c) (some (init fun _ => 0)) (takeAndRelease layout40) :=
  (headers_aligned_iff (fun _ => 0) _ (takeAndRelease_permitted alloc_layout40).1).2
    ⟨fun s _ => Or.inl (by decide), fun s _ => trivial, trivial⟩

def layout17 : Layout := { layoutAllBut16 with size := 17, sizeLe := by decide }

/-- Behind a block of 17 bytes the remainder gets a header at an odd address. -/
theorem headers_not_aligned :
    ¬ ∀ (m : ByteMem) (cs : List HeapCall),
      Meets step (fun o c => ∀ s, o = some s → s.Permitted c) (some (init m)) cs →
      Meets step (fun o c => ∀ s, o = some s → s.HeadersAligned c) (some (init m)) cs := by
  intro hall
  have hm := hall (fun _ => 0) [.alloc layout17] ⟨fun _ _ => trivial, trivial⟩
  have hgrid : OnGrid ([] ++ [⟨heapStart, kernelHeapSize⟩]) (init fun _ => 0) := onGrid_init _
  have hperm : (init fun _ => 0).Permitted (.alloc layout17) := trivial
  have heven := (hgrid.headersAligned_iff hperm).1 (hm.1 _ rfl)
  have hf : Fits layout17.align.toNat layout17.blockBytes ⟨heapStart, kernelHeapSize⟩ := by decide
  have hrest := (hgrid.rest_aligned_iff (by simp) hf).2 heven
  exact absurd (hrest ⟨heapStart + 17, kernelHeapSize - 17⟩ (by decide)) (by decide)

end HeapState

end AstralOS.Memory
