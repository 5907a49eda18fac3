import AstralOS.Memory.Heap

/-!
# The free list in memory

`Seg m p bs q` says that the headers of the blocks `bs` are linked in the memory `m` from the pointer `p` to the
pointer `q`.  The walks of the heap split such a segment into the nodes already passed and those ahead; the writes
change the header of one node, which lies inside its block and so apart from the other headers.  The results,
`allocImpl_spec` and `deallocImpl_spec`, refine the two functions to `FreeList.alloc` and `FreeList.release`.
-/

namespace AstralOS.Memory

open List BitVec

open FreeList (Sorted Fits alloc release rest join)

/-- The blocks are linked from `p` to `q`. -/
def Seg (m : ByteMem) : BitVec 64 → List Block → BitVec 64 → Prop
  | p, [], q => p = q
  | p, b :: bs, q => p.toNat = b.start ∧ (nodeSize m p).toNat = b.size ∧ Seg m (nodeNext m p) bs q

/-- A block of the heap with room for a header. -/
def InHeap (b : Block) : Prop := heapStart ≤ b.start ∧ headerSize ≤ b.size ∧ b.stop ≤ heapEnd

def Prev (pre : List Block) (prev : BitVec 64) : Prop :=
  match pre.getLast? with
  | none => prev = 0
  | some p => prev.toNat = p.start

variable {m m' : ByteMem} {p q r prev : BitVec 64} {b c : Block} {bs cs pre post : List Block}

theorem InHeap.bounds (h : InHeap b) : 0 < b.start ∧ 16 ≤ b.size ∧ b.start + b.size < 2 ^ 63 + 2 ^ 63 - 2 ^ 32 := by
  obtain ⟨h1, h2, h3⟩ := h
  have hs : heapStart = 0xFFFF800000000000 := rfl
  have he : heapEnd = 0xFFFF800006400000 := rfl
  have hh : headerSize = 16 := rfl
  unfold Block.stop at h3
  omega

theorem seg_append : Seg m p (bs ++ cs) r ↔ ∃ q, Seg m p bs q ∧ Seg m q cs r := by
  induction bs generalizing p with
  | nil => simp [Seg]
  | cons b bs ih =>
    simp only [List.cons_append, Seg, ih]
    constructor
    · simp_all
    · grind

def SameHeader (m m' : ByteMem) (b : Block) : Prop :=
  ∀ p : BitVec 64, p.toNat = b.start → nodeSize m' p = nodeSize m p ∧ nodeNext m' p = nodeNext m p

theorem Seg.congr (h : Seg m p bs q) (hs : ∀ b ∈ bs, SameHeader m m' b) : Seg m' p bs q := by
  induction bs generalizing p with
  | nil => exact h
  | cons b bs ih =>
    obtain ⟨hp, hsize, hnext⟩ := h
    obtain ⟨h1, h2⟩ := hs b (by simp) p hp
    refine ⟨hp, by rw [h1]; exact hsize, ?_⟩
    grind

/-! ### Writing headers -/

theorem toNat_add_eight {p : BitVec 64} (h : p.toNat + 8 < 2 ^ 64) : (p + 8).toNat = p.toNat + 8 := by
  simp [toNat_add]
  omega

variable {a v : BitVec 64}

theorem sameHeader_write64 (hb : InHeap b) (ha : a.toNat + 8 ≤ 2 ^ 64)
    (h : a.toNat + 8 ≤ b.start ∨ b.start + 16 ≤ a.toNat) : SameHeader m (m.write64 a v) b := by
  obtain ⟨-, h16, hlt⟩ := hb.bounds
  intro p hp
  have hp8 := toNat_add_eight (p := p) (by omega)
  constructor
  · exact ByteMem.read64_write64_of_apart (ByteMem.apart_of_toNat (by omega) ha (by omega))
  · exact ByteMem.read64_write64_of_apart (ByteMem.apart_of_toNat (by omega) ha (by omega))

theorem SameHeader.trans {m'' : ByteMem} (h : SameHeader m m' b) (h' : SameHeader m' m'' b) : SameHeader m m'' b := by
  intro p hp
  exact ⟨(h' p hp).1.trans (h p hp).1, (h' p hp).2.trans (h p hp).2⟩

variable {size : BitVec 64}

theorem nodeSize_writeNode {next : BitVec 64} (ha : a.toNat + 16 ≤ 2 ^ 64) :
    nodeSize (writeNode m a size next) a = size := by
  have ha8 := toNat_add_eight (p := a) (by omega)
  unfold nodeSize writeNode
  rw [ByteMem.read64_write64_of_apart (ByteMem.apart_of_toNat (by omega) (by omega) (by omega)), ByteMem.read64_write64]

theorem nodeNext_write64 : nodeNext (m.write64 (p + 8) v) p = v := ByteMem.read64_write64 _ _ _

theorem nodeNext_writeNode {next : BitVec 64} : nodeNext (writeNode m a size next) a = next := by
  unfold nodeNext writeNode
  rw [ByteMem.read64_write64]

/-- A memory in which only headers inside `b` may have changed. -/
def OnlyIn (b : Block) (m m' : ByteMem) : Prop :=
  ∀ c, InHeap c → c.stop ≤ b.start ∨ b.stop ≤ c.start → SameHeader m m' c

theorem OnlyIn.trans {m'' : ByteMem} (h : OnlyIn b m m') (h' : OnlyIn b m' m'') : OnlyIn b m m'' :=
  fun c hc hd => (h c hc hd).trans (h' c hc hd)

theorem onlyIn_write64 (hb : InHeap b) (hp : p.toNat = b.start) :
    OnlyIn b m (m.write64 p v) ∧ OnlyIn b m (m.write64 (p + 8) v) := by
  obtain ⟨-, hb16, hblt⟩ := hb.bounds
  have hp8 := toNat_add_eight (p := p) (by omega)
  constructor
  · intro c hc hd
    obtain ⟨-, hc16, -⟩ := hc.bounds
    unfold Block.stop at hd
    exact sameHeader_write64 hc (by omega) (by omega)
  · intro c hc hd
    obtain ⟨-, hc16, -⟩ := hc.bounds
    unfold Block.stop at hd
    exact sameHeader_write64 hc (by omega) (by omega)

theorem onlyIn_writeNode (m : ByteMem) (size next : BitVec 64) (hb : InHeap b) (hp : p.toNat = b.start) :
    OnlyIn b m (writeNode m p size next) :=
  (onlyIn_write64 hb hp).1.trans (onlyIn_write64 hb hp).2

theorem Seg.onlyIn (h : Seg m p bs q) (hin : ∀ c ∈ bs, InHeap c) (ho : OnlyIn b m m')
    (hd : ∀ c ∈ bs, c.stop ≤ b.start ∨ b.stop ≤ c.start) : Seg m' p bs q :=
  h.congr fun c hc => ho c (hin c hc) (hd c hc)

/-! ### The last node passed -/

theorem prev_nil : Prev [] prev ↔ prev = 0 := Iff.rfl

theorem prev_concat : Prev (pre ++ [b]) prev ↔ prev.toNat = b.start := by
  unfold Prev
  rw [getLast?_concat]

theorem seg_concat :
    Seg m p (pre ++ [b]) q ↔
      ∃ t : BitVec 64, Seg m p pre t ∧ t.toNat = b.start ∧ (nodeSize m t).toNat = b.size ∧ nodeNext m t = q := by
  rw [seg_append]
  rfl

theorem ne_zero_of_inHeap (hb : InHeap b) (hp : p.toNat = b.start) : p ≠ 0 := by
  intro h
  have := hb.bounds
  simp_all

variable {h : Heap}

theorem seg_setNext (hs : Sorted pre) (hin : ∀ c ∈ pre, InHeap c) (hseg : Seg h.mem h.freeList pre q)
    (hprev : Prev pre prev) (v : BitVec 64) :
    Seg (h.setNext prev v).mem (h.setNext prev v).freeList pre v ∧
      ∀ c, InHeap c → (∀ b ∈ pre, b.stop ≤ c.start) → SameHeader h.mem (h.setNext prev v).mem c := by
  rcases eq_nil_or_concat pre with rfl | ⟨pre, b, rfl⟩
  · rw [prev_nil] at hprev
    unfold Heap.setNext
    rw [if_pos hprev]
    exact ⟨rfl, fun c _ _ p _ => ⟨rfl, rfl⟩⟩
  · rw [concat_eq_append] at *
    rw [prev_concat] at hprev
    have hb := hin b (by simp)
    obtain ⟨t, hpre, ht, hsize, -⟩ := seg_concat.1 hseg
    obtain rfl : t = prev := eq_of_toNat_eq (ht.trans hprev.symm)
    have ho := (onlyIn_write64 (m := h.mem) (v := v) hb ht).2
    unfold Heap.setNext
    rw [if_neg (ne_zero_of_inHeap hb ht)]
    constructor
    · refine seg_concat.2 ⟨t, ?_, ht, ?_, ByteMem.read64_write64 _ _ _⟩
      · refine hpre.onlyIn (fun c hc => hin c (by simp [hc])) ho fun c hc => Or.inl ?_
        exact Nat.le_of_lt ((pairwise_append.1 hs).2.2 c hc b (by simp))
      · rw [← hsize]
        have := hb.bounds
        have hp8 := toNat_add_eight (p := t) (by omega)
        unfold nodeSize
        rw [ByteMem.read64_write64_of_apart (ByteMem.apart_of_toNat (by omega) (by omega) (by omega))]
    · intro c hc hd
      exact ho c hc (Or.inr (hd b (by simp)))

@[simp] theorem allocated_setNext (h : Heap) (prev v : BitVec 64) : (h.setNext prev v).allocated = h.allocated := by
  unfold Heap.setNext
  by_cases hp : prev = 0
  · rw [if_pos hp]
  · rw [if_neg hp]

/-! ### Allocation -/

theorem split_sorted {l : List Block} (h : Sorted (pre ++ b :: l)) :
    Sorted pre ∧ (∀ c ∈ pre, c.stop < b.start) ∧ (∀ c ∈ l, b.stop < c.start) ∧ Sorted l := by
  simp_all [Sorted, pairwise_append, pairwise_cons]

variable {layout : Layout}

theorem toNat_alignUp (hb : InHeap b) (hp : p.toNat = b.start) (hf : Fits layout.align.toNat layout.blockBytes b) :
    (alignUp p layout.align).toNat = roundUp layout.align.toNat b.start ∧
      (alignUp p layout.align + blockSize layout).toNat =
        b.start + (padding layout.align.toNat b.start + layout.blockBytes) := by
  have hadd := add_padding (x := b.start) layout.align_pos
  have := hb.bounds
  grind [Fits, layout.alignUp_align, toNat_ofNat, layout.blockSize_toNat]

theorem fits_node_iff (layout : Layout) (hp : p.toNat = b.start) (hsize : (nodeSize m p).toNat = b.size) :
    nodeSize m p ≥ alignUp p layout.align - p + blockSize layout ↔ Fits layout.align.toNat layout.blockBytes b := by
  have hreq := layout.requiredSize_toNat p
  simp [Fits, hp, ge_iff_le, le_def, hsize, hreq]

theorem splits_node_iff (hb : InHeap b) (hp : p.toNat = b.start) (hsize : (nodeSize m p).toNat = b.size)
    (hf : Fits layout.align.toNat layout.blockBytes b) :
    nodeSize m p > alignUp p layout.align - p + blockSize layout + 16 ↔
      padding layout.align.toNat b.start + layout.blockBytes + headerSize < b.size := by
  have hbb := hb.bounds
  have hreq := layout.requiredSize_toNat p
  have hh : headerSize = 16 := rfl
  grind [Fits, gt_iff_lt, lt_def]

theorem takeNode_spec (hs : Sorted (pre ++ b :: post))
    (hin : ∀ c ∈ pre ++ b :: post, InHeap c) (hpre : Seg h.mem h.freeList pre p) (hprev : Prev pre prev)
    (hpost : Seg h.mem p (b :: post) 0) (hf : Fits layout.align.toNat layout.blockBytes b) :
    let h' := h.takeNode prev p (alignUp p layout.align) (blockSize layout)
      (alignUp p layout.align - p + blockSize layout)
    h'.allocated = h.allocated + blockSize layout ∧
      Seg h'.mem h'.freeList (pre ++ (rest layout.align.toNat layout.blockBytes headerSize b ++ post)) 0 := by
  obtain ⟨hp, hsize, hnext⟩ := hpost
  obtain ⟨hspre, hlt, hgt, hspo⟩ := split_sorted hs
  have hb := hin b (by simp)
  have hbb := hb.bounds
  have hinpr : ∀ c ∈ pre, InHeap c := fun c hc => hin c (by simp [hc])
  have hinpo : ∀ c ∈ post, InHeap c := fun c hc => hin c (by simp [hc])
  have hreq := layout.requiredSize_toNat p
  rw [hp] at hreq
  have hcond := splits_node_iff hb hp hsize hf
  unfold Heap.takeNode rest
  dsimp only
  by_cases hspl : padding layout.align.toNat b.start + layout.blockBytes + headerSize < b.size
  · -- the rest of the block gets a header of its own behind the bytes ha out
    obtain ⟨-, hend⟩ := toNat_alignUp hb hp hf
    rw [if_pos (hcond.2 hspl), if_pos hspl]
    let d : Block := ⟨b.start + (padding layout.align.toNat b.start + layout.blockBytes),
      b.size - (padding layout.align.toNat b.start + layout.blockBytes)⟩
    have hd : InHeap d := by
      obtain ⟨h1, -, h3⟩ := hb
      unfold InHeap Block.stop at *
      dsimp only [d]
      omega
    have hdb := hd.bounds
    have ho := onlyIn_writeNode h.mem (nodeSize h.mem p - (alignUp p layout.align - p + blockSize layout))
      (nodeNext h.mem p) hd hend
    have hpre1 := hpre.onlyIn hinpr ho fun c hc => Or.inl (by
      have := hlt c hc
      dsimp only [d]
      omega)
    have hpost1 := hnext.onlyIn hinpo ho fun c hc => Or.inr (by
      have := hgt c hc
      unfold Block.stop at *
      dsimp only [d]
      omega)
    obtain ⟨hseg, hkeep⟩ := seg_setNext (h := { h with mem := _ }) hspre hinpr hpre1 hprev
      (alignUp p layout.align + blockSize layout)
    refine ⟨by simp, seg_append.2 ⟨_, hseg, ?_⟩⟩
    refine Seg.congr (m := writeNode h.mem _ _ _) ⟨hend, ?_, ?_⟩ fun c hc => hkeep c ?_ ?_
    · rw [nodeSize_writeNode (by omega), toNat_sub, hsize, hreq]
      dsimp only [d] at hdb ⊢
      omega
    · rw [nodeNext_writeNode]
      exact hpost1
    · rcases mem_cons.1 hc with rfl | hc
      · exact hd
      · exact hinpo c hc
    · intro e he
      have := hlt e he
      rcases mem_cons.1 hc with rfl | hc
      · dsimp only
        omega
      · have := hgt c hc
        unfold Block.stop at *
        omega
  · rw [if_neg (fun hgt => hspl (hcond.1 hgt)), if_neg hspl]
    obtain ⟨hseg, hkeep⟩ := seg_setNext hspre hinpr hpre hprev (nodeNext h.mem p)
    refine ⟨by simp, seg_append.2 ⟨_, hseg, ?_⟩⟩
    refine hnext.congr fun c hc => hkeep c (hinpo c hc) fun e he => ?_
    have := hlt e he
    have := hgt c hc
    unfold Block.stop at *
    omega

theorem allocLoop_spec {fuel : Nat} (hfuel : post.length < fuel)
    (hs : Sorted (pre ++ post)) (hin : ∀ c ∈ pre ++ post, InHeap c) (hpre : Seg h.mem h.freeList pre p)
    (hprev : Prev pre prev) (hpost : Seg h.mem p post 0) :
    match alloc layout.align.toNat layout.blockBytes headerSize post with
    | none => h.allocLoop (blockSize layout) layout.align fuel prev p = some (h, 0)
    | some (a, post') =>
      ∃ h', h.allocLoop (blockSize layout) layout.align fuel prev p = some (h', BitVec.ofNat 64 a) ∧
        h'.allocated = h.allocated + blockSize layout ∧ Seg h'.mem h'.freeList (pre ++ post') 0 := by
  induction post generalizing pre p prev fuel with
  | nil =>
    obtain ⟨fuel, rfl⟩ : ∃ n, fuel = n + 1 := ⟨fuel - 1, by omega⟩
    have hp : p = 0 := hpost
    simp [alloc, Heap.allocLoop, hp]
  | cons b post ih =>
    obtain ⟨fuel, rfl⟩ : ∃ n, fuel = n + 1 := ⟨fuel - 1, by omega⟩
    have hb := hin b (by simp)
    have hp := hpost.1
    have hfits := fits_node_iff layout hp hpost.2.1
    unfold alloc Heap.allocLoop
    rw [if_neg (ne_zero_of_inHeap hb hp)]
    by_cases hf : Fits layout.align.toNat layout.blockBytes b
    · obtain ⟨ha, hseg⟩ := takeNode_spec hs hin hpre hprev hpost hf
      simp_all [layout.alignUp_align, hp]
    · have hs' : Sorted ((pre ++ [b]) ++ post) := by simpa using hs
      have hfuel' : post.length < fuel := Nat.lt_of_succ_lt_succ hfuel
      have hnext := ih hfuel' hs' (by simpa using hin)
        (seg_concat.2 ⟨p, hpre, hp, hpost.2.1, rfl⟩) (prev_concat.2 hp) hpost.2.2
      grind

theorem length_lt_walkFuel (hs : Sorted bs) (hin : ∀ c ∈ bs, InHeap c) : bs.length < walkFuel := by
  have hh : headerSize = 16 := rfl
  have hlen : bs.length ≤ FreeList.total bs := FreeList.length_le_total fun c hc => by
    have := (hin c hc).2.1
    omega
  have ht : FreeList.total bs ≤ heapEnd - heapStart := by
    refine FreeList.total_le hs.disjoint fun c hc x hx => ?_
    obtain ⟨h1, -, h3⟩ := hin c hc
    have := hx.1
    have := hx.2
    omega
  have : heapEnd - heapStart < walkFuel := by decide
  omega

theorem allocImpl_spec (layout : Layout) (hs : Sorted bs) (hin : ∀ c ∈ bs, InHeap c)
    (hseg : Seg h.mem h.freeList bs 0) :
    match alloc layout.align.toNat layout.blockBytes headerSize bs with
    | none => h.allocImpl layout = some (h, 0)
    | some (a, bs') =>
      ∃ h', h.allocImpl layout = some (h', BitVec.ofNat 64 a) ∧
        h'.allocated = h.allocated + blockSize layout ∧ Seg h'.mem h'.freeList bs' 0 := by
  have hs' : Sorted ([] ++ bs) := hs
  exact allocLoop_spec (length_lt_walkFuel hs hin) hs' hin rfl rfl hseg

/-! ### Release -/

theorem findPlace_spec (addr : BitVec 64) {fuel : Nat} (hfuel : post.length < fuel)
    (hs : Sorted (pre ++ post)) (hin : ∀ c ∈ pre ++ post, InHeap c) (hpre : Seg h.mem h.freeList pre p)
    (hprev : Prev pre prev) (hpost : Seg h.mem p post 0) (hle : ∀ c ∈ pre, c.start ≤ addr.toNat) :
    ∃ pre' post' prev' cur', pre' ++ post' = pre ++ post ∧ Heap.findPlace h.mem addr fuel prev p = some (prev', cur') ∧
      Seg h.mem h.freeList pre' cur' ∧ Prev pre' prev' ∧ Seg h.mem cur' post' 0 ∧
      (∀ c ∈ pre', c.start ≤ addr.toNat) ∧ ∀ c ∈ post', addr.toNat < c.start := by
  induction post generalizing pre p prev fuel with
  | nil =>
    obtain ⟨fuel, rfl⟩ : ∃ n, fuel = n + 1 := ⟨fuel - 1, by omega⟩
    have hp : p = 0 := hpost
    grind [Heap.findPlace]
  | cons b post ih =>
    obtain ⟨fuel, rfl⟩ : ∃ n, fuel = n + 1 := ⟨fuel - 1, by omega⟩
    have hb := hin b (by simp)
    have hp := hpost.1
    unfold Heap.findPlace
    rw [if_neg (ne_zero_of_inHeap hb hp)]
    by_cases hgt : p > addr
    · have hlt : addr.toNat < b.start := by
        rw [← hp]
        exact hgt
      rw [if_pos hgt]
      refine ⟨pre, b :: post, prev, p, rfl, rfl, hpre, hprev, hpost, hle, ?_⟩
      intro c hc
      rcases mem_cons.1 hc with rfl | hc
      · exact hlt
      · have := (split_sorted hs).2.2.1 c hc
        unfold Block.stop at this
        omega
    · have hge : b.start ≤ addr.toNat := by
        rw [← hp]
        exact Nat.le_of_not_lt hgt
      rw [if_neg hgt]
      have hs' : Sorted ((pre ++ [b]) ++ post) := by simpa using hs
      have hfuel' : post.length < fuel := Nat.lt_of_succ_lt_succ hfuel
      have := ih hfuel' hs' (by simpa using hin)
        (seg_concat.2 ⟨p, hpre, hp, hpost.2.1, rfl⟩) (prev_concat.2 hp) hpost.2.2 (by
          intro c hc
          rcases mem_append.1 hc with hc | hc
          · exact hle c hc
          · grind)
      simpa using this

theorem writeReleased_spec (hb : InHeap b) (hp : p.toNat = b.start) (hsz : size.toNat = b.size)
    (hin : ∀ c ∈ post, InHeap c) (hpost : Seg m q post 0) (hle : ∀ c ∈ post, b.stop ≤ c.start) :
    OnlyIn b m (Heap.writeReleased m p size q) ∧ Seg (Heap.writeReleased m p size q) p (join b post) 0 := by
  have hbb := hb.bounds
  have hend : (p + size).toNat = b.stop := by
    simp [Block.stop, toNat_add, hp, hsz]
    omega
  unfold Heap.writeReleased
  cases post with
  | nil =>
    have hq : q = 0 := hpost
    rw [if_pos hq]
    refine ⟨onlyIn_writeNode m _ _ hb hp, hp, ?_, ?_⟩
    · rw [nodeSize_writeNode (by omega), hsz]
    · rw [nodeNext_writeNode]
      rfl
  | cons c post =>
    have hc := hin c (by simp)
    have hcb := hc.bounds
    obtain ⟨hqc, hsize, hnext⟩ := hpost
    rw [if_neg (ne_zero_of_inHeap hc hqc), FreeList.join_cons]
    have hto : q = p + size ↔ b.stop = c.start := by
      rw [← toNat_inj, hend, hqc]
      exact eq_comm
    by_cases ht : b.stop = c.start
    · rw [if_pos (hto.2 ht), if_pos ht]
      have ho := onlyIn_writeNode m (size + nodeSize m q) (nodeNext m q) hb hp
      refine ⟨ho, hp, ?_, ?_⟩
      · unfold Block.stop at ht
        rw [nodeSize_writeNode (by omega), toNat_add, hsz, hsize]
        exact Nat.mod_eq_of_lt (by omega)
      · rw [nodeNext_writeNode]
        exact hnext.onlyIn (fun d hd => hin d (by simp [hd])) ho fun d hd => Or.inr (hle d (by simp [hd]))
    · rw [if_neg (fun hq => ht (hto.1 hq)), if_neg ht]
      have ho := onlyIn_writeNode m size q hb hp
      refine ⟨ho, hp, ?_, ?_⟩
      · rw [nodeSize_writeNode (by omega), hsz]
      · rw [nodeNext_writeNode]
        exact Seg.onlyIn ⟨hqc, hsize, hnext⟩ hin ho fun d hd => Or.inr (hle d hd)

theorem linkReleased_zero (hprev : prev = 0) (hseg : Seg h.mem p bs 0) :
    Seg (h.linkReleased prev p).mem (h.linkReleased prev p).freeList bs 0 := by
  simp [Heap.linkReleased, hprev]
  omega

theorem linkReleased_concat {a : Block} (hs : Sorted (pre ++ [a])) (hin : ∀ d ∈ pre ++ [a], InHeap d)
    (hpre : Seg h.mem h.freeList (pre ++ [a]) q) (hprev : prev.toNat = a.start) (hinl : ∀ d ∈ c :: cs, InHeap d)
    (hseg : Seg h.mem p (c :: cs) 0) (hle : ∀ d ∈ c :: cs, a.stop ≤ d.start) :
    Seg (h.linkReleased prev p).mem (h.linkReleased prev p).freeList (pre ++ join a (c :: cs)) 0 := by
  have ha := hin a (by simp)
  have hc := hinl c (by simp)
  have hab := ha.bounds
  have hcb := hc.bounds
  have hi : ∀ d ∈ pre, InHeap d := fun d hd => hin d (by simp [hd])
  have hlt : ∀ d ∈ pre, d.stop ≤ a.start := fun d hd =>
    Nat.le_of_lt ((pairwise_append.1 hs).2.2 d hd a (by simp))
  obtain ⟨t, hpre0, ht, hsize, -⟩ := seg_concat.1 hpre
  obtain rfl : t = prev := eq_of_toNat_eq (ht.trans hprev.symm)
  have ht8 := toNat_add_eight (p := t) (by omega)
  have hto : t + nodeSize h.mem t = p ↔ a.stop = c.start := by
    have : (t + nodeSize h.mem t).toNat = a.stop := by
      simp [Block.stop, toNat_add, ht, hsize]
      omega
    rw [← toNat_inj, this, hseg.1]
  have hap : ByteMem.Apart (t + 8) t := ByteMem.apart_of_toNat (by omega) (by omega) (by omega)
  unfold Heap.linkReleased
  rw [if_neg (ne_zero_of_inHeap ha ht), FreeList.join_cons]
  by_cases hj : a.stop = c.start
  · rw [if_pos (hto.2 hj), if_pos hj]
    dsimp only
    have ho1 := (onlyIn_write64 (m := h.mem) (v := nodeSize h.mem t + nodeSize h.mem p) ha ht).1
    have ho := ho1.trans (onlyIn_write64 (v := nodeNext (h.mem.write64 t (nodeSize h.mem t + nodeSize h.mem p)) p) ha ht).2
    refine seg_append.2 ⟨t, hpre0.onlyIn hi ho fun d hd => Or.inl (hlt d hd), ht, ?_, ?_⟩
    · unfold nodeSize
      rw [ByteMem.read64_write64_of_apart hap, ByteMem.read64_write64]
      unfold Block.stop at hj
      have h2 := hseg.2.1
      grind [nodeSize]
    · have hnext : nodeNext (h.mem.write64 t (nodeSize h.mem t + nodeSize h.mem p)) p = nodeNext h.mem p :=
        (ho1 c hc (Or.inr (hle c (by simp))) p hseg.1).2
      rw [nodeNext_write64, hnext]
      rw [hnext] at ho
      exact hseg.2.2.onlyIn (fun d hd => hinl d (by simp [hd])) ho fun d hd => Or.inr (hle d (by simp [hd]))
  · rw [if_neg (fun h => hj (hto.1 h)), if_neg hj]
    have ho := (onlyIn_write64 (m := h.mem) (v := p) ha ht).2
    refine seg_append.2 ⟨t, hpre0.onlyIn hi ho fun d hd => Or.inl (hlt d hd), ht, ?_, ?_⟩
    · unfold nodeSize
      rw [ByteMem.read64_write64_of_apart hap]
      exact hsize
    · rw [nodeNext_write64]
      exact hseg.onlyIn hinl ho fun d hd => Or.inr (hle d hd)

@[simp] theorem allocated_linkReleased (h : Heap) (prev p : BitVec 64) :
    (h.linkReleased prev p).allocated = h.allocated := by
  unfold Heap.linkReleased
  by_cases hp : prev = 0
  · rw [if_pos hp]
  · rw [if_neg hp]
    by_cases hj : prev + nodeSize h.mem prev = p
    · rw [if_pos hj]
    · rw [if_neg hj]

/-- `dealloc_impl` of a block of the heap that no free block overlaps returns and does `FreeList.release` to the free
list, at the place of the block. -/
theorem deallocImpl_spec (hs : Sorted bs) (hin : ∀ c ∈ bs, InHeap c)
    (hseg : Seg h.mem h.freeList bs 0) (hp : p.toNat = b.start) (hsz : layout.blockBytes = b.size) (hb : InHeap b)
    (hd : ∀ c ∈ bs, Block.Disjoint b c) :
    ∃ pre post h', pre ++ post = bs ∧ (∀ c ∈ pre, c.stop ≤ b.start) ∧ (∀ c ∈ post, b.stop ≤ c.start) ∧
      h.deallocImpl p layout = some h' ∧ h'.allocated = h.allocated - blockSize layout ∧
      Seg h'.mem h'.freeList (release pre b post) 0 := by
  have hbb := hb.bounds
  have hs' : Sorted ([] ++ bs) := hs
  have hem : Seg h.mem h.freeList [] h.freeList := rfl
  have hprev0 : Prev [] 0 := rfl
  obtain ⟨pre, post, prev, cur, rfl, hfind, hpre, hprev, hpost, hle, hgt⟩ :=
    findPlace_spec p (length_lt_walkFuel hs hin) hs' hin hem hprev0 hseg (by simp)
  rw [hp] at hle hgt
  have hbef : ∀ c ∈ pre, c.stop ≤ b.start := by
    intro c hc
    by_contra hcon
    refine hd c (by simp [hc]) b.start ⟨Nat.le_refl _, ?_⟩ ⟨hle c hc, by omega⟩
    unfold Block.stop
    omega
  have hbeh : ∀ c ∈ post, b.stop ≤ c.start := by
    intro c hc
    have hcb := (hin c (by simp [hc])).bounds
    by_contra hcon
    refine hd c (by simp [hc]) c.start ⟨Nat.le_of_lt (hgt c hc), by omega⟩ ⟨Nat.le_refl _, ?_⟩
    unfold Block.stop
    omega
  have hinpr : ∀ c ∈ pre, InHeap c := fun c hc => hin c (by simp [hc])
  have hinpo : ∀ c ∈ post, InHeap c := fun c hc => hin c (by simp [hc])
  obtain ⟨ho, hjoin⟩ := writeReleased_spec hb hp (layout.blockSize_toNat.trans hsz) hinpo hpost hbeh
  have hpre' := hpre.onlyIn hinpr ho fun c hc => Or.inl (hbef c hc)
  let h1 : Heap := { h with mem := Heap.writeReleased h.mem p (blockSize layout) cur }
  refine ⟨pre, post, { h1.linkReleased prev p with allocated := (h1.linkReleased prev p).allocated - blockSize layout },
    rfl, hbef, hbeh, ?_, ?_, ?_⟩
  · unfold Heap.deallocImpl
    rw [hfind]
    rfl
  · simp [h1]
  · rcases eq_nil_or_concat pre with rfl | ⟨pre, a, rfl⟩
    · exact linkReleased_zero hprev hjoin
    · rw [concat_eq_append] at *
      rw [FreeList.release_concat]
      obtain ⟨c, cs, hcs⟩ := exists_cons_of_ne_nil (FreeList.join_ne_nil b post)
      have hs' : Sorted (pre ++ a :: post) := by simpa using hs
      rw [hcs] at hjoin ⊢
      refine linkReleased_concat (h := h1) (pairwise_append.1 hs).1 hinpr hpre' (prev_concat.1 hprev) ?_ hjoin ?_
      · intro d hd
        rw [← hcs] at hd
        rcases FreeList.mem_join hd with hd | ⟨hst, hsize, hstop⟩
        · exact hinpo d hd
        · refine ⟨by rw [hst]; exact hb.1, Nat.le_trans hb.2.1 hsize, ?_⟩
          rcases hstop with hstop | ⟨e, he, hstop⟩
          · rw [hstop]
            exact hb.2.2
          · rw [hstop]
            exact (hinpo e he).2.2
      · intro d hd
        rw [← hcs] at hd
        rcases FreeList.mem_join hd with hd | ⟨hst, -, -⟩
        · exact Nat.le_of_lt ((split_sorted hs').2.2.1 d hd)
        · simp_all [hst]

end AstralOS.Memory
