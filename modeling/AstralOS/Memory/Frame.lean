import AstralOS.Lib.Bitmap

/-!
# The physical frame allocator

The model of `memory/frame.rs`: a bitmap with one bit for each 4 KiB frame below 4 GiB, set when the frame is taken.
`init` clears the bits of the usable regions of the boot memory map and reserves the first MiB; `allocate` searches
for a clear bit from a moving hint and once more from the start.  The results say what each operation does to the
bits: `test_init` and `usedFrames_init` for the boot, `allocate_cases` for both outcomes of an allocation,
`deallocate_of_test` for a release.
-/

namespace AstralOS.Memory

def pageSize : Nat := 4096

def maxFrames : Nat := 1024 * 1024

def bitmapLen : Nat := maxFrames / 8 / 8

/-! ### Physical addresses -/

/-- The bits `PhysAddr::new` keeps: the page boundary of a 52-bit address. -/
def physMask : BitVec 64 := 0x000FFFFFFFFFF000#64

/-- A physical page address.  The only constructor masks its argument, so every value is masked. -/
@[ext] structure PhysAddr where
  addr : BitVec 64
  masked : addr &&& physMask = addr
  deriving DecidableEq

namespace PhysAddr

def new (addr : BitVec 64) : PhysAddr :=
  ⟨addr &&& physMask, by rw [BitVec.and_assoc, BitVec.and_self]⟩

/-- The address of the page in the direct map at `hhdm` (`to_virt`). -/
def toVirt (p : PhysAddr) (hhdm : BitVec 64) : BitVec 64 := p.addr + hhdm

def frame (p : PhysAddr) : Nat := p.addr.toNat / pageSize

def ofFrame (f : Nat) : PhysAddr := new (BitVec.ofNat 64 (f * pageSize))

theorem getLsbD_physMask (i : Nat) : physMask.getLsbD i = (decide (12 ≤ i) && decide (i < 52)) := by
  by_cases h : i < 64
  · have : ∀ j : Fin 64, physMask.getLsbD j = (decide (12 ≤ j.val) && decide (j.val < 52)) := by decide
    exact this ⟨i, h⟩
  · rw [BitVec.getLsbD_of_ge _ _ (by omega)]
    simp
    omega

theorem new_toNat (x : BitVec 64) : (new x).addr.toNat = x.toNat % 2 ^ 52 / pageSize * pageSize := by
  apply Nat.eq_of_testBit_eq
  intro i
  have hp : pageSize = 2 ^ 12 := rfl
  rw [hp, Nat.testBit_mul_two_pow, Nat.testBit_div_two_pow, Nat.testBit_mod_two_pow]
  have hx : (new x).addr.toNat.testBit i = (x.getLsbD i && physMask.getLsbD i) := by
    rw [← BitVec.getLsbD_and]
    rfl
  rw [hx, getLsbD_physMask]
  by_cases h : 12 ≤ i
  · have : i - 12 + 12 = i := by omega
    simp [h, this, BitVec.getLsbD, Bool.and_comm]
  · simp [h]

theorem toNat_eq (p : PhysAddr) : p.addr.toNat = p.frame * pageSize := by
  have h := new_toNat p.addr
  have : new p.addr = p := PhysAddr.ext p.masked
  rw [this] at h
  unfold frame
  rw [h, Nat.mul_div_cancel _ (by decide)]

theorem frame_lt (p : PhysAddr) : p.frame < 2 ^ 40 := by
  have h := new_toNat p.addr
  have : new p.addr = p := PhysAddr.ext p.masked
  rw [this] at h
  have hp : pageSize = 4096 := rfl
  unfold frame
  rw [hp] at h ⊢
  omega

theorem eq_of_frame_eq {p q : PhysAddr} (h : p.frame = q.frame) : p = q := by
  apply PhysAddr.ext
  apply BitVec.eq_of_toNat_eq
  rw [p.toNat_eq, q.toNat_eq, h]

theorem frame_ofFrame {f : Nat} (h : f < 2 ^ 40) : (ofFrame f).frame = f := by
  unfold frame ofFrame
  have hp : pageSize = 4096 := rfl
  rw [new_toNat, BitVec.toNat_ofNat, hp, Nat.mod_eq_of_lt (a := f * 4096) (by omega), Nat.mod_eq_of_lt (by omega)]
  omega

end PhysAddr

/-! ### The boot memory map -/

/-- The kind of a memory map entry; the allocator only tells `USABLE` from the others. -/
inductive EntryType
  | usable
  | other (code : Nat)
  deriving DecidableEq

structure Entry where
  base : BitVec 64
  length : BitVec 64
  entryType : EntryType
  deriving DecidableEq

/-! ### The allocator -/

structure FrameAllocator where
  bitmap : Bitmap 64 bitmapLen
  totalFrames : Nat
  usedFrames : BitVec 64
  startSearch : Nat

namespace FrameAllocator

def new : FrameAllocator :=
  { bitmap := Vector.replicate bitmapLen (BitVec.allOnes 64), totalFrames := 0, usedFrames := 0, startSearch := 0 }

section

variable (a : FrameAllocator)

def freeFrameInitial (frame : Nat) : FrameAllocator :=
  if maxFrames ≤ frame then a else { a with bitmap := a.bitmap.clear frame }

def allocateFrameAt (frame : Nat) : FrameAllocator :=
  if maxFrames ≤ frame then a
  else
    { a with
      bitmap := a.bitmap.mark frame
      usedFrames := if a.bitmap.test frame then a.usedFrames else a.usedFrames + 1 }

/-- Free the frames of one usable entry: the body of the loop of `init` without `max_addr`. -/
def freeEntry (e : Entry) : FrameAllocator :=
  (List.range' (e.base.toNat / pageSize) (e.length.toNat / pageSize)).foldl
    (fun a frame => if frame < maxFrames then a.freeFrameInitial frame else a) a

end

/-- The loop of `init` over the memory map, with `max_addr`. -/
def freeUsable (a : FrameAllocator) (maxAddr : BitVec 64) : List Entry → FrameAllocator × BitVec 64
  | [] => (a, maxAddr)
  | e :: es =>
    if e.entryType = .usable then
      let stop := e.base + e.length
      freeUsable (a.freeEntry e) (if stop > maxAddr then stop else maxAddr) es
    else freeUsable a maxAddr es

def init (a : FrameAllocator) (memoryMap : List Entry) : FrameAllocator :=
  let a := { a with bitmap := Vector.replicate bitmapLen (BitVec.allOnes 64) }
  let (a, maxAddr) := a.freeUsable 0 memoryMap
  let a := { a with totalFrames := min (maxAddr.toNat / pageSize) maxFrames }
  (List.range (1024 * 1024 / pageSize)).foldl allocateFrameAt a

def firstZeroBit (word : BitVec 64) : Option Nat :=
  (List.range 64).find? fun bit => word &&& (1#64 <<< bit) == 0#64

/-- The search loop of `allocate`: word and bit of the first clear bit from word `start` on. -/
def search (a : FrameAllocator) (start : Nat) : Option (Nat × Nat) :=
  (List.range' start (bitmapLen - start)).findSome? fun i =>
    let word := a.bitmap.word i
    if word != BitVec.allOnes 64 then (firstZeroBit word).map fun bit => (i, bit) else none

/-- Allocate a frame (`allocate`).  The allocator is behind a lock, so the exchange of the word can only fail
spuriously, and then it is tried again with the same word. -/
def allocate (a : FrameAllocator) : Option PhysAddr × FrameAllocator :=
  match a.search a.startSearch with
  | some (i, bit) =>
    (some (PhysAddr.ofFrame (i * 64 + bit)),
      { a with
        bitmap := a.bitmap.setIfInBounds i (a.bitmap.word i ||| (1#64 <<< bit))
        usedFrames := a.usedFrames + 1
        startSearch := i })
  | none => if 0 < a.startSearch then allocate { a with startSearch := 0 } else (none, a)
termination_by a.startSearch

def deallocate (a : FrameAllocator) (addr : PhysAddr) : FrameAllocator :=
  if maxFrames ≤ addr.frame then a
  else
    { a with
      bitmap := a.bitmap.clear addr.frame
      usedFrames := if a.bitmap.test addr.frame then a.usedFrames - 1 else a.usedFrames }

def freeFrames (a : FrameAllocator) : Nat := a.totalFrames - a.usedFrames.toNat

/-! ### Allocation -/

theorem bitmap_bits : 64 * bitmapLen = maxFrames := by decide

theorem and_mask_eq_zero (x : BitVec 64) {b : Nat} (hb : b < 64) :
    (x &&& (1#64 <<< b) == 0#64) = !x.getLsbD b := by
  rw [← Bitmap.and_mask_ne_zero x hb]
  simp only [bne, Bool.not_not]

variable {bit : Nat}

theorem firstZeroBit_some {word : BitVec 64} (h : firstZeroBit word = some bit) :
    bit < 64 ∧ word.getLsbD bit = false := by
  have hlt : bit < 64 := List.mem_range.1 (List.mem_of_find?_eq_some h)
  have hz := List.find?_some h
  rw [and_mask_eq_zero word hlt] at hz
  exact ⟨hlt, by simpa using hz⟩

theorem firstZeroBit_none {word : BitVec 64} (h : firstZeroBit word = none) (hb : bit < 64) :
    word.getLsbD bit = true := by
  have := List.find?_eq_none.1 h bit (List.mem_range.2 hb)
  grind

variable {i : Nat}

theorem div_mod_frame (h : bit < 64) : (i * 64 + bit) / 64 = i ∧ (i * 64 + bit) % 64 = bit := by
  omega

variable {a : FrameAllocator} {start : Nat}

theorem search_some (h : a.search start = some (i, bit)) :
    bit < 64 ∧ i * 64 + bit < maxFrames ∧ a.bitmap.test (i * 64 + bit) = false := by
  obtain ⟨j, hj, hsome⟩ := List.exists_of_findSome?_eq_some h
  have hjlt : j < bitmapLen := by
    have := List.mem_range'_1.1 hj
    omega
  by_cases hw : (a.bitmap.word j != BitVec.allOnes 64) = true
  · rw [if_pos hw, Option.map_eq_some_iff] at hsome
    obtain ⟨b, hb, heq⟩ := hsome
    cases heq
    obtain ⟨hlt, hz⟩ := firstZeroBit_some hb
    obtain ⟨hd, hm⟩ := div_mod_frame (i := i) hlt
    refine ⟨hlt, ?_, ?_⟩
    · have := bitmap_bits
      omega
    · rw [Bitmap.test_eq_getLsbD (by decide), hd, hm]
      exact hz
  · rw [if_neg hw] at hsome
    cases hsome

variable {f : Nat}

theorem test_of_word_none (h : (if a.bitmap.word (f / 64) != BitVec.allOnes 64 then
      (firstZeroBit (a.bitmap.word (f / 64))).map fun bit => (f / 64, bit) else none) = none) :
    a.bitmap.test f = true := by
  rw [Bitmap.test_eq_getLsbD (by decide)]
  by_cases hw : (a.bitmap.word (f / 64) != BitVec.allOnes 64) = true
  · rw [if_pos hw, Option.map_eq_none_iff] at h
    exact firstZeroBit_none h (by omega)
  · simp only [bne_iff_ne, ne_eq, Decidable.not_not] at hw
    rw [hw, BitVec.getLsbD_allOnes]
    simp
    omega

theorem search_none (h : a.search start = none)
    (hs : start ≤ f / 64) (hf : f < maxFrames) : a.bitmap.test f = true := by
  have hlt : f / 64 < bitmapLen := by
    have := bitmap_bits
    omega
  exact test_of_word_none (List.findSome?_eq_none_iff.1 h (f / 64) (List.mem_range'_1.2 ⟨hs, by omega⟩))

theorem search_first (h : a.search start = some (i, bit)) :
    start ≤ i ∧ ∀ f, 64 * start ≤ f → f < i * 64 + bit → a.bitmap.test f = true := by
  obtain ⟨before, j, after, hr, hj, hbe⟩ := List.findSome?_eq_some_iff.1 h
  by_cases hw : (a.bitmap.word j != BitVec.allOnes 64) = true
  · rw [if_pos hw, Option.map_eq_some_iff] at hj
    obtain ⟨b, hb, heq⟩ := hj
    cases heq
    obtain ⟨k, -, rfl, hrest⟩ := List.range'_eq_append_iff.1 hr
    obtain ⟨hi, -⟩ := List.range'_eq_cons_iff.1 hrest.symm
    have hbit := (firstZeroBit_some hb).1
    refine ⟨by omega, fun f hs hf => ?_⟩
    by_cases hword : f / 64 = i
    · have hset := (List.find?_range_eq_some.1 hb).2.2 (f % 64) (by omega)
      rw [and_mask_eq_zero _ (by omega), Bool.not_not] at hset
      rw [Bitmap.test_eq_getLsbD (by decide), hword]
      exact hset
    · exact test_of_word_none (hbe (f / 64) (List.mem_range'_1.2 (by omega)))
  · rw [if_neg hw] at hj
    cases hj

theorem mark_eq (m : Bitmap 64 bitmapLen) (h : bit < 64) :
    m.setIfInBounds i (m.word i ||| (1#64 <<< bit)) = m.mark (i * 64 + bit) := by
  obtain ⟨hd, hm⟩ := div_mod_frame (i := i) h
  unfold Bitmap.mark
  rw [hd, hm]

section

variable (a : FrameAllocator)

theorem allocate_cases :
    (∃ f start, f < maxFrames ∧ a.bitmap.test f = false ∧
      a.allocate = (some (PhysAddr.ofFrame f),
        { a with bitmap := a.bitmap.mark f, usedFrames := a.usedFrames + 1, startSearch := start })) ∨
    (∀ f, f < maxFrames → a.bitmap.test f = true) ∧ a.allocate = (none, { a with startSearch := 0 }) := by
  induction a using allocate.induct with
  | case1 a i bit h =>
    obtain ⟨hbit, hlt, hfree⟩ := search_some h
    refine Or.inl ⟨i * 64 + bit, i, hlt, hfree, ?_⟩
    rw [allocate, h]
    dsimp only
    rw [mark_eq _ hbit]
  | case2 a h hpos ih =>
    rw [allocate, h]
    rw [if_pos hpos]
    exact ih
  | case3 a h hpos =>
    have hzero : a.startSearch = 0 := by omega
    refine Or.inr ⟨fun f hf => search_none h (by omega) hf, ?_⟩
    rw [allocate, h]
    rw [if_neg hpos, ← hzero]

def Free (f : Nat) : Prop := f < maxFrames ∧ a.bitmap.test f = false

def avail : Nat := ((Finset.range maxFrames).filter fun f => a.bitmap.test f = false).card

end

theorem test_mark_frame (hf : f < maxFrames) (g : Nat) :
    (a.bitmap.mark f).test g = (a.bitmap.test g || decide (f = g)) := by
  rw [Bitmap.test_mark (by decide), bitmap_bits]
  by_cases hg : f = g
  · subst hg
    simp [hf]
  · simp [hg]

theorem avail_congr {a' : FrameAllocator} (h : ∀ f, f < maxFrames → (a'.bitmap.test f = false ↔ a.bitmap.test f = false)) :
    a'.avail = a.avail :=
  congrArg Finset.card (Finset.filter_congr fun f hf => h f (Finset.mem_range.1 hf))

theorem avail_eq_zero_iff (a : FrameAllocator) : a.avail = 0 ↔ ∀ f, ¬a.Free f := by
  simp [avail, Free, Finset.card_eq_zero, Finset.filter_eq_empty_iff, Finset.mem_range, not_and]

theorem avail_eq_succ {a' : FrameAllocator} (hf : a.Free f) (h : ∀ g, a'.Free g ↔ a.Free g ∧ g ≠ f) :
    a.avail = a'.avail + 1 := by
  have hmem : ∀ (b : FrameAllocator) g, g ∈ (Finset.range maxFrames).filter (fun g => b.bitmap.test g = false) ↔ b.Free g := by
    intro b g
    rw [Finset.mem_filter, Finset.mem_range, Free]
  have her : (Finset.range maxFrames).filter (fun g => a'.bitmap.test g = false) =
      ((Finset.range maxFrames).filter fun g => a.bitmap.test g = false).erase f := by
    ext g
    rw [Finset.mem_erase, hmem, hmem, h g, and_comm]
  have hpos := Finset.card_pos.2 ⟨f, (hmem a f).2 hf⟩
  unfold avail
  rw [her, Finset.card_erase_of_mem ((hmem a f).2 hf)]
  omega

section

variable (a : FrameAllocator)

theorem allocate_spec :
    (∃ p, a.allocate.1 = some p ∧ a.Free p.frame ∧ (∀ f, a.allocate.2.Free f ↔ a.Free f ∧ f ≠ p.frame) ∧
      a.avail = a.allocate.2.avail + 1) ∨
    (a.allocate.1 = none ∧ (∀ f, a.allocate.2.Free f ↔ a.Free f) ∧ a.avail = 0 ∧ a.allocate.2.avail = 0) := by
  rcases allocate_cases a with ⟨f, start, hf, hfree, heq⟩ | ⟨hall, heq⟩
  · have hfr : (PhysAddr.ofFrame f).frame = f := PhysAddr.frame_ofFrame (Nat.lt_of_lt_of_le hf (by decide))
    have htake : ∀ g, a.allocate.2.Free g ↔ a.Free g ∧ g ≠ f := by
      intro g
      simp [Free, heq, test_mark_frame hf, Bool.or_eq_false_iff, decide_eq_false_iff_not, and_assoc, @eq_comm _ f g]
    refine Or.inl ⟨PhysAddr.ofFrame f, by rw [heq], ?_, ?_, avail_eq_succ ⟨hf, hfree⟩ htake⟩
    · rw [hfr]
      exact ⟨hf, hfree⟩
    · rw [hfr]
      exact htake
  · have hem : a.avail = 0 := by
      rw [avail_eq_zero_iff]
      rintro f ⟨hf, hfree⟩
      rw [hall f hf] at hfree
      cases hfree
    refine Or.inr ⟨by rw [heq], ?_, hem, ?_⟩
    · intro f
      rw [heq]
      rfl
    · rw [heq]
      exact hem

def TakenBelow (f : Nat) : Prop := ∀ g, 64 * (f / 64) ≤ g → g < f → a.bitmap.test g = true

def take (f : Nat) : FrameAllocator :=
  { a with bitmap := a.bitmap.mark f, usedFrames := a.usedFrames + 1, startSearch := f / 64 }

theorem allocate_take :
    (∃ f, a.Free f ∧ a.TakenBelow f ∧ a.allocate = (some (PhysAddr.ofFrame f), a.take f)) ∨ a.allocate.1 = none := by
  induction a using allocate.induct with
  | case1 a i bit h =>
    obtain ⟨hbit, hlt, hfree⟩ := search_some h
    obtain ⟨hs, hf⟩ := search_first h
    obtain ⟨hd, -⟩ := div_mod_frame (i := i) hbit
    refine Or.inl ⟨i * 64 + bit, ⟨hlt, hfree⟩, ?_, ?_⟩
    · intro g hg
      exact hf g (by omega)
    · rw [allocate, h, take, hd]
      dsimp only
      rw [mark_eq _ hbit]
  | case2 a h hpos ih =>
    have heq : a.allocate = { a with startSearch := 0 }.allocate := by
      rw [allocate, h]
      exact if_pos hpos
    rw [heq]
    exact ih
  | case3 a h hpos =>
    simp [allocate, h, hpos]

end

theorem allocate_of_first (hs : 64 * a.startSearch ≤ f) (hf : a.Free f)
    (hb : ∀ g, 64 * a.startSearch ≤ g → g < f → ¬a.Free g) :
    a.allocate = (some (PhysAddr.ofFrame f), a.take f) := by
  cases h : a.search a.startSearch with
  | none =>
    have := search_none h (f := f) (by omega) hf.1
    rw [hf.2] at this
    cases this
  | some r =>
    obtain ⟨i, bit⟩ := r
    obtain ⟨hbit, hlt, hfree⟩ := search_some h
    obtain ⟨hst, hfi⟩ := search_first h
    obtain ⟨hd, -⟩ := div_mod_frame (i := i) hbit
    have heq : i * 64 + bit = f := by
      by_contra hne
      by_cases hlt' : f < i * 64 + bit
      · have := hfi f hs hlt'
        rw [hf.2] at this
        cases this
      · exact hb (i * 64 + bit) (by omega) (by omega) ⟨hlt, hfree⟩
    rw [allocate, h, take, ← heq, hd]
    dsimp only
    rw [mark_eq _ hbit]

theorem free_take (hf : f < maxFrames) (g : Nat) : (a.take f).Free g ↔ a.Free g ∧ g ≠ f := by
  unfold Free take
  rw [test_mark_frame hf, Bool.or_eq_false_iff, decide_eq_false_iff_not, and_assoc, @eq_comm _ f g]

theorem exists_allocate (hf : a.Free f) : ∃ p, a.allocate.1 = some p := by
  rcases a.allocate_spec with ⟨p, hp, -⟩ | ⟨-, -, hem, -⟩
  · exact ⟨p, hp⟩
  · exact absurd hf ((avail_eq_zero_iff a).1 hem f)

theorem allocate_of_least (hf : a.Free f) (hl : ∀ g, a.Free g → f ≤ g ∧ g / 64 = f / 64) :
    a.allocate = (some (PhysAddr.ofFrame f), a.take f) := by
  rcases a.allocate_take with ⟨f', hf', hb, heq⟩ | hnone
  · obtain ⟨hle, hword⟩ := hl f' hf'
    rcases Nat.eq_or_lt_of_le hle with rfl | hlt
    · exact heq
    · have := hb f (by omega) hlt
      rw [hf.2] at this
      cases this
  · obtain ⟨p, hp⟩ := exists_allocate hf
    rw [hnone] at hp
    cases hp

/-! ### Release -/

theorem deallocate_of_test {p : PhysAddr} (hp : p.frame < maxFrames) (ht : a.bitmap.test p.frame = true) :
    a.deallocate p = { a with bitmap := a.bitmap.clear p.frame, usedFrames := a.usedFrames - 1 } := by
  unfold deallocate
  rw [if_neg (by omega), if_pos ht]

theorem free_deallocate (a : FrameAllocator) (p : PhysAddr) (f : Nat) :
    (a.deallocate p).Free f ↔ a.Free f ∨ f < maxFrames ∧ f = p.frame := by
  unfold deallocate Free
  by_cases hp : maxFrames ≤ p.frame
  · rw [if_pos hp, or_iff_left]
    omega
  · rw [if_neg hp]
    rw [Bitmap.test_clear (by decide), Bool.and_eq_false_iff, decide_eq_false_iff_not, not_not, @eq_comm _ p.frame f]
    exact and_or_left

/-! ### The boot -/

theorem freeFrames_foldl (fs : List Nat) (a : FrameAllocator) :
    ∃ m, fs.foldl (fun a frame => if frame < maxFrames then a.freeFrameInitial frame else a) a = { a with bitmap := m } ∧
      ∀ f, m.test f = (a.bitmap.test f && decide (f ∉ fs)) := by
  induction fs generalizing a with
  | nil => exact ⟨a.bitmap, rfl, fun f => by simp⟩
  | cons g fs ih =>
    rw [List.foldl_cons]
    by_cases hg : g < maxFrames
    · rw [if_pos hg]
      unfold freeFrameInitial
      rw [if_neg (by omega)]
      obtain ⟨m, hm, htest⟩ := ih { a with bitmap := a.bitmap.clear g }
      refine ⟨m, hm, fun f => ?_⟩
      rw [htest, Bitmap.test_clear (by decide)]
      by_cases hf : g = f
      · simp [hf]
      · have : f ≠ g := fun h => hf h.symm
        simp [hf, this]
    · rw [if_neg hg]
      obtain ⟨m, hm, htest⟩ := ih a
      refine ⟨m, hm, fun f => ?_⟩
      rw [htest]
      by_cases hf : f = g
      · -- a frame past the bitmap reads as free before and after
        have : a.bitmap.test f = false := Bitmap.test_of_length_le (by decide) _ (by rw [bitmap_bits]; omega)
        simp [this]
      · simp [hf]

end FrameAllocator

/-- Frame `f` lies wholly inside the usable entry `e`. -/
def Entry.Holds (e : Entry) (f : Nat) : Prop :=
  e.entryType = .usable ∧ e.base.toNat ≤ f * pageSize ∧
    f * pageSize + pageSize ≤ e.base.toNat + e.length.toNat

instance (e : Entry) (f : Nat) : Decidable (e.Holds f) := inferInstanceAs (Decidable (_ ∧ _ ∧ _))

def Usable (memoryMap : List Entry) (f : Nat) : Prop := ∃ e ∈ memoryMap, e.Holds f

instance (memoryMap : List Entry) (f : Nat) : Decidable (Usable memoryMap f) :=
  inferInstanceAs (Decidable (∃ e ∈ memoryMap, e.Holds f))

/-- The usable frames below 1 MiB, which `init` reserves. -/
def lowUsable (memoryMap : List Entry) : Nat :=
  (List.range (1024 * 1024 / pageSize)).countP fun f => decide (Usable memoryMap f)

/-- A frame the allocator may hand out: usable, at or above 1 MiB and below 4 GiB. -/
def Allocatable (memoryMap : List Entry) (f : Nat) : Prop :=
  Usable memoryMap f ∧ 1024 * 1024 ≤ f * pageSize ∧ f * pageSize + pageSize ≤ 4 * 1024 * 1024 * 1024

instance (memoryMap : List Entry) (f : Nat) : Decidable (Allocatable memoryMap f) :=
  inferInstanceAs (Decidable (_ ∧ _ ∧ _))

def PageAligned (memoryMap : List Entry) : Prop :=
  ∀ e ∈ memoryMap, e.entryType = .usable → pageSize ∣ e.base.toNat

def Entry.Frees (e : Entry) (f : Nat) : Prop :=
  e.entryType = .usable ∧ e.base.toNat / pageSize ≤ f ∧ f < e.base.toNat / pageSize + e.length.toNat / pageSize

instance (e : Entry) (f : Nat) : Decidable (e.Frees f) := inferInstanceAs (Decidable (_ ∧ _ ∧ _))

def Freed (memoryMap : List Entry) (f : Nat) : Prop := ∃ e ∈ memoryMap, e.Frees f

instance (memoryMap : List Entry) (f : Nat) : Decidable (Freed memoryMap f) :=
  inferInstanceAs (Decidable (∃ e ∈ memoryMap, e.Frees f))

theorem freed_cons (e : Entry) (es : List Entry) (f : Nat) : Freed (e :: es) f ↔ e.Frees f ∨ Freed es f := by
  simp [Freed]

theorem freed_iff_usable {memoryMap : List Entry} (ha : PageAligned memoryMap) (f : Nat) :
    Freed memoryMap f ↔ Usable memoryMap f := by
  have hp : pageSize = 4096 := rfl
  refine exists_congr fun e => and_congr_right fun he => and_congr_right fun hu => ?_
  obtain ⟨k, hk⟩ := ha e he hu
  simp [hk, hp]
  omega

namespace FrameAllocator

theorem freeUsable_spec (es : List Entry) (a : FrameAllocator) (x : BitVec 64) :
    ∃ m, (a.freeUsable x es).1 = { a with bitmap := m } ∧
      ∀ f, m.test f = (a.bitmap.test f && !decide (Freed es f)) := by
  induction es generalizing a x with
  | nil => exact ⟨a.bitmap, rfl, fun f => by simp [Freed]⟩
  | cons e es ih =>
    unfold freeUsable
    by_cases hu : e.entryType = .usable
    · rw [if_pos hu]
      obtain ⟨m1, hm1, ht1⟩ := freeFrames_foldl (List.range' (e.base.toNat / pageSize) (e.length.toNat / pageSize)) a
      have hfree : a.freeEntry e = { a with bitmap := m1 } := hm1
      rw [hfree]
      obtain ⟨m, hm, ht⟩ := ih { a with bitmap := m1 } _
      refine ⟨m, hm, fun f => ?_⟩
      have hmem : f ∈ List.range' (e.base.toNat / pageSize) (e.length.toNat / pageSize) ↔ e.Frees f := by
        rw [List.mem_range'_1, Entry.Frees, and_iff_right hu]
      rw [ht, ht1]
      simp [freed_cons, hmem, Bool.and_assoc]
    · rw [if_neg hu]
      obtain ⟨m, hm, ht⟩ := ih a x
      refine ⟨m, hm, fun f => ?_⟩
      have : ¬ e.Frees f := fun h => hu h.1
      rw [ht]
      simp [freed_cons, this]

theorem reserve_foldl (a : FrameAllocator) {n : Nat} (hn : n ≤ maxFrames) :
    ∃ m, (List.range n).foldl allocateFrameAt a =
        { a with
          bitmap := m
          usedFrames := a.usedFrames + BitVec.ofNat 64 ((List.range n).countP fun f => !a.bitmap.test f) } ∧
      ∀ f, m.test f = (a.bitmap.test f || decide (f < n)) := by
  induction n with
  | zero => exact ⟨a.bitmap, by simp, fun f => by simp⟩
  | succ n ih =>
    obtain ⟨m, hm, ht⟩ := ih (by omega)
    rw [List.range_succ, List.foldl_append, hm, List.foldl_cons, List.foldl_nil]
    unfold allocateFrameAt
    rw [if_neg (by omega)]
    have hn' : m.test n = a.bitmap.test n := by simp [ht]
    refine ⟨m.mark n, ?_, fun f => ?_⟩
    · rw [hn', List.countP_append]
      cases h : a.bitmap.test n
      · simp [h, BitVec.ofNat_add, BitVec.add_assoc]
      · simp [h]
    · rw [Bitmap.test_mark (by decide), ht, bitmap_bits]
      by_cases hf : n = f
      · subst hf
        simp
        omega
      · have : f < n + 1 ↔ f < n := by omega
        simp [hf, this]

theorem init_eq (memoryMap : List Entry) :
    ∃ m : Bitmap 64 bitmapLen,
      new.init memoryMap = (List.range (1024 * 1024 / pageSize)).foldl allocateFrameAt
        ⟨m, min ((new.freeUsable 0 memoryMap).2.toNat / pageSize) maxFrames, 0, 0⟩ ∧
      ∀ f, f < maxFrames → m.test f = !decide (Freed memoryMap f) := by
  obtain ⟨m, hm, ht⟩ := freeUsable_spec memoryMap new 0
  refine ⟨m, ?_, fun f hf => ?_⟩
  · have h0 : ({ new with bitmap := Vector.replicate bitmapLen (BitVec.allOnes 64) } : FrameAllocator) = new := rfl
    unfold init
    rw [h0]
    dsimp only
    rw [hm]
    rfl
  · have hnew : new.bitmap.test f = decide (f < maxFrames) := by
      exact Bitmap.test_replicate_allOnes (by decide) f
    rw [ht, hnew, decide_eq_true hf, Bool.true_and]

/-- The boot: the allocatable frames are free, every other frame is taken, and the counter is the number of usable
frames below 1 MiB. -/
theorem init_spec (memoryMap : List Entry) (ha : PageAligned memoryMap) :
    (∀ f, f < maxFrames → ((new.init memoryMap).bitmap.test f = false ↔ Allocatable memoryMap f)) ∧
      (new.init memoryMap).usedFrames = BitVec.ofNat 64 (lowUsable memoryMap) := by
  obtain ⟨m, hinit, ht⟩ := init_eq memoryMap
  obtain ⟨m', hm', ht'⟩ := reserve_foldl ⟨m, min ((new.freeUsable 0 memoryMap).2.toNat / pageSize) maxFrames, 0, 0⟩
    (show 1024 * 1024 / pageSize ≤ maxFrames by decide)
  rw [hinit, hm']
  constructor
  · intro f hf
    have hp : pageSize = 4096 := rfl
    have hmax : maxFrames = 1024 * 1024 := rfl
    rw [ht', ht f hf]
    unfold Allocatable
    rw [← freed_iff_usable ha, hp]
    simp
    omega
  · have : ∀ f ∈ List.range (1024 * 1024 / pageSize), (!m.test f) = true ↔ decide (Usable memoryMap f) = true := by
      intro f hf
      have hlt : f < maxFrames := by
        have := List.mem_range.1 hf
        have : 1024 * 1024 / pageSize ≤ maxFrames := by decide
        omega
      rw [ht f hlt, Bool.not_not, decide_eq_true_iff, decide_eq_true_iff, freed_iff_usable ha]
    rw [List.countP_congr this]
    exact BitVec.zero_add _

end FrameAllocator

end AstralOS.Memory
