import AstralOS.Memory.FrameRuns

/-!
# The reported number of free frames

`free_frames` subtracts the frames in use from all frames below the end of the highest usable region.  The bitmap has free only
frames that a usable region covers, so what is reported is what can be allocated exactly if the regions cover every frame
below that end: then the two agree in every state, and otherwise in none (`free_frames_real_iff`).
-/

namespace AstralOS.Memory

open Finset

section

variable (memoryMap : List Entry)

/-- The end of the highest usable region, as `init` finds it (`max_addr`). -/
def lastUsable : BitVec 64 :=
  memoryMap.foldl (fun maxAddr e =>
    if e.entryType = .usable then if e.base + e.length > maxAddr then e.base + e.length else maxAddr else maxAddr) 0

/-- All frames below that end, up to 4 GiB (`total_frames`). -/
def bootTotal : Nat := min ((lastUsable memoryMap).toNat / pageSize) maxFrames

def freedCount : Nat := ((Finset.range maxFrames).filter fun f => Freed memoryMap f).card

end

namespace FrameAllocator

/-- The next `n` allocations succeed, and the one after them does not. -/
def Lasts : Nat → FrameAllocator → Prop
  | 0, a => a.allocate.1 = none
  | n + 1, a => (∃ p, a.allocate.1 = some p) ∧ Lasts n a.allocate.2

/-- As many allocations succeed as frames are reported free. -/
def Real (a : FrameAllocator) : Prop := Lasts a.freeFrames a

theorem lasts_iff (n : Nat) (a : FrameAllocator) : Lasts n a ↔ a.avail = n := by
  induction n generalizing a with
  | zero =>
    unfold Lasts
    rcases a.allocate_spec with ⟨p, hp, -, -, ha⟩ | ⟨hnone, -, ha, -⟩
    · simp [hp, ha]
    · simp [hnone, ha]
  | succ n ih =>
    unfold Lasts
    rw [ih]
    rcases a.allocate_spec with ⟨p, hp, -, -, ha⟩ | ⟨hnone, -, ha, -⟩
    · simp [hp, ha]
    · simp [hnone, ha]

theorem allocate_eq_none_iff (a : FrameAllocator) : a.allocate.1 = none ↔ a.avail = 0 := lasts_iff 0 a

/-- The frames left and the frames counted as used are `n` together, and `total` are reported in all. -/
structure Counts (n total : Nat) (a : FrameAllocator) : Prop where
  sum : a.avail + a.usedFrames.toNat = n
  total : a.totalFrames = total

variable {a : FrameAllocator} {n total : Nat}

section

variable (h : Counts n total a)
include h

theorem Counts.real_iff : a.Real ↔ total = n ∨ total < n ∧ a.allocate.1 = none := by
  have hsum := h.sum
  have ht := h.total
  rw [allocate_eq_none_iff, Real, lasts_iff, freeFrames]
  omega

theorem Counts.take (hn : n ≤ maxFrames) {a' : FrameAllocator} {f : Nat} (hf : a.Free f)
    (hfree : ∀ g, a'.Free g ↔ a.Free g ∧ g ≠ f) (hused : a'.usedFrames = a.usedFrames + 1)
    (ht : a'.totalFrames = a.totalFrames) : Counts n total a' := by
  have hm : maxFrames = 1024 * 1024 := rfl
  have ha := avail_eq_succ hf hfree
  have hsum := h.sum
  refine ⟨?_, ht.trans h.total⟩
  simp [hused, BitVec.toNat_add]
  omega

theorem Counts.allocateFrameAt (hn : n ≤ maxFrames) (f : Nat) :
    Counts n total (a.allocateFrameAt f) := by
  unfold FrameAllocator.allocateFrameAt
  by_cases hf : maxFrames ≤ f
  · rw [if_pos hf]
    exact h
  · rw [if_neg hf]
    have hmark := free_take (a := a) (Nat.lt_of_not_le hf)
    cases ht : a.bitmap.test f with
    | false => exact h.take hn ⟨Nat.lt_of_not_le hf, ht⟩ hmark (by simp) rfl
    | true =>
      -- the bit is set already
      refine ⟨?_, h.total⟩
      have ha : (a.take f).avail = a.avail := by
        refine avail_congr fun g hg => ?_
        have hsame := hmark g
        rw [Free, Free, and_iff_right hg, and_iff_right hg] at hsame
        grind
      have hsum := h.sum
      rw [← ha] at hsum
      exact hsum

theorem Counts.allocate (hn : n ≤ maxFrames) : Counts n total a.allocate.2 := by
  rcases a.allocate_cases with ⟨f, start, hf, hfree, heq⟩ | ⟨-, heq⟩
  · rw [heq]
    exact h.take hn ⟨hf, hfree⟩ (fun g => free_take hf g) rfl rfl
  · have ha : avail { a with startSearch := 0 } = a.avail := avail_congr fun _ _ => Iff.rfl
    rw [heq]
    refine ⟨?_, h.total⟩
    exact h.sum

theorem Counts.deallocate {p : PhysAddr} (hp : p.frame < maxFrames)
    (htest : a.bitmap.test p.frame = true) (hused : 0 < a.usedFrames.toNat) : Counts n total (a.deallocate p) := by
  have hback : (a.deallocate p).avail = a.avail + 1 := by
    refine avail_eq_succ ((free_deallocate a p p.frame).2 (Or.inr ⟨hp, rfl⟩)) fun g => ?_
    rw [free_deallocate]
    constructor
    · intro hg
      grind [hg.2]
    · rintro ⟨hg | ⟨-, hg⟩, hne⟩
      · exact hg
      · exact absurd hg hne
  have hsum := h.sum
  rw [deallocate_of_test hp htest] at hback ⊢
  refine ⟨?_, h.total⟩
  rw [hback]
  simp [BitVec.toNat_sub]
  omega

end

theorem freeUsable_snd (es : List Entry) (a : FrameAllocator) (maxAddr : BitVec 64) :
    (a.freeUsable maxAddr es).2 = es.foldl (fun maxAddr e =>
      if e.entryType = .usable then if e.base + e.length > maxAddr then e.base + e.length else maxAddr else maxAddr)
      maxAddr := by
  induction es generalizing a maxAddr with
  | nil => rfl
  | cons e es ih =>
    unfold freeUsable
    rw [List.foldl_cons]
    by_cases hu : e.entryType = .usable
    · rw [if_pos hu, if_pos hu]
      exact ih _ _
    · rw [if_neg hu, if_neg hu]
      exact ih _ _

theorem freedCount_le (memoryMap : List Entry) : freedCount memoryMap ≤ maxFrames := by
  have := card_filter_le (range maxFrames) fun f => Freed memoryMap f
  rwa [card_range] at this

theorem counts_init (memoryMap : List Entry) : Counts (freedCount memoryMap) (bootTotal memoryMap) (new.init memoryMap) := by
  obtain ⟨m, hinit, ht⟩ := init_eq memoryMap
  have ha : ∀ total, avail ⟨m, total, 0, 0⟩ = freedCount memoryMap := by
    intro total
    refine congrArg card (filter_congr fun f hf => ?_)
    rw [ht f (mem_range.1 hf), Bool.not_eq_false', decide_eq_true_iff]
  rw [hinit, freeUsable_snd]
  refine run_invariant (Q := fun _ => True) (fun a f h _ => h.allocateFrameAt (freedCount_le memoryMap) f) ⟨?_, rfl⟩
    fun _ _ => trivial
  rw [ha]
  exact Nat.add_zero _

end FrameAllocator

namespace Frames

/-- The frames are counted, and each held frame is among those counted as used. -/
structure Counted (n total : Nat) (s : Frames) : Prop where
  counts : s.allocator.Counts n total
  nodup : s.held.Nodup
  taken : ∀ p ∈ s.held, p.frame < maxFrames ∧ s.allocator.bitmap.test p.frame = true
  used : s.held.length ≤ s.allocator.usedFrames.toNat

variable {n total : Nat} {s : Frames}

theorem Counted.allocate (h : Counted n total s) (hn : n ≤ maxFrames) : Counted n total (s.exec .allocate) := by
  have hc := h.counts.allocate hn
  simp only [Frames.exec]
  rcases s.allocator.allocate_cases with ⟨f, start, hf, hfree, heq⟩ | ⟨-, heq⟩
  · have hsum := h.counts.sum
    rw [heq] at hc ⊢
    have hnew : ∀ p ∈ s.held, p.frame ≠ f := by
      rintro p hp rfl
      rw [(h.taken p hp).2] at hfree
      cases hfree
    refine ⟨hc, ?_, ?_, ?_⟩
    · refine List.nodup_cons.2 ⟨fun hmem => ?_, h.nodup⟩
      exact hnew _ hmem (frame_ofFrame hf)
    · intro p hp
      rw [Bitmap.test_mark (by decide)]
      rcases List.mem_cons.1 hp with rfl | hp
      · have hbits : f < 64 * bitmapLen := hf
        rw [frame_ofFrame hf]
        simp [hf, hbits]
      · obtain ⟨hlt, htest⟩ := h.taken p hp
        simp [hlt, htest]
    · have hm : maxFrames = 1024 * 1024 := rfl
      have hused := h.used
      simp [BitVec.toNat_add]
      omega
  · rw [heq] at hc ⊢
    exact ⟨hc, h.nodup, h.taken, h.used⟩

theorem Counted.deallocate (h : Counted n total s) {p : PhysAddr} (hp : p ∈ s.held) :
    Counted n total (s.exec (.deallocate p)) := by
  obtain ⟨hlt, htest⟩ := h.taken p hp
  have hpos : 0 < s.held.length := List.length_pos_of_mem hp
  have hused := h.used
  have hc := h.counts.deallocate hlt htest (Nat.lt_of_lt_of_le hpos hused)
  simp only [Frames.exec]
  rw [FrameAllocator.deallocate_of_test hlt htest] at hc ⊢
  refine ⟨hc, h.nodup.erase p, ?_, ?_⟩
  · intro q hq
    obtain ⟨hne, hq⟩ := (h.nodup.mem_erase_iff).1 hq
    obtain ⟨hqlt, hqt⟩ := h.taken q hq
    have hf : p.frame ≠ q.frame := fun heq => hne (PhysAddr.eq_of_frame_eq heq).symm
    refine ⟨hqlt, ?_⟩
    rw [Bitmap.test_clear (by decide), hqt]
    simp [hf]
  · simp [List.length_erase_of_mem hp, BitVec.toNat_sub]
    omega

theorem Counted.exec (h : Counted n total s) (hn : n ≤ maxFrames) {c : FrameCall} (hc : s.Permitted c) :
    Counted n total (s.exec c) := by
  cases c with
  | allocate => exact h.allocate hn
  | deallocate p => exact h.deallocate hc

theorem counted_boot (memoryMap : List Entry) : Counted (freedCount memoryMap) (bootTotal memoryMap) (boot memoryMap) := by
  unfold boot
  refine ⟨?_, ?_, ?_, ?_⟩
  · dsimp only
    exact FrameAllocator.counts_init memoryMap
  · exact List.nodup_nil
  · intro p hp
    cases hp
  · exact Nat.zero_le _

theorem counted_run (memoryMap : List Entry) (cs : List FrameCall)
    (hcs : Meets Frames.exec Frames.Permitted (boot memoryMap) cs) :
    Counted (freedCount memoryMap) (bootTotal memoryMap) (run Frames.exec (boot memoryMap) cs) := by
  have hrun : Always Frames.exec (Counted (freedCount memoryMap) (bootTotal memoryMap)) (boot memoryMap) cs :=
    always_of_meets (R := fun _ => True) (fun _ h => h)
      (fun _ _ _ h hc => h.exec (FrameAllocator.freedCount_le memoryMap) hc) (counted_boot memoryMap)
      (fun _ _ => trivial) hcs
  exact hrun.run

/-- After every run, as many allocations succeed as frames are reported free exactly if `init` freed every frame below the end of
the highest usable region; or if it freed more, which takes a region that ends beyond the address space, and all are taken. -/
theorem free_frames_real_iff (memoryMap : List Entry) (cs : List FrameCall)
    (hcs : Meets Frames.exec Frames.Permitted (boot memoryMap) cs) :
    (run Frames.exec (boot memoryMap) cs).allocator.Real ↔
      bootTotal memoryMap = freedCount memoryMap ∨ bootTotal memoryMap < freedCount memoryMap ∧
        (run Frames.exec (boot memoryMap) cs).allocator.allocate.1 = none := by
  exact (counted_run memoryMap cs hcs).counts.real_iff

/-- One usable region from address zero to the end of the first frame above 1 MiB: no hole below its end. -/
def noHole : List Entry := [⟨0, 0x101000, .usable⟩]

theorem freedCount_noHole : freedCount noHole = 257 := by
  have hp : pageSize = 4096 := rfl
  have hm : maxFrames = 1024 * 1024 := rfl
  have hf : ((range maxFrames).filter fun f => Freed noHole f) = range 257 := by
    ext f
    simp [Freed, noHole, Entry.Frees, hp, hm]
    omega
  rw [freedCount, hf, card_range]

theorem free_frames_real_noHole :
    bootTotal noHole = freedCount noHole ∧ (run Frames.exec (boot noHole) [.allocate]).allocator.Real := by
  have ht : bootTotal noHole = freedCount noHole := by
    rw [freedCount_noHole]
    decide
  exact ⟨ht, (free_frames_real_iff noHole [.allocate] ⟨trivial, trivial⟩).2 (Or.inl ht)⟩

theorem freedCount_oneFrame : freedCount oneFrame = 1 := by
  have hp : pageSize = 4096 := rfl
  have hm : maxFrames = 1024 * 1024 := rfl
  have hf : ((range maxFrames).filter fun f => Freed oneFrame f) = {256} := by
    ext f
    simp [Freed, oneFrame, Entry.Frees, hp, hm]
    omega
  rw [freedCount, hf, card_singleton]

/-- With one usable frame, at 1 MiB, 257 frames are reported free. -/
theorem free_frames_not_real : ¬ ∀ (memoryMap : List Entry) (cs : List FrameCall),
    Meets Frames.exec Frames.Permitted (boot memoryMap) cs → (run Frames.exec (boot memoryMap) cs).allocator.Real := by
  have ht : bootTotal oneFrame = 257 := by decide
  refine not_forall.2 ⟨oneFrame, not_forall.2 ⟨[], ?_⟩⟩
  rw [(counted_run oneFrame [] trivial).counts.real_iff, ht, freedCount_oneFrame]
  intro h
  have := h trivial
  omega

end Frames

end AstralOS.Memory
