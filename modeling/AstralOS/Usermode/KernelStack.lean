import AstralOS.Memory.FrameRuns
import AstralOS.Memory.PageSpace
import AstralOS.Usermode.Spawn

/-!
# The kernel stack of a process

`allocate_kernel_stack` takes four frames one by one and returns the top of a range of four frames that starts with the
first of them.  The allocator hands out frames in the order of its bitmap, so the range is what was taken exactly if the
three frames behind the first are free as well (`kernel_stack_own_iff`).  In a bitmap with a gap, the stack runs into a
frame that someone else holds (`kernel_stack_in_held_frame`).
-/

namespace AstralOS.Usermode

open Memory
open X86 (frameOf)
open Fallible

def Obtained (s s' : Phys) (f : Nat) : Prop := s.frames.Free f ∧ ¬s'.frames.Free f

/-- The physical address behind byte `k` of a stack in the direct map. -/
def stackByte (hhdm top : BitVec 64) (k : Nat) : BitVec 64 :=
  top - BitVec.ofNat 64 kernelStackSize + BitVec.ofNat 64 k - hhdm

def OwnStack (hhdm top : BitVec 64) (s s' : Phys) : Prop :=
  ∀ k < kernelStackSize, Obtained s s' (frameOf (stackByte hhdm top k))

/-! ### The frames behind the stack -/

def stackTop (hhdm : BitVec 64) (base : PhysAddr) : BitVec 64 :=
  base.addr + hhdm + BitVec.ofNat 64 kernelStackSize

theorem frameOf_stackByte {base : PhysAddr} (hbase : base.frame < maxFrames) (hhdm : BitVec 64) {k : Nat}
    (hk : k < kernelStackSize) : frameOf (stackByte hhdm (stackTop hhdm base) k) = base.frame + k / 4096 := by
  have hsize : kernelStackSize = 16384 := rfl
  have hmax : maxFrames = 1024 * 1024 := rfl
  have hpage : pageSize = 4096 := rfl
  have haddr := base.toNat_eq
  have hbyte : stackByte hhdm (stackTop hhdm base) k = base.addr + BitVec.ofNat 64 k := by
    grind [stackByte, stackTop, BitVec.add_sub_cancel, BitVec.add_assoc]
  unfold frameOf
  rw [hbyte, BitVec.toNat_add, haddr, hpage, BitVec.toNat_ofNat]
  omega

theorem ownStack_iff {base : PhysAddr} (hbase : base.frame < maxFrames) (hhdm : BitVec 64) (s s' : Phys) :
    OwnStack hhdm (stackTop hhdm base) s s' ↔ ∀ j < 4, Obtained s s' (base.frame + j) := by
  have hsize : kernelStackSize = 16384 := rfl
  constructor
  · intro h j hj
    have := h (4096 * j) (by omega)
    rwa [frameOf_stackByte hbase hhdm (by omega), Nat.mul_div_cancel_left j (by decide)] at this
  · intro h k hk
    rw [frameOf_stackByte hbase hhdm hk]
    exact h (k / 4096) (by omega)

/-! ### The order of the frames -/

/-- From `s`, the frames from `f` to `f + j` have been taken in a row. -/
structure TookRow (s : Phys) (f j : Nat) (s' : Phys) : Prop where
  free : ∀ g, s'.frames.Free g ↔ s.frames.Free g ∧ ¬(f ≤ g ∧ g ≤ f + j)
  start : s'.frames.startSearch = (f + j) / 64
  below : ∀ g, 64 * ((f + j) / 64) ≤ g → g ≤ f + j → ¬s'.frames.Free g

variable {f : Nat} {s : Phys}

theorem allocateZeroed_take (ha : s.frames.allocate = (some (PhysAddr.ofFrame f), s.frames.take f)) (msg : String) :
    Ends (allocateZeroed msg) s (fun base s' => base = PhysAddr.ofFrame f ∧ s'.frames = s.frames.take f)
      (fun _ _ => False) := by
  refine Ends.bind (allocateFrame_ends s) ?_
  simpa [ha] using ⟨rfl, rfl⟩

theorem TookRow.next {s1 : Phys} {j : Nat} (h : TookRow s f j s1) (hfree : s.frames.Free (f + (j + 1)))
    (msg : String) : Ends (allocateZeroed msg) s1 (fun _ s2 => TookRow s f (j + 1) s2) (fun _ _ => False) := by
  have hfree1 : s1.frames.Free (f + (j + 1)) := (h.free _).2 ⟨hfree, by omega⟩
  have ha : s1.frames.allocate = (some (PhysAddr.ofFrame (f + (j + 1))), s1.frames.take (f + (j + 1))) := by
    refine FrameAllocator.allocate_of_first ?_ hfree1 ?_
    · rw [h.start]
      omega
    · intro g hs hg
      rw [h.start] at hs
      exact h.below g hs (by omega)
  refine (allocateZeroed_take ha msg).imp ?_
  rintro _ s2 ⟨-, hs2⟩
  refine ⟨?_, by rw [hs2]; rfl, ?_⟩
  · simp [hs2, FrameAllocator.free_take hfree1.1, h.free, and_assoc]
    omega
  · intro g hs hg hgf
    rw [hs2] at hgf
    have hg1 := (FrameAllocator.free_take hfree1.1 g).1 hgf
    exact h.below g (by omega) (by omega) hg1.1

theorem allocateZeroed_row (msg : String) (s : Phys) :
    Ends (allocateZeroed msg) s (fun base s' => base.frame < maxFrames ∧ s.frames.Free base.frame ∧
      TookRow s base.frame 0 s') (fun _ _ => True) := by
  rcases s.frames.allocate_take with ⟨f, hfree, hb, ha⟩ | hnone
  · refine (allocateZeroed_take ha msg).mono ?_ fun _ _ h => h.elim
    rintro _ s' ⟨rfl, hs'⟩
    rw [PhysAddr.frame_ofFrame (Nat.lt_of_lt_of_le hfree.1 (by decide))]
    refine ⟨hfree.1, hfree, ?_, by rw [hs']; rfl, ?_⟩
    · simp [hs', FrameAllocator.free_take hfree.1]
      omega
    · intro g hs hg hgf
      rw [hs'] at hgf
      obtain ⟨hgf, hne⟩ := (FrameAllocator.free_take hfree.1 g).1 hgf
      have := hb g hs (by omega)
      rw [hgf.2] at this
      cases this
  · refine ends_bind_of (allocateFrame_ends s) ?_ fun _ _ _ => trivial
    rintro r s1 ⟨rfl, rfl⟩
    rw [hnone]
    trivial

theorem TookRow.rest {s1 : Phys} (hrow : TookRow s f 0 s1) (msg : String) :
    Ends (forM [1, 2, 3] fun _ => do let _ ← allocateZeroed msg) s1
      (fun _ s' => (∀ j, 0 < j → j < 4 → s.frames.Free (f + j)) → TookRow s f 3 s') (fun _ _ => True) := by
  by_cases hnext : ∀ j, 0 < j → j < 4 → s.frames.Free (f + j)
  · -- with `n` rounds to go, the row has reached the frame `f + (3 - n)`
    have hloop : Ends (forM [1, 2, 3] fun _ => do let _ ← allocateZeroed msg) s1
        (fun _ s' => TookRow s f 3 s') (fun _ _ => False) := by
      refine (ends_forM [1, 2, 3] (fun xs s' => xs.length ≤ 3 ∧ TookRow s f (3 - xs.length) s') ?_
        (And.intro (by decide) (by simpa using hrow))).imp (fun _ _ h => h.2)
      rintro x xs s' ⟨hlen, hrow'⟩
      rw [List.length_cons] at hlen hrow'
      have hstep : 3 - xs.length = 3 - (xs.length + 1) + 1 := by omega
      refine Ends.bind (hrow'.next (hnext _ (by omega) (by omega)) msg) ?_
      intro _ s'' hrow''
      exact ⟨by omega, by rwa [hstep]⟩
    exact hloop.mono (fun _ _ h _ => h) fun _ _ h => h.elim
  · exact (ends_true _ s1).imp (fun _ _ _ h => absurd h hnext)

/-- The kernel stack consists of frames that the call has obtained exactly if the three frames behind its first one were
free. -/
theorem kernel_stack_own_iff (hhdm : BitVec 64) (s : Phys) :
    Ends (allocateKernelStack hhdm) s
      (fun top s' => OwnStack hhdm top s s' ↔
        ∀ j, 0 < j → j < 4 → s.frames.Free (frameOf (stackByte hhdm top 0) + j))
      (fun _ _ => True) := by
  have hp : List.range' 1 (kernelStackSize / pageSize - 1) = [1, 2, 3] := by decide
  refine ends_bind_of (allocateZeroed_row _ s) ?_ fun _ _ _ => trivial
  rintro base s1 ⟨hbase, hfree, hrow⟩
  refine Ends.bind (hrow.rest _) ?_
  intro _ s' hrow'
  refine ends_pure ?_
  change OwnStack hhdm (stackTop hhdm base) s s' ↔
    ∀ j, 0 < j → j < 4 → s.frames.Free (frameOf (stackByte hhdm (stackTop hhdm base) 0) + j)
  rw [ownStack_iff hbase, frameOf_stackByte hbase hhdm (by decide)]
  constructor
  · intro hown j _ hj
    exact (hown j hj).1
  · intro hnext j hj
    refine ⟨?_, fun hf => (((hrow' hnext).free _).1 hf).2 (by omega)⟩
    rcases Nat.eq_zero_or_pos j with rfl | hpos
    · exact hfree
    · exact hnext j hpos hj

/-! ### A gap in the bitmap -/

def fiveFrames : List Entry := [⟨0x100000#64, 0x5000#64, .usable⟩]

/-- The calls after which the second frame is held and the first is free again. -/
def holdSecond : List FrameCall := [.allocate, .allocate, .deallocate (PhysAddr.ofFrame 256)]

theorem allocatable_fiveFrames : Allocatable fiveFrames f ↔ 256 ≤ f ∧ f ≤ 260 := by
  have hp : pageSize = 4096 := rfl
  simp [Allocatable, Usable, fiveFrames, Entry.Holds, hp]
  omega

theorem free_boot (f : Nat) : (Frames.boot fiveFrames).allocator.Free f ↔ 256 ≤ f ∧ f ≤ 260 := by
  have ha : PageAligned fiveFrames := by
    unfold PageAligned
    decide
  have hinv := Frames.Inv.boot ha
  rw [← allocatable_fiveFrames]
  constructor
  · intro h
    exact ((hinv.free_iff f h.1).1 h.2).1
  · intro h
    exact ⟨h.lt, (hinv.free_iff f h.lt).2 ⟨h, by simp [Frames.boot]⟩⟩

def gap : FrameAllocator :=
  (((Frames.boot fiveFrames).allocator.take 256).take 257).deallocate (PhysAddr.ofFrame 256)

theorem free_taken (f : Nat) :
    (((Frames.boot fiveFrames).allocator.take 256).take 257).Free f ↔ 258 ≤ f ∧ f ≤ 260 := by
  rw [FrameAllocator.free_take (by decide), FrameAllocator.free_take (by decide), free_boot]
  omega

theorem free_gap (f : Nat) : gap.Free f ↔ f = 256 ∨ 258 ≤ f ∧ f ≤ 260 := by
  have hmax : maxFrames = 1024 * 1024 := rfl
  unfold gap
  rw [FrameAllocator.free_deallocate, free_taken, PhysAddr.frame_ofFrame (by decide)]
  omega

theorem exec_allocate {s : Frames} (hf : s.allocator.Free f)
    (hl : ∀ g, s.allocator.Free g → f ≤ g ∧ g / 64 = f / 64) :
    s.exec .allocate = ⟨s.allocator.take f, PhysAddr.ofFrame f :: s.held⟩ := by
  unfold Frames.exec
  rw [FrameAllocator.allocate_of_least hf hl]
  rfl

theorem exec_holdSecond :
    ((Frames.boot fiveFrames).exec .allocate).exec .allocate =
      ⟨((Frames.boot fiveFrames).allocator.take 256).take 257, [PhysAddr.ofFrame 257, PhysAddr.ofFrame 256]⟩ := by
  have hfree : ∀ g, ((Frames.boot fiveFrames).allocator.take 256).Free g ↔ 257 ≤ g ∧ g ≤ 260 := by
    intro g
    rw [FrameAllocator.free_take (by decide), free_boot]
    omega
  have hf : (Frames.boot fiveFrames).exec .allocate =
      ⟨(Frames.boot fiveFrames).allocator.take 256, [PhysAddr.ofFrame 256]⟩ := by
    refine exec_allocate ((free_boot 256).2 (by decide)) ?_
    intro g hg
    have := (free_boot g).1 hg
    omega
  rw [hf]
  refine exec_allocate ((hfree 257).2 (by decide)) ?_
  intro g hg
  have := (hfree g).1 hg
  omega

theorem allocateZeroed_least (hf : s.frames.Free f)
    (hl : ∀ g, s.frames.Free g → f ≤ g ∧ g / 64 = f / 64) (msg : String) :
    Ends (allocateZeroed msg) s (fun base s' => base = PhysAddr.ofFrame f ∧
      ∀ g, s'.frames.Free g ↔ s.frames.Free g ∧ g ≠ f) (fun _ _ => False) := by
  refine (allocateZeroed_take (FrameAllocator.allocate_of_least hf hl) msg).imp ?_
  rintro base s' ⟨hbase, hs'⟩
  simp [hs', FrameAllocator.free_take hf.1]
  omega

theorem ends_behind_gap (hs : ∀ g, s.frames.Free g ↔ 258 ≤ g ∧ g ≤ 260) (msg : String) :
    Ends (forM [1, 2, 3] fun _ => do let _ ← allocateZeroed msg) s (fun _ _ => True) (fun _ _ => False) := by
  -- with `n` rounds to go, the last `n` of the frames are free
  refine (ends_forM [1, 2, 3] (fun xs s' => xs.length ≤ 3 ∧
    ∀ g, s'.frames.Free g ↔ 261 ≤ g + xs.length ∧ g ≤ 260) ?_ (And.intro (by decide) ?_)).imp
    (fun _ _ _ => trivial)
  · rintro x xs s' ⟨hlen, hs'⟩
    rw [List.length_cons] at hlen hs'
    refine Ends.bind (allocateZeroed_least ((hs' (261 - (xs.length + 1))).2 (by omega)) ?_ _) ?_
    · grind
    · rintro _ s'' ⟨-, hs''⟩
      refine ⟨by omega, ?_⟩
      intro g
      rw [hs'', hs']
      omega
  · simp [hs, List.length_cons, List.length_nil]

theorem allocateKernelStack_gap (hhdm : BitVec 64) (mem : ByteMem) :
    Ends (allocateKernelStack hhdm) ⟨mem, gap⟩ (fun top _ => frameOf (stackByte hhdm top 4096) = (PhysAddr.ofFrame 257).frame)
      (fun _ _ => False) := by
  have hp : List.range' 1 (kernelStackSize / pageSize - 1) = [1, 2, 3] := by decide
  have hf : (Phys.mk mem gap).frames.Free 256 := (free_gap 256).2 (by decide)
  refine Ends.bind (allocateZeroed_least hf ?_ _) ?_
  · intro g hg
    have := (free_gap g).1 hg
    omega
  rintro _ s1 ⟨rfl, hfree⟩
  have hfree1 : ∀ g, s1.frames.Free g ↔ 258 ≤ g ∧ g ≤ 260 := by
    intro g
    rw [hfree, free_gap]
    omega
  refine Ends.bind (ends_behind_gap hfree1 _) ?_
  intro _ s' _
  refine ends_pure ?_
  change frameOf (stackByte hhdm (stackTop hhdm (PhysAddr.ofFrame 256)) 4096) = _
  rw [frameOf_stackByte (by rw [PhysAddr.frame_ofFrame (by decide)]; decide) hhdm (by decide),
    PhysAddr.frame_ofFrame (by decide), PhysAddr.frame_ofFrame (by decide)]

/-- A caller holds the second frame and has given the first back.  The next kernel stack is returned with success and has
the held frame as its second page. -/
theorem kernel_stack_in_held_frame :
    Meets Frames.exec Frames.Permitted (Frames.boot fiveFrames) holdSecond ∧
      PhysAddr.ofFrame 257 ∈ (run Frames.exec (Frames.boot fiveFrames) holdSecond).held ∧
      Ends (allocateKernelStack 0xFFFF800000000000)
        ⟨fun _ => 0, (run Frames.exec (Frames.boot fiveFrames) holdSecond).allocator⟩
        (fun top _ => frameOf (stackByte 0xFFFF800000000000 top 4096) = (PhysAddr.ofFrame 257).frame)
        (fun _ _ => False) := by
  have hrun : run Frames.exec (Frames.boot fiveFrames) holdSecond = ⟨gap, [PhysAddr.ofFrame 257]⟩ := by
    unfold holdSecond
    rw [run_cons, run_cons, run_cons, run_nil, exec_holdSecond]
    rfl
  refine ⟨⟨trivial, trivial, ?_, trivial⟩, ?_, ?_⟩
  · rw [exec_holdSecond]
    simp [Frames.Permitted]
  · rw [hrun]
    simp
  · rw [hrun]
    exact allocateKernelStack_gap _ _

end AstralOS.Usermode
