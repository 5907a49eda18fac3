import AstralOS.Lib.Run
import AstralOS.Memory.Frame

/-!
# Runs of the frame allocator

The allocator together with the frames its callers hold.  A run is any sequence of allocations and releases of held
frames.  The invariant `Frames.Inv` says that the clear bits are the allocatable frames nobody holds; from it follow
that no frame is handed out twice and that an allocation fails only when every allocatable frame is held
(`frame_allocator_sound`).
-/

namespace AstralOS.Memory

structure Frames where
  allocator : FrameAllocator
  held : List PhysAddr

/-- The calls of the allocator's interface after the boot. -/
inductive FrameCall
  | allocate
  | deallocate (addr : PhysAddr)
  deriving DecidableEq

theorem Allocatable.lt {memoryMap : List Entry} {f : Nat} (h : Allocatable memoryMap f) : f < maxFrames := by
  have hp : pageSize = 4096 := rfl
  have hm : maxFrames = 1024 * 1024 := rfl
  have := h.2.2
  rw [hp] at this
  omega

namespace Frames

def boot (memoryMap : List Entry) : Frames := ⟨FrameAllocator.new.init memoryMap, []⟩

def exec (s : Frames) : FrameCall → Frames
  | .allocate => ⟨s.allocator.allocate.2, s.allocator.allocate.1.toList ++ s.held⟩
  | .deallocate addr => ⟨s.allocator.deallocate addr, s.held.erase addr⟩

def Permitted (s : Frames) : FrameCall → Prop
  | .allocate => True
  | .deallocate addr => addr ∈ s.held

/-- The clear bits are the allocatable frames nobody holds, and the counter is the number of taken usable frames. -/
structure Inv (memoryMap : List Entry) (s : Frames) : Prop where
  nodup : s.held.Nodup
  allocatable : ∀ p ∈ s.held, Allocatable memoryMap p.frame
  free_iff : ∀ f, f < maxFrames →
    (s.allocator.bitmap.test f = false ↔ Allocatable memoryMap f ∧ PhysAddr.ofFrame f ∉ s.held)
  used : s.allocator.usedFrames = BitVec.ofNat 64 (lowUsable memoryMap + s.held.length)

variable {memoryMap : List Entry} {s : Frames}

theorem Inv.boot (ha : PageAligned memoryMap) : Inv memoryMap (boot memoryMap) := by
  obtain ⟨hbits, hused⟩ := FrameAllocator.init_spec memoryMap ha
  exact
    { nodup := List.nodup_nil
      allocatable := by
        intro p hp
        cases hp
      free_iff := by
        grind [Frames.boot]
      used := hused }

theorem Inv.held_lt (h : Inv memoryMap s) {p : PhysAddr} (hp : p ∈ s.held) : p.frame < maxFrames :=
  (h.allocatable p hp).lt

theorem Inv.held_length_le (h : Inv memoryMap s) : s.held.length ≤ maxFrames := by
  have hinj : (s.held.map PhysAddr.frame).Nodup := by
    refine h.nodup.map_on ?_
    intro p _ q _ hpq
    exact PhysAddr.eq_of_frame_eq hpq
  have hsub : s.held.map PhysAddr.frame ⊆ List.range maxFrames := by
    intro f hf
    obtain ⟨p, hp, rfl⟩ := List.mem_map.1 hf
    exact List.mem_range.2 (h.held_lt hp)
  have := hinj.length_le_of_subset hsub
  simpa using this

theorem Inv.used_toNat (h : Inv memoryMap s) :
    s.allocator.usedFrames.toNat = lowUsable memoryMap + s.held.length := by
  have hlow : lowUsable memoryMap ≤ 1024 * 1024 / pageSize := by
    exact Nat.le_trans List.countP_le_length (by simp)
  have hp : 1024 * 1024 / pageSize = 256 := by decide
  have hm : maxFrames = 1024 * 1024 := rfl
  have := h.held_length_le
  simp [h.used, BitVec.toNat_ofNat]
  omega

theorem ofFrame_eq_iff {f g : Nat} (hf : f < maxFrames) (hg : g < maxFrames) :
    PhysAddr.ofFrame f = PhysAddr.ofFrame g ↔ f = g := by
  have hm : maxFrames = 1024 * 1024 := rfl
  constructor
  · intro h
    rw [← PhysAddr.frame_ofFrame (f := f) (by omega), h, PhysAddr.frame_ofFrame (by omega)]
  · intro h
    rw [h]

theorem ofFrame_frame {p : PhysAddr} (h : p.frame < maxFrames) : PhysAddr.ofFrame p.frame = p := by
  have hm : maxFrames = 1024 * 1024 := rfl
  exact PhysAddr.eq_of_frame_eq (PhysAddr.frame_ofFrame (by omega))

theorem frame_ofFrame {f : Nat} (h : f < maxFrames) : (PhysAddr.ofFrame f).frame = f := by
  have hm : maxFrames = 1024 * 1024 := rfl
  exact PhysAddr.frame_ofFrame (by omega)

theorem Inv.allocate (h : Inv memoryMap s) : Inv memoryMap (s.exec .allocate) := by
  simp only [Frames.exec]
  rcases s.allocator.allocate_cases with ⟨f, start, hf, hfree, heq⟩ | ⟨-, heq⟩
  · obtain ⟨ha, hnot⟩ := (h.free_iff f hf).1 hfree
    rw [heq]
    refine ⟨?_, ?_, ?_, ?_⟩
    · exact List.nodup_cons.2 ⟨hnot, h.nodup⟩
    · intro p hp
      rcases List.mem_cons.1 hp with rfl | hp
      · rw [frame_ofFrame hf]
        exact ha
      · exact h.allocatable p hp
    · intro g hg
      rw [Bitmap.test_mark (by decide)]
      have hbits : g < 64 * bitmapLen := hg
      by_cases hfg : f = g
      · subst hfg
        simp [hbits]
      · have hne : PhysAddr.ofFrame g ≠ PhysAddr.ofFrame f := by
          simp [Ne, ofFrame_eq_iff hg hf]
          omega
        simp [hfg, h.free_iff g hg, hne]
    · simp [h.used, BitVec.ofNat_add, BitVec.add_assoc]
  · rw [heq]
    exact ⟨h.nodup, h.allocatable, h.free_iff, h.used⟩

theorem Inv.deallocate (h : Inv memoryMap s) {p : PhysAddr} (hp : p ∈ s.held) :
    Inv memoryMap (s.exec (.deallocate p)) := by
  have hlt := h.held_lt hp
  have hof := ofFrame_frame hlt
  have hta : s.allocator.bitmap.test p.frame = true := by
    by_cases ht : s.allocator.bitmap.test p.frame = true
    · exact ht
    · have := ((h.free_iff _ hlt).1 (by simpa using ht)).2
      rw [hof] at this
      exact (this hp).elim
  simp only [Frames.exec]
  rw [FrameAllocator.deallocate_of_test hlt hta]
  refine ⟨h.nodup.erase p, ?_, ?_, ?_⟩
  · intro q hq
    exact h.allocatable q (List.mem_of_mem_erase hq)
  · intro g hg
    rw [Bitmap.test_clear (by decide), h.nodup.mem_erase_iff]
    by_cases hfg : p.frame = g
    · subst hfg
      simp [hof, h.allocatable p hp]
    · have hne : PhysAddr.ofFrame g ≠ p := by
        rw [← hof, Ne, ofFrame_eq_iff hg hlt]
        exact fun h => hfg h.symm
      simp [hfg, h.free_iff g hg, hne]
  · have hpos : 0 < s.held.length := List.length_pos_of_mem hp
    rw [h.used, List.length_erase_of_mem hp]
    have : lowUsable memoryMap + s.held.length = lowUsable memoryMap + (s.held.length - 1) + 1 := by omega
    rw [this, BitVec.ofNat_add]
    exact BitVec.add_sub_cancel _ _

theorem Inv.exec {c : FrameCall} (h : Inv memoryMap s) (hc : s.Permitted c) : Inv memoryMap (s.exec c) := by
  cases c with
  | allocate => exact h.allocate
  | deallocate p => exact h.deallocate hc

/-- What an allocation answers in a state of the invariant. -/
def Answer (memoryMap : List Entry) (held : List PhysAddr) : Option PhysAddr → Prop
  | some p => Allocatable memoryMap p.frame ∧ p ∉ held
  | none => ∀ p : PhysAddr, Allocatable memoryMap p.frame → p ∈ held

theorem Inv.answer (h : Inv memoryMap s) : Answer memoryMap s.held s.allocator.allocate.1 := by
  rcases s.allocator.allocate_cases with ⟨f, start, hf, hfree, heq⟩ | ⟨hfull, heq⟩
  · rw [heq]
    simp only [Answer]
    rw [frame_ofFrame hf]
    exact (h.free_iff f hf).1 hfree
  · rw [heq]
    intro p hp
    by_cases hheld : p ∈ s.held
    · exact hheld
    · have hfree := (h.free_iff _ hp.lt).2 ⟨hp, by rwa [ofFrame_frame hp.lt]⟩
      rw [hfull _ hp.lt] at hfree
      cases hfree

/-- After every run of allocations and of releases of held frames, the held frames are distinct, the counter is the
number of usable frames below 1 MiB and of held frames, and the next allocation answers with an allocatable frame
that is not held, or with none when every allocatable frame is held. -/
theorem frame_allocator_sound (memoryMap : List Entry) (ha : PageAligned memoryMap) (cs : List FrameCall)
    (hcs : Meets Frames.exec Frames.Permitted (Frames.boot memoryMap) cs) :
    (run Frames.exec (Frames.boot memoryMap) cs).held.Nodup ∧
      (run Frames.exec (Frames.boot memoryMap) cs).allocator.usedFrames.toNat =
        lowUsable memoryMap + (run Frames.exec (Frames.boot memoryMap) cs).held.length ∧
      Answer memoryMap (run Frames.exec (Frames.boot memoryMap) cs).held
        (run Frames.exec (Frames.boot memoryMap) cs).allocator.allocate.1 := by
  have hinv : Inv memoryMap (run Frames.exec (Frames.boot memoryMap) cs) :=
    (always_of_meets (fun _ h => h) (fun _ _ _ h hc => h.exec hc) (Inv.boot ha) (fun _ _ => trivial) hcs :
      Always Frames.exec (Inv memoryMap) _ cs).run
  exact ⟨hinv.nodup, hinv.used_toNat, hinv.answer⟩

def oneFrame : List Entry := [⟨0x100000#64, 0x1000#64, .usable⟩, ⟨0x101000#64, 0x5000#64, .other 1⟩]

theorem pageAligned_oneFrame : PageAligned oneFrame := by
  unfold PageAligned
  decide

theorem allocatable_oneFrame {f : Nat} : Allocatable oneFrame f ↔ f = 256 := by
  have hp : pageSize = 4096 := rfl
  simp [Allocatable, Usable, oneFrame, Entry.Holds, hp]
  omega

theorem held_allocate_oneFrame :
    ((boot oneFrame).exec .allocate).held = [PhysAddr.ofFrame 256] := by
  have hans := (Inv.boot pageAligned_oneFrame).answer
  simp only [Frames.exec]
  cases h : (boot oneFrame).allocator.allocate.1 with
  | some p =>
    rw [h] at hans
    have hp : p.frame = 256 := allocatable_oneFrame.1 hans.1
    have : p = PhysAddr.ofFrame 256 :=
      PhysAddr.eq_of_frame_eq (hp.trans (frame_ofFrame (by decide)).symm)
    simp [this, boot]
  | none =>
    rw [h] at hans
    have := hans (PhysAddr.ofFrame 256) (allocatable_oneFrame.2 (frame_ofFrame (by decide)))
    cases this

def takeTwice : List FrameCall := [.allocate, .deallocate (PhysAddr.ofFrame 256), .allocate]

theorem frame_allocator_sound_oneFrame :
    Meets Frames.exec Frames.Permitted (boot oneFrame) takeTwice ∧
      (run Frames.exec (boot oneFrame) takeTwice).allocator.usedFrames.toNat =
        lowUsable oneFrame + (run Frames.exec (boot oneFrame) takeTwice).held.length := by
  have hm : Meets Frames.exec Frames.Permitted (boot oneFrame) takeTwice :=
    ⟨trivial, by simp [Permitted, held_allocate_oneFrame], trivial, trivial⟩
  exact ⟨hm, (frame_allocator_sound oneFrame pageAligned_oneFrame takeTwice hm).2.1⟩

end Frames

end AstralOS.Memory
