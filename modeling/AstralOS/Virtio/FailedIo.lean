import AstralOS.Virtio.BlockIo

/-!
# Requests that fail before they are published

`do_io` takes a descriptor and then three frames.  Where `add_buf` rejects the chain, it gives all of them back; where the
frames run out, it returns at once and keeps what it has taken.  So a call that fails before its request is published leaves
the free descriptors and frames as they were exactly if there was no descriptor for it or there were three frames
(`failed_io_keeps_iff`).
-/

namespace AstralOS.Virtio.BlockDevice

open Virtqueue
open Memory (FrameAllocator PhysAddr)

variable {d d' : BlockDevice} {sector now : BitVec 64} {buffer : Vector Byte 512} {isRead : Bool}

abbrev queue (d : BlockDevice) : Virtqueue := d.traffic.rings.queue

def SameFree (d d' : BlockDevice) : Prop :=
  (∀ i, d'.queue.isFree i = d.queue.isFree i) ∧ ∀ f, d'.frames.Free f ↔ d.frames.Free f

def LosesDesc (d d' : BlockDevice) : Prop :=
  ∃ i, i < d.queue.size ∧ d.queue.isFree i = true ∧ ∀ j, d'.queue.isFree j = (d.queue.isFree j && decide (i ≠ j))

theorem LosesDesc.not_sameFree (h : LosesDesc d d') : ¬SameFree d d' := by
  obtain ⟨i, -, hfree, hm⟩ := h
  rintro ⟨hsame, -⟩
  grind

/-! ### Frames -/

theorem allocFrames_cases (a : FrameAllocator) :
    (∃ header data status a', allocFrames a = (some (header, data, status), a') ∧ 3 ≤ a.avail ∧
      ∀ f, (releaseFrames a' header data status).Free f ↔ a.Free f) ∨
    ∃ a', allocFrames a = (none, a') ∧ a.avail < 3 ∧ a'.avail < 3 := by
  unfold allocFrames
  rcases allocate_pair a with ⟨header, a1, h1, hf1, hr1, hn1⟩ | ⟨a1, h1, hn1, hz1⟩
  · rw [h1]
    dsimp only
    rcases allocate_pair a1 with ⟨data, a2, h2, hf2, hr2, hn2⟩ | ⟨a2, h2, hn2, hz2⟩
    · rw [h2]
      dsimp only
      rcases allocate_pair a2 with ⟨status, a3, h3, hf3, hr3, hn3⟩ | ⟨a3, h3, hn3, hz3⟩
      · rw [h3]
        refine Or.inl ⟨header, data, status, a3, rfl, by omega, fun f => ?_⟩
        unfold releaseFrames
        rw [FrameAllocator.free_deallocate, FrameAllocator.free_deallocate, FrameAllocator.free_deallocate, hr3, hr2, hr1]
        constructor
        · rintro (((h | ⟨-, rfl⟩) | ⟨-, rfl⟩) | ⟨-, rfl⟩)
          · exact h.1.1.1
          · exact hf1
          · exact ((hr1 _).1 hf2).1
          · exact ((hr1 _).1 ((hr2 _).1 hf3).1).1
        · intro h
          by_cases hs : f = status.frame
          · exact Or.inr ⟨h.1, hs⟩
          by_cases hd : f = data.frame
          · exact Or.inl (Or.inr ⟨h.1, hd⟩)
          by_cases hh : f = header.frame
          · exact Or.inl (Or.inl (Or.inr ⟨h.1, hh⟩))
          exact Or.inl (Or.inl (Or.inl ⟨⟨⟨h, hh⟩, hd⟩, hs⟩))
      · simp [h3]
        omega
    · simp [h2]
      omega
  · simp [h1]
    omega

/-! ### Calls -/

/-- There is a descriptor for the call, and fewer than three frames. -/
def Short (d : BlockDevice) : Prop := (∃ i, i < d.queue.size ∧ d.queue.isFree i = true) ∧ d.frames.avail < 3

/-- What a call has done when it returns before its loop: it has answered with an error and published nothing.  It has lost a
descriptor if the frames ran out, and nothing otherwise. -/
structure Failed (d : BlockDevice) (buffer : Vector Byte 512) (d' : BlockDevice) : Prop where
  idle : d'.phase = .idle
  answer : ∃ e, d'.answer = some (.error e, buffer)
  published : d'.traffic.rings.published = d.traffic.rings.published
  size : d'.queue.size = d.queue.size
  free : ¬d.Short ∧ SameFree d d' ∨ d.Short ∧ LosesDesc d d' ∧ d'.frames.avail < 3

theorem submit_cases (d : BlockDevice) (sector now : BitVec 64) (buffer : Vector Byte 512) (isRead : Bool) :
    ∃ d', d.submit sector buffer isRead now = some d' ∧
      (d.Failed buffer d' ∨ 3 ≤ d.queue.size ∧ 3 ≤ d.frames.avail ∧ d'.phase ≠ .idle) := by
  unfold BlockDevice.submit
  rcases d.queue.allocDesc_spec with ⟨head, q, hal, hsame, hlt, hfree, hm⟩ | ⟨hal, hnone⟩
  · rw [hal]
    rcases allocFrames_cases d.frames with
      ⟨header, data, status, a, hf, hav, hback⟩ | ⟨a, hf, hav, hav'⟩
    · rw [hf]
      dsimp only
      rcases request_spec hal (ioBuffers header data status isRead) with
        ⟨rest, q2, hadd, -, hlen, hnd, hall, -⟩ | ⟨msg, q2, hadd, hsame2, -, hm2⟩
      · -- the three descriptors of a request are different ones of the queue
        have hle := length_le_of_nodup (nodup_numbers hnd) (n := d.queue.size) fun i hi => by
          obtain ⟨idx, hidx, rfl⟩ := List.mem_map.1 hi
          exact (hall idx hidx).1
        have ht : (numbers (head :: rest)).length = 3 := (List.length_map _).trans hlen
        simp [hadd]
        omega
      · rw [hadd]
        have hsize := (hsame2.trans (sameBut_freeDesc q2 head)).size
        refine ⟨_, rfl, Or.inl ⟨rfl, ⟨msg, rfl⟩, rfl, hsize, Or.inl ⟨?_, hm2, hback⟩⟩⟩
        rintro ⟨-, hfew⟩
        omega
    · rw [hf]
      exact ⟨_, rfl, Or.inl ⟨rfl, ⟨_, rfl⟩, rfl, hsame.size,
        Or.inr ⟨⟨⟨_, hlt, hfree⟩, hav⟩, ⟨_, hlt, hfree, hm⟩, hav'⟩⟩⟩
  · rw [hal]
    refine ⟨_, rfl, Or.inl ⟨rfl, ⟨_, rfl⟩, rfl, rfl, Or.inl ⟨?_, fun _ => rfl, fun _ => Iff.rfl⟩⟩⟩
    rintro ⟨⟨i, hi, hfree⟩, -⟩
    rw [hnone i hi] at hfree
    cases hfree

theorem failed_of_idle (hs : d.submit sector buffer isRead now = some d') (hidle : d'.phase = .idle) :
    d.Failed buffer d' := by
  obtain ⟨d1, hs1, hf | ⟨-, -, hloop⟩⟩ := submit_cases d sector now buffer isRead
  · simp_all
  · simp_all

theorem exists_failed (h : d.queue.size < 3 ∨ d.frames.avail < 3) (sector now : BitVec 64) (buffer : Vector Byte 512)
    (isRead : Bool) : ∃ d', d.submit sector buffer isRead now = some d' ∧ d.Failed buffer d' := by
  obtain ⟨d', hs, hf | ⟨hsize, ha, -⟩⟩ := submit_cases d sector now buffer isRead
  · exact ⟨d', hs, hf⟩
  · omega

/-- A call that has returned without a request in the queue leaves the free descriptors and the free frames as they were
exactly if there was no free descriptor or there were three free frames. -/
theorem failed_io_keeps_iff (d d' : BlockDevice) (sector now : BitVec 64) (buffer : Vector Byte 512) (isRead : Bool)
    (hsubmit : d.submit sector buffer isRead now = some d') (hidle : d'.phase = .idle) :
    (∃ e, d'.answer = some (.error e, buffer)) ∧ d'.traffic.rings.published = d.traffic.rings.published ∧
      (SameFree d d' ↔ (∀ i, i < d.queue.size → d.queue.isFree i = false) ∨ 3 ≤ d.frames.avail) := by
  have hf := failed_of_idle hsubmit hidle
  refine ⟨hf.answer, hf.published, ?_⟩
  have hsh : ((∀ i, i < d.queue.size → d.queue.isFree i = false) ∨ 3 ≤ d.frames.avail) ↔ ¬d.Short := by
    unfold Short
    grind
  rw [hsh]
  rcases hf.free with ⟨hsh, hsame⟩ | ⟨hsh, hl, -⟩
  · exact iff_of_true hsame hsh
  · exact iff_of_false hl.not_sameFree (not_not.2 hsh)

theorem frames_init (q : Virtqueue) (frames : FrameAllocator) (mem : Nat → ByteBlock) : (init q frames mem).frames = frames :=
  rfl

theorem exists_twoDescs : ∃ q, Virtqueue.new (fun _ => 0) 2 = .ok q := by
  have hsome : (Virtqueue.new (fun _ => 0) 2).toOption.isSome = true := by decide +kernel
  obtain ⟨q, hq⟩ := Option.isSome_iff_exists.1 hsome
  exact ⟨q, Rings.eq_ok_of_toOption hq⟩

/-- A queue of two descriptors has none for the status of a request; the call gives back what it has taken. -/
theorem failed_io_keeps_twoDescs :
    ∃ q d', Virtqueue.new (fun _ => 0) 2 = .ok q ∧
      (init q (FrameAllocator.new.init threeFrames) fun _ _ => 0).submit 0 (Vector.replicate 512 0) true 0 = some d' ∧
      SameFree (init q (FrameAllocator.new.init threeFrames) fun _ _ => 0) d' := by
  obtain ⟨q, hnew⟩ := exists_twoDescs
  have hsize : q.size = 2 := congrArg BitVec.toNat (new_spec hnew).1
  have hsm : (init q (FrameAllocator.new.init threeFrames) fun _ _ => 0).queue.size < 3 := by
    change q.size < 3
    omega
  obtain ⟨d', hsu, hf⟩ := exists_failed (Or.inl hsm) 0 0 (Vector.replicate 512 0) true
  refine ⟨q, d', hnew, hsu, (failed_io_keeps_iff _ d' 0 0 _ true hsu hf.idle).2.2.2 (Or.inr ?_)⟩
  rw [frames_init]
  exact avail_threeFrames

theorem avail_noMemory : (FrameAllocator.new.init []).avail = 0 := by
  rw [FrameAllocator.avail_eq_zero_iff]
  rintro f ⟨hf, hfree⟩
  have hiff := (FrameAllocator.init_spec [] (by simp [Memory.PageAligned])).1 f hf
  obtain ⟨⟨e, he, -⟩, -⟩ := hiff.1 hfree
  cases he

/-- A request without memory loses its descriptor. -/
theorem failed_io_loses_descriptor :
    ¬∀ (d d' : BlockDevice) (sector now : BitVec 64) (buffer buffer' : Vector Byte 512) (isRead : Bool) (e : String),
      d.submit sector buffer isRead now = some d' → d'.phase = .idle → d'.answer = some (.error e, buffer') →
      SameFree d d' := by
  intro hall
  obtain ⟨q, hnew⟩ := exists_twoDescs
  obtain ⟨hsize, -, -, -, -, -, hfree⟩ := new_spec hnew
  have hpos : 0 < q.size := Nat.lt_of_lt_of_eq (by decide) (congrArg BitVec.toNat hsize).symm
  have hfew : (init q (FrameAllocator.new.init []) fun _ _ => 0).frames.avail < 3 := by
    rw [frames_init, avail_noMemory]
    decide
  obtain ⟨d', hsu, hf⟩ := exists_failed (Or.inr hfew) 0 0 (Vector.replicate 512 0) true
  obtain ⟨e, ha⟩ := hf.answer
  obtain ⟨hsh, -⟩ | ⟨-, hl, -⟩ := hf.free
  · exact hsh ⟨⟨0, hpos, (hfree 0).trans (decide_eq_true hpos)⟩, hfew⟩
  · exact hl.not_sameFree (hall _ d' 0 0 _ _ true e hsu hf.idle ha)

end AstralOS.Virtio.BlockDevice
