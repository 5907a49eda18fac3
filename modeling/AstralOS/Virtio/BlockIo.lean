import AstralOS.Virtio.Chains

/-!
# Requests of the block driver

The model of `do_io` of `drivers/virtio/block.rs` with a device that works at its own pace: the call takes three frames
and publishes a chain over them, then polls the used ring and the clock in turn.  A frame of a chain that the device has
not completed must not be free.  That holds in runs that never time out on a request the device still has, on slots that
driver and device number alike (`frames_of_requests_taken`); a time-out before the completion frees them
(`timeout_frees_frames`).
-/

namespace AstralOS.Virtio

open ByteBlock Virtqueue
open List hiding Vector
open Memory (FrameAllocator PhysAddr pageSize Stop)

def blkTIn : Nat := 0

def blkTOut : Nat := 1

def timeoutMs : BitVec 64 := 5000

def ioBuffers (header data status : PhysAddr) (isRead : Bool) : List Buffer :=
  [⟨header.addr, 16, false⟩, ⟨data.addr, 512, isRead⟩, ⟨status.addr, 1, true⟩]

/-- A call of `do_io` that has published its request. -/
structure Io where
  head : BitVec 16
  header : PhysAddr
  data : PhysAddr
  status : PhysAddr
  isRead : Bool
  buffer : Vector Byte 512
  start : BitVec 64

/-- Where the driver is: between two calls, or in the loop of a call, before it looks at the used ring or before it looks
at the clock. -/
inductive Phase
  | idle
  | polling (io : Io)
  | checking (io : Io)

def Phase.io : Phase → Option Io
  | .idle => none
  | .polling io => some io
  | .checking io => some io

/-- The driver, the device, the frame allocator and the memory, frame by frame. -/
structure BlockDevice where
  traffic : Traffic
  frames : FrameAllocator
  mem : Nat → ByteBlock
  phase : Phase
  /-- What the last call returned, with the caller's buffer. -/
  answer : Option (Except String Unit × Vector Byte 512)

/-- The steps of the driver and of the device. -/
inductive BlockCall
  | submit (sector : BitVec 64) (buffer : Vector Byte 512) (isRead : Bool) (now : BitVec 64)
  | poll
  | tick (now : BitVec 64)
  | fetch
  | complete (k : Nat) (len : BitVec 32)
  | write (k i : Nat) (off : BitVec 32) (b : Byte)

def writeFrame (mem : Nat → ByteBlock) (p : PhysAddr) (f : ByteBlock → ByteBlock) : Nat → ByteBlock := fun n =>
  if n = p.frame then f (mem n) else mem n

/-- The header of a request (`VirtioBlkReq`). -/
def writeHeader (sector : BitVec 64) (isRead : Bool) (m : ByteBlock) : ByteBlock :=
  ((m.store 0 4 (if isRead then blkTIn else blkTOut)).store 4 4 0).store 8 8 sector.toNat

/-- The data of a request: zeros for a read, the caller's buffer for a write. -/
def writeData (buffer : Vector Byte 512) (isRead : Bool) (m : ByteBlock) : ByteBlock :=
  if isRead then m.zero 0 512 else fun x => if h : x < 512 then buffer[x] else m x

/-- Three frames, one after the other; those that were taken when the frames run out stay taken. -/
def allocFrames (a : FrameAllocator) : Option (PhysAddr × PhysAddr × PhysAddr) × FrameAllocator :=
  match a.allocate with
  | (none, a) => (none, a)
  | (some header, a) =>
    match a.allocate with
    | (none, a) => (none, a)
    | (some data, a) =>
      match a.allocate with
      | (none, a) => (none, a)
      | (some status, a) => (some (header, data, status), a)

def releaseFrames (a : FrameAllocator) (header data status : PhysAddr) : FrameAllocator :=
  ((a.deallocate header).deallocate data).deallocate status

namespace BlockDevice

def init (q : Virtqueue) (frames : FrameAllocator) (mem : Nat → ByteBlock) : BlockDevice :=
  { traffic := Traffic.init q, frames, mem, phase := .idle, answer := none }

def reply (d : BlockDevice) (r : Except String Unit) (buffer : Vector Byte 512) : BlockDevice :=
  { d with phase := .idle, answer := some (r, buffer) }

def setQueue (d : BlockDevice) (q : Virtqueue) : BlockDevice :=
  { d with traffic := { d.traffic with rings := { d.traffic.rings with queue := q } } }

/-- `do_io` up to its loop; `none` when it panics. -/
def submit (d : BlockDevice) (sector : BitVec 64) (buffer : Vector Byte 512) (isRead : Bool) (now : BitVec 64) :
    Option BlockDevice :=
  match d.traffic.rings.queue.allocDesc with
  | (none, q) => some ((d.setQueue q).reply (.error "No free descriptors") buffer)
  | (some head, q) =>
    match allocFrames d.frames with
    | (none, frames) => some ({ d.setQueue q with frames := frames }.reply (.error "Out of memory") buffer)
    | (some (header, data, status), frames) =>
      let mem := writeFrame d.mem header (writeHeader sector isRead)
      let mem := writeFrame mem data (writeData buffer isRead)
      let mem := writeFrame mem status fun m => m.store 0 1 0xFF
      match q.addBuf head (ioBuffers header data status isRead) with
      | (.error (.err e), q) =>
        some ({ d.setQueue (q.freeDesc head) with frames := releaseFrames frames header data status, mem := mem }.reply
          (.error e) buffer)
      | (.error .panic, _) => none
      | (.ok _, q) =>
        some
          { d with
            traffic := d.traffic.publish q head (ioBuffers header data status isRead)
            frames := frames
            mem := mem
            phase := .polling ⟨head, header, data, status, isRead, buffer, now⟩ }

def statusResult (status : Byte) : Except String Unit :=
  if status = 0 then .ok ()
  else if status = 1 then .error "I/O error"
  else if status = 2 then .error "Unsupported operation"
  else .error "Unknown error"

section

variable (d : BlockDevice)

/-- The request is completed: read the answer and give the frames back. -/
def finish (io : Io) : BlockDevice :=
  let status := d.mem io.status.frame 0
  let buffer := if io.isRead ∧ status = 0 then Vector.ofFn fun i => d.mem io.data.frame i.val else io.buffer
  { d with frames := releaseFrames d.frames io.header io.data io.status }.reply (statusResult status) buffer

/-- The part of the loop that looks at the used ring. -/
def poll (io : Io) : Option BlockDevice :=
  d.traffic.rings.queue.getUsed.map fun (r, q) =>
    let d := { d with traffic := d.traffic.gone q r }
    match r with
    | some (id, _) => if id = io.head then d.finish io else { d with phase := .checking io }
    | none => { d with phase := .checking io }

/-- The part of the loop that looks at the clock. -/
def tick (io : Io) (now : BitVec 64) : BlockDevice :=
  if now - io.start > timeoutMs then
    { d with frames := releaseFrames d.frames io.header io.data io.status }.reply (.error "Timeout") io.buffer
  else { d with phase := .polling io }

/-- The device writes a byte of a buffer that it may write, of a request it has in hand. -/
def write (k i : Nat) (off : BitVec 32) (b : Byte) : BlockDevice :=
  match d.traffic.rings.dev.inHand[k]? with
  | none => d
  | some head =>
    match (d.traffic.rings.queue.chain head)[i]? with
    | none => d
    | some idx =>
      let desc := readDesc d.traffic.rings.queue.page idx.toNat
      if desc.flags &&& descFWrite ≠ 0 ∧ off < desc.len then
        let addr := desc.addr.toNat + off.toNat
        { d with
          mem := fun n => if n = addr / pageSize then (d.mem n).store (addr % pageSize) 1 b.toNat else d.mem n }
      else d

/-- A step; the driver takes the one that is due, and `none` is a panic or a loop without end. -/
def exec : BlockCall → Option BlockDevice
  | .submit sector buffer isRead now =>
    match d.phase with
    | .idle => d.submit sector buffer isRead now
    | _ => some d
  | .poll =>
    match d.phase with
    | .polling io => d.poll io
    | _ => some d
  | .tick now =>
    match d.phase with
    | .checking io => some (d.tick io now)
    | _ => some d
  | .fetch => some { d with traffic := { d.traffic with rings := d.traffic.rings.fetch } }
  | .complete k len => some { d with traffic := { d.traffic with rings := d.traffic.rings.complete k len } }
  | .write k i off b => some (d.write k i off b)

end

def step (d : Option BlockDevice) (c : BlockCall) : Option BlockDevice := d.bind fun d => d.exec c

def Uncompleted (d : BlockDevice) (head : BitVec 16) : Prop :=
  (d.traffic.rings.completed.map Prod.fst).count head < d.traffic.rings.published.count head

def FramesTaken (d : BlockDevice) : Prop :=
  ∀ head, d.Uncompleted head → ∀ idx ∈ d.traffic.rings.queue.chain head,
    ¬ d.frames.Free ((readDesc d.traffic.rings.queue.page idx.toNat).addr.toNat / pageSize)

/-- The rings are used at slots of the queue, and the call times out only when the device has completed everything that
was published. -/
def Prompt (d : BlockDevice) : BlockCall → Prop
  | .submit _ _ _ _ => d.traffic.rings.queue.nextAvailIdx.toNat % queueEntries < d.traffic.rings.queue.size
  | .poll => d.traffic.rings.queue.lastUsedIdx.toNat % queueEntries < d.traffic.rings.queue.size
  | .tick now => ∀ io ∈ d.phase.io, now - io.start > timeoutMs → ∀ head ∈ d.traffic.rings.published, ¬ d.Uncompleted head
  | _ => True

def heads (d : BlockDevice) : List (BitVec 16) := (d.phase.io.map Io.head).toList

/-- The invariant: only the call that is going on may have a request that is not completed, and its frames are taken. -/
structure Inv (d : BlockDevice) : Prop where
  traffic : d.traffic.Inv
  pending : ∃ l, l.Sublist d.heads ∧ (d.traffic.rings.completed.map Prod.fst ++ l).Perm d.traffic.rings.published
  flight : ∀ io ∈ d.phase.io, ⟨io.head, ioBuffers io.header io.data io.status io.isRead⟩ ∈ d.traffic.flight
  frames : ∀ io ∈ d.phase.io,
    ¬ d.frames.Free io.header.frame ∧ ¬ d.frames.Free io.data.frame ∧ ¬ d.frames.Free io.status.frame

variable {d : BlockDevice}

/-! ### What the invariant says -/

theorem Inv.mem_heads (h : Inv d) {head : BitVec 16} (hu : d.Uncompleted head) : head ∈ d.heads := by
  obtain ⟨l, hl, hperm⟩ := h.pending
  grind [Uncompleted]

theorem exists_buffer {m : ByteBlock} {is : List (BitVec 16)} {bs : List Buffer} (h : Spells m is bs) {idx : BitVec 16}
    (hidx : idx ∈ is) : ∃ b ∈ bs, (readDesc m idx.toNat).addr = b.addr := by
  induction is generalizing bs with
  | nil => cases hidx
  | cons i is ih =>
    cases bs with
    | nil => exact h.elim
    | cons b bs =>
      rcases mem_cons.1 hidx with rfl | hidx
      · exact ⟨b, mem_cons_self, by rw [h.1]; rfl⟩
      · obtain ⟨b', hb', heq⟩ := ih h.2 hidx
        exact ⟨b', mem_cons_of_mem _ hb', heq⟩

theorem Inv.framesTaken (h : Inv d) : FramesTaken d := by
  intro head hu idx hidx
  have hmem := h.mem_heads hu
  unfold heads at hmem
  rw [Option.mem_toList, Option.map_eq_some_iff] at hmem
  obtain ⟨io, hio, rfl⟩ := hmem
  obtain ⟨is, hc, hs⟩ := h.traffic.spells _ (h.flight io hio)
  obtain ⟨h1, h2, h3⟩ := h.frames io hio
  rw [hc] at hidx
  obtain ⟨b, hb, haddr⟩ := exists_buffer hs hidx
  rw [haddr]
  simp only [ioBuffers, mem_cons, not_mem_nil, or_false] at hb
  rcases hb with rfl | rfl | rfl
  · exact h1
  · exact h2
  · exact h3

theorem Inv.perm_of_idle (h : Inv d) (hidle : d.phase.io = none) :
    (d.traffic.rings.completed.map Prod.fst).Perm d.traffic.rings.published := by
  obtain ⟨l, hl, hperm⟩ := h.pending
  simp_all [heads, append_nil]

theorem Inv.idle (h : Inv d) (hperm : (d.traffic.rings.completed.map Prod.fst).Perm d.traffic.rings.published)
    (frames : FrameAllocator) (mem : Nat → ByteBlock) (r : Except String Unit) (buffer : Vector Byte 512) :
    Inv ({ d with frames := frames, mem := mem }.reply r buffer) where
  traffic := h.traffic
  pending := ⟨[], nil_sublist _, by rwa [append_nil]⟩
  flight := fun io hio => by cases hio
  frames := fun io hio => by cases hio

theorem Inv.setPhase (h : Inv d) {phase : Phase} (hp : phase.io = d.phase.io) : Inv { d with phase := phase } := by
  have hh : heads { d with phase := phase } = d.heads := by
    unfold heads
    rw [hp]
  exact ⟨h.traffic, hh.symm ▸ h.pending, fun io hio => h.flight io (hp ▸ hio), fun io hio => h.frames io (hp ▸ hio)⟩

/-! ### Frames -/

theorem allocate_pair (a : FrameAllocator) :
    (∃ p a', a.allocate = (some p, a') ∧ a.Free p.frame ∧ (∀ f, a'.Free f ↔ a.Free f ∧ f ≠ p.frame) ∧
      a.avail = a'.avail + 1) ∨
    ∃ a', a.allocate = (none, a') ∧ a.avail = 0 ∧ a'.avail = 0 := by
  rcases a.allocate_spec with ⟨p, hp, hfree, hrest, ha⟩ | ⟨hnone, -, ha, ha'⟩
  · exact Or.inl ⟨p, a.allocate.2, by rw [← hp], hfree, hrest, ha⟩
  · exact Or.inr ⟨a.allocate.2, by rw [← hnone], ha, ha'⟩

variable {a : FrameAllocator}

theorem free_allocate {a' : FrameAllocator} {p : PhysAddr} (h : a.allocate = (some p, a')) (f : Nat) :
    a'.Free f ↔ a.Free f ∧ f ≠ p.frame := by
  rcases allocate_pair a with ⟨p', a1, heq, -, hfree, -⟩ | ⟨a1, heq, -⟩
  · simp_all [h]
  · rw [h] at heq
    cases heq

theorem exists_allocFrames (h : 3 ≤ a.avail) :
    ∃ header data status a', allocFrames a = (some (header, data, status), a') ∧
      a.Free header.frame ∧ a.Free data.frame ∧ a.Free status.frame := by
  have hsome : ∀ a : FrameAllocator, 0 < a.avail →
      ∃ p a', a.allocate = (some p, a') ∧ a.Free p.frame ∧ a.avail = a'.avail + 1 := by
    intro a ha
    rcases allocate_pair a with ⟨p, a', heq, hfree, -, hav⟩ | ⟨a', -, hzero, -⟩
    · exact ⟨p, a', heq, hfree, hav⟩
    · omega
  obtain ⟨header, a1, h1, hf1, hn1⟩ := hsome a (by omega)
  obtain ⟨data, a2, h2, hf2, hn2⟩ := hsome a1 (by omega)
  obtain ⟨status, a3, h3, hf3, -⟩ := hsome a2 (by omega)
  have hdown1 : ∀ f, a1.Free f → a.Free f := fun f hf => ((free_allocate h1 f).1 hf).1
  have hdown2 : ∀ f, a2.Free f → a1.Free f := fun f hf => ((free_allocate h2 f).1 hf).1
  simp_all [allocFrames]

theorem allocFrames_spec {a' : FrameAllocator} {header data status : PhysAddr}
    (h : allocFrames a = (some (header, data, status), a')) :
    ¬ a'.Free header.frame ∧ ¬ a'.Free data.frame ∧ ¬ a'.Free status.frame := by
  unfold allocFrames at h
  split at h
  · cases h
  · rename_i a1 h1
    split at h
    · cases h
    · rename_i a2 h2
      split at h
      · cases h
      · rename_i a3 h3
        cases h
        simp [free_allocate h3, free_allocate h2, free_allocate h1]

/-! ### Steps of the driver -/

variable {q : Virtqueue}

theorem Inv.unpublished (h : Inv d) (hidle : d.phase.io = none) (hq : SameBut d.traffic.rings.queue q)
    (hm : ∀ i, d.traffic.rings.queue.isFree i = false → q.isFree i = false) (frames : FrameAllocator)
    (mem : Nat → ByteBlock) (r : Except String Unit) (buffer : Vector Byte 512) :
    Inv ({ d.setQueue q with frames := frames, mem := mem }.reply r buffer) where
  traffic := (h.traffic.same (h.traffic.rings.marks hq) hq.size rfl rfl (fun idx _ => by rw [hq.page]) hm).1
  pending := ⟨[], nil_sublist _, by
    rw [append_nil]
    exact h.perm_of_idle hidle⟩
  flight := fun io hio => by cases hio
  frames := fun io hio => by cases hio

theorem Inv.submit (h : Inv d) (hidle : d.phase.io = none)
    (hslot : d.traffic.rings.queue.availSlot < d.traffic.rings.queue.size) (sector : BitVec 64)
    (buffer : Vector Byte 512) (isRead : Bool) (now : BitVec 64) :
    ∃ d', d.submit sector buffer isRead now = some d' ∧ Inv d' := by
  unfold BlockDevice.submit
  rcases d.traffic.rings.queue.allocDesc_spec with ⟨head, q1, ha, hsame1, -, -, hm1⟩ | ⟨ha, -⟩
  · rw [ha]
    have hmono : ∀ i, d.traffic.rings.queue.isFree i = false → q1.isFree i = false := by
      grind
    cases hf : allocFrames d.frames with
    | mk got frames =>
      rcases got with _ | ⟨header, data, status⟩
      · exact ⟨_, rfl, h.unpublished hidle hsame1 hmono frames d.mem _ buffer⟩
      · dsimp only
        rcases request_spec ha (ioBuffers header data status isRead) with
          ⟨rest, q2, hadd, hsame, hlen, hnd, hall, hm⟩ | ⟨msg, q2, hadd, hsame, -, hm⟩
        · rw [hadd]
          refine ⟨_, rfl, (h.traffic.publish hsame hslot hlen hnd hall hm).1, ⟨[head], List.Sublist.refl _, ?_⟩, ?_, ?_⟩
          · exact (h.perm_of_idle hidle).append_right [head]
          · intro io hio
            cases hio
            exact mem_append_right _ (mem_singleton_self _)
          · intro io hio
            cases hio
            exact allocFrames_spec hf
        · rw [hadd]
          exact ⟨_, rfl, h.unpublished hidle (hsame.trans (sameBut_freeDesc q2 head))
            (fun i hi => by rw [hm, hi]) _ _ _ buffer⟩
  · rw [ha]
    exact ⟨_, rfl, h.unpublished hidle (SameBut.refl _) (fun _ => id) d.frames d.mem _ buffer⟩

variable {io : Io}

theorem Inv.perm_of_returned (h : Inv d) (hio : d.phase.io = some io) {len : BitVec 32}
    (hnext : d.traffic.rings.completed[d.traffic.rings.returned.length]? = some (io.head, len)) :
    (d.traffic.rings.completed.map Prod.fst).Perm d.traffic.rings.published := by
  obtain ⟨l, hl, hperm⟩ := h.pending
  unfold heads at hl
  rw [hio] at hl
  rcases sublist_singleton.1 hl with rfl | rfl
  · rwa [append_nil] at hperm
  · -- Else the head would be twice among those in flight, which are different.
    exfalso
    have hdone : ((d.traffic.rings.returned ++ [(io.head, len)]).map Prod.fst).Subperm
        (d.traffic.rings.completed.map Prod.fst) :=
      ((prefix_snoc h.traffic.rings.used.readFirst hnext).map Prod.fst).sublist.subperm
    have hsub := ((subperm_append_right [io.head]).2 hdone).trans
      (hperm.subperm.trans h.traffic.heads.symm.subperm)
    have htwo := hsub.count_le io.head
    have hone := nodup_iff_count_le_one.1 h.traffic.heads_nodup io.head
    simp at htwo
    omega

theorem Inv.poll (h : Inv d) (hio : d.phase.io = some io)
    (hslot : d.traffic.rings.queue.lastUsedIdx.toNat % queueEntries < d.traffic.rings.queue.size) :
    ∃ d', d.poll io = some d' ∧ Inv d' := by
  unfold BlockDevice.poll
  rcases h.traffic.getUsed_cases hslot with hget | ⟨r, q, hget, hnext, -, -, hinv, -⟩
  · rw [hget]
    refine ⟨_, rfl, ?_⟩
    dsimp only
    rw [Traffic.gone_none]
    exact h.setPhase hio.symm
  · rw [hget]
    refine ⟨_, rfl, ?_⟩
    dsimp only
    have hgone : ∀ l : List (BitVec 16),
        (d.traffic.rings.completed.map Prod.fst ++ l).Perm d.traffic.rings.published →
        ((d.traffic.gone q (some r)).rings.completed.map Prod.fst ++ l).Perm
          (d.traffic.gone q (some r)).rings.published := fun _ => id
    by_cases hid : r.1 = io.head
    · rw [if_pos hid]
      have hperm := h.perm_of_returned hio (show _ = some (io.head, r.2) by rw [hnext, ← hid])
      exact
        { traffic := hinv
          pending := ⟨[], nil_sublist _, hgone [] (by rwa [append_nil])⟩
          flight := fun io' hmem => by cases hmem
          frames := fun io' hmem => by cases hmem }
    · rw [if_neg hid]
      have hm := h.setPhase (show (Phase.checking io).io = d.phase.io from hio.symm)
      obtain ⟨l, hl, hperm⟩ := hm.pending
      refine ⟨hinv, ⟨l, hl, hgone l hperm⟩, fun io' hmem => ?_, hm.frames⟩
      cases hmem
      refine (mem_eraseP_of_neg ?_).2 (h.flight io hio)
      simpa using Ne.symm hid

variable {now : BitVec 64}

theorem Inv.tick (h : Inv d) (hio : d.phase.io = some io)
    (hp : now - io.start > timeoutMs → ∀ head ∈ d.traffic.rings.published, ¬ d.Uncompleted head) :
    Inv (d.tick io now) := by
  unfold BlockDevice.tick
  by_cases hlate : now - io.start > timeoutMs
  · rw [if_pos hlate]
    refine h.idle ?_ _ d.mem _ _
    obtain ⟨l, hl, hperm⟩ := h.pending
    have hnil : l = [] := by
      by_contra hne
      obtain ⟨head, hhead⟩ := exists_mem_of_ne_nil l hne
      refine hp hlate head (hperm.subset (mem_append_right _ hhead)) ?_
      grind [Uncompleted]
    rwa [hnil, append_nil] at hperm
  · rw [if_neg hlate]
    exact h.setPhase hio.symm

/-! ### Steps of the device -/

theorem Inv.fetch (h : Inv d) :
    Inv { d with traffic := { d.traffic with rings := d.traffic.rings.fetch } } := by
  obtain ⟨-, hpub, hcomp, -⟩ := d.traffic.rings.fetch_same
  refine ⟨h.traffic.fetch.1, ?_, h.flight, h.frames⟩
  rw [hpub, hcomp]
  exact h.pending

theorem Inv.complete (h : Inv d) (k : Nat) (len : BitVec 32) :
    Inv { d with traffic := { d.traffic with rings := d.traffic.rings.complete k len } } := by
  refine ⟨(h.traffic.complete k len).1, ?_, h.flight, h.frames⟩
  obtain ⟨l, hl, hperm⟩ := h.pending
  unfold Rings.complete
  cases hk : d.traffic.rings.dev.inHand[k]? with
  | none => exact ⟨l, hl, hperm⟩
  | some head =>
    refine ⟨[], nil_sublist _, ?_⟩
    -- What the device has in hand is not completed, and that is at most the head of the call.
    have hsub : (d.traffic.rings.completed.map Prod.fst ++ d.traffic.rings.dev.inHand).Subperm
        (d.traffic.rings.completed.map Prod.fst ++ l) :=
      (perm_append_comm.trans h.traffic.rings.conserve).subperm.trans
        (h.traffic.rings.avail.readFirst.sublist.subperm.trans hperm.symm.subperm)
    have hmem : head ∈ l := ((subperm_append_left _).1 hsub).subset (mem_of_getElem? hk)
    have hl' : l = [head] := by
      unfold heads at hl
      cases hio : d.phase.io with
      | none =>
        grind
      | some io =>
        rw [hio] at hl
        rcases sublist_singleton.1 (show l.Sublist [io.head] from hl) with rfl | rfl
        · cases hmem
        · rw [mem_singleton.1 hmem]
    simpa [hl', map_append, append_nil] using hperm

theorem Inv.write (h : Inv d) (k i : Nat) (off : BitVec 32) (b : Byte) : Inv (d.write k i off b) := by
  have hmem : ∀ mem, Inv { d with mem := mem } := fun _ => ⟨h.traffic, h.pending, h.flight, h.frames⟩
  unfold BlockDevice.write
  split
  · exact h
  · split
    · exact h
    · dsimp only
      split
      · exact hmem _
      · exact h

/-! ### Runs -/

theorem Inv.exec (h : Inv d) {c : BlockCall} (hc : d.Prompt c) : ∃ d', d.exec c = some d' ∧ Inv d' := by
  cases c with
  | submit sector buffer isRead now =>
    unfold BlockDevice.exec
    cases hp : d.phase with
    | idle =>
      have hidle : d.phase.io = none := by rw [hp]; rfl
      exact h.submit hidle hc sector buffer isRead now
    | polling _ | checking _ => exact ⟨d, rfl, h⟩
  | poll =>
    unfold BlockDevice.exec
    cases hp : d.phase with
    | idle | checking _ => exact ⟨d, rfl, h⟩
    | polling io =>
      have hio : d.phase.io = some io := by rw [hp]; rfl
      exact h.poll hio hc
  | tick now =>
    unfold BlockDevice.exec
    cases hp : d.phase with
    | idle | polling _ => exact ⟨d, rfl, h⟩
    | checking io =>
      have hio : d.phase.io = some io := by rw [hp]; rfl
      exact ⟨_, rfl, h.tick hio (hc io hio)⟩
  | fetch => exact ⟨_, rfl, h.fetch⟩
  | complete k len => exact ⟨_, rfl, h.complete k len⟩
  | write k i off b => exact ⟨_, rfl, h.write k i off b⟩

theorem inv_init {page : ByteBlock} {queueSize : BitVec 16} (h : Virtqueue.new page queueSize = .ok q)
    (frames : FrameAllocator) (mem : Nat → ByteBlock) : Inv (init q frames mem) where
  traffic := (Traffic.inv_init h).1
  pending := ⟨[], nil_sublist _, List.Perm.refl _⟩
  flight := fun io hio => by cases hio
  frames := fun io hio => by cases hio

/-- In every run that uses slots of the queue and does not time out on a request the device still has, no frame of an
uncompleted request is free. -/
theorem frames_of_requests_taken {page : ByteBlock} {queueSize : BitVec 16} {q : Virtqueue}
    (hnew : Virtqueue.new page queueSize = .ok q) (frames : FrameAllocator) (mem : Nat → ByteBlock)
    {calls : List BlockCall} (h : Meets step (fun d c => ∀ b ∈ d, Prompt b c) (some (init q frames mem)) calls) :
    Always step (fun d => ∃ b, d = some b ∧ FramesTaken b) (some (init q frames mem)) calls := by
  have hinit : ∃ b, some (init q frames mem) = some b ∧ Inv b := ⟨_, rfl, inv_init hnew frames mem⟩
  refine always_of_meets (I := fun d => ∃ b, d = some b ∧ Inv b) (R := fun _ => True) ?_ ?_ hinit (fun _ _ => trivial) h
  · intro d hd
    obtain ⟨b, rfl, hb⟩ := hd
    exact ⟨b, rfl, hb.framesTaken⟩
  · intro d c _ hd hc
    obtain ⟨b, rfl, hb⟩ := hd
    exact hb.exec (hc b rfl)

def threeFrames : List Memory.Entry := [⟨0x100000#64, 0x3000#64, .usable⟩]

def readCall : BlockCall := .submit 0 (Vector.replicate 512 0) true 0

theorem newQueue_descs :
    (Virtqueue.new (fun _ => 0) 128).toOption.map (fun q => (q.allocDesc.1, (allocChain 2 q.allocDesc.2 []).1)) =
      some (some 0, some [1, 2]) := by
  decide +kernel

theorem prompt_readCall (hnew : Virtqueue.new (fun _ => 0) 128 = .ok q) (frames : FrameAllocator)
    (mem : Nat → ByteBlock) : Prompt (init q frames mem) readCall := by
  change _ % queueEntries < q.size
  rw [show q.size = queueEntries from congrArg BitVec.toNat (new_spec hnew).1]
  exact Nat.mod_lt _ (by decide)

theorem frames_of_requests_taken_readCall :
    ∃ q, Virtqueue.new (fun _ => 0) 128 = .ok q ∧
      Always step (fun d => ∃ b, d = some b ∧ FramesTaken b)
        (some (init q (FrameAllocator.new.init threeFrames) fun _ _ => 0)) [readCall] := by
  obtain ⟨q, hnew, -⟩ := Option.map_eq_some_iff.1 newQueue_descs
  replace hnew := Rings.eq_ok_of_toOption hnew
  refine ⟨q, hnew, frames_of_requests_taken hnew _ _ ⟨fun b hb => ?_, trivial⟩⟩
  rw [← Option.some.inj hb]
  exact prompt_readCall hnew _ _

theorem Inv.not_framesTaken_tick (h : Inv d) (hio : d.phase.io = some io) (hu : d.Uncompleted io.head)
    (hlt : io.header.frame < Memory.maxFrames) (hlate : now - io.start > timeoutMs) :
    ¬ FramesTaken (d.tick io now) := by
  obtain ⟨is, hc, hs⟩ := h.traffic.spells _ (h.flight io hio)
  have haddr : (readDesc d.traffic.rings.queue.page io.head.toNat).addr = io.header.addr := by
    rw [hs.1]
    rfl
  unfold BlockDevice.tick
  rw [if_pos hlate]
  intro ht
  have hmem : io.head ∈ d.traffic.rings.queue.chain io.head := by
    exact mem_cons_self
  refine ht io.head hu io.head hmem ?_
  change (releaseFrames d.frames io.header io.data io.status).Free
    ((readDesc d.traffic.rings.queue.page io.head.toNat).addr.toNat / pageSize)
  simpa [releaseFrames, haddr, FrameAllocator.free_deallocate] using Or.inl (Or.inl (Or.inr ⟨hlt, rfl⟩))

theorem free_threeFrames {f : Nat} (hf : f < Memory.maxFrames) :
    (FrameAllocator.new.init threeFrames).Free f ↔ 256 ≤ f ∧ f < 259 := by
  have ha : Memory.PageAligned threeFrames := by
    unfold Memory.PageAligned
    decide
  have hp : pageSize = 4096 := rfl
  unfold FrameAllocator.Free
  rw [(FrameAllocator.init_spec threeFrames ha).1 f hf]
  simp [Memory.Allocatable, Memory.Usable, threeFrames, Memory.Entry.Holds, hp]
  omega

theorem avail_threeFrames : 3 ≤ (FrameAllocator.new.init threeFrames).avail := by
  have hsub : ({256, 257, 258} : Finset Nat) ⊆ (Finset.range Memory.maxFrames).filter
      fun f => (FrameAllocator.new.init threeFrames).bitmap.test f = false := by
    intro f hf
    have hlt : 256 ≤ f ∧ f < 259 := by
      grind
    have hmax : f < Memory.maxFrames := Nat.lt_trans hlt.2 (by decide)
    exact Finset.mem_filter.2 ⟨Finset.mem_range.2 hmax, ((free_threeFrames hmax).2 hlt).2⟩
  exact Finset.card_le_card hsub

theorem submit_of_ok {head : BitVec 16} {q1 q2 : Virtqueue} {header data status : PhysAddr}
    {sector : BitVec 64} {buffer : Vector Byte 512} {isRead : Bool}
    (ha : d.traffic.rings.queue.allocDesc = (some head, q1))
    (hf : allocFrames d.frames = (some (header, data, status), a))
    (hadd : q1.addBuf head (ioBuffers header data status isRead) = (.ok (), q2)) :
    d.submit sector buffer isRead now = some
      { d with
        traffic := d.traffic.publish q2 head (ioBuffers header data status isRead)
        frames := a
        mem := writeFrame (writeFrame (writeFrame d.mem header (writeHeader sector isRead)) data
          (writeData buffer isRead)) status fun m => m.store 0 1 0xFF
        phase := .polling ⟨head, header, data, status, isRead, buffer, now⟩ } := by
  unfold BlockDevice.submit
  rw [ha]
  rw [hf]
  dsimp only
  rw [hadd]

def lateRead : List BlockCall := [readCall, .poll, .tick 5001]

theorem valid_of_pos {p : PhysAddr} (h : 0 < p.frame) {len : BitVec 32} (hlen : len ≠ 0) (writable : Bool) :
    Buffer.Valid ⟨p.addr, len, writable⟩ := by
  refine ⟨hlen, fun hzero => ?_⟩
  have haddr := p.toNat_eq
  have hp : pageSize = 4096 := rfl
  simp_all

theorem readCall_published (hnew : Virtqueue.new (fun _ => 0) 128 = .ok q) {frames : FrameAllocator}
    (hav : 3 ≤ frames.avail) (hpos : ∀ f, frames.Free f → 0 < f) (mem : Nat → ByteBlock) :
    ∃ d io, (init q frames mem).exec readCall = some d ∧ d.phase = .polling io ∧ io.start = 0 ∧
      io.header.frame < Memory.maxFrames ∧ d.traffic.rings.published = [io.head] ∧ d.traffic.rings.completed = [] := by
  have hd := newQueue_descs
  rw [hnew] at hd
  have hpair : (q.allocDesc.1, (allocChain 2 q.allocDesc.2 []).1) = (some 0, some [1, 2]) := Option.some.inj hd
  obtain ⟨hal, hc⟩ := Prod.mk.inj hpair
  obtain ⟨header, data, status, a, hf, hf1, hf2, hf3⟩ := exists_allocFrames hav
  have hv : ∀ b ∈ ioBuffers header data status true, Buffer.Valid b := by
    intro b hb
    simp only [ioBuffers, mem_cons, not_mem_nil, or_false] at hb
    rcases hb with rfl | rfl | rfl
    · exact valid_of_pos (hpos _ hf1) (by decide) false
    · exact valid_of_pos (hpos _ hf2) (by decide) true
    · exact valid_of_pos (hpos _ hf3) (by decide) true
  have hadd : ∃ q', q.allocDesc.2.addBuf 0 (ioBuffers header data status true) = (.ok (), q') := by
    unfold addBuf
    rw [if_neg (by simp [ioBuffers]), if_neg (not_not.2 hv)]
    cases htake : allocChain ((ioBuffers header data status true).length - 1) q.allocDesc.2 [] with
    | mk rest q2 =>
      have hrest : rest = some [1, 2] := by rw [← hc, ← show _ = rest from congrArg Prod.fst htake]; rfl
      subst hrest
      exact ⟨_, rfl⟩
  obtain ⟨q', hadd⟩ := hadd
  have hs : q.allocDesc = (some 0, q.allocDesc.2) := by rw [← hal]
  exact ⟨_, _, submit_of_ok (d := init q frames mem) hs hf hadd, rfl, rfl, hf1.1, rfl, rfl⟩

theorem not_always_lateRead (hnew : Virtqueue.new (fun _ => 0) 128 = .ok q)
    {frames : FrameAllocator} (ha : 3 ≤ frames.avail) (hpos : ∀ f, frames.Free f → 0 < f) (mem : Nat → ByteBlock) :
    ¬ Always step (fun d => ∃ b, d = some b ∧ FramesTaken b) (some (init q frames mem)) lateRead := by
  obtain ⟨d, io, hexec, hp, hs, hlt, hpub, hcomp⟩ := readCall_published hnew ha hpos mem
  have hio : d.phase.io = some io := by rw [hp]; rfl
  have hinv : Inv d := by
    obtain ⟨d', hexec', hinv⟩ := (inv_init hnew frames mem).exec (prompt_readCall hnew frames mem)
    simp_all
  -- Nothing is completed, so the loop goes on to the clock.
  have hpoll : d.exec .poll = some { d with phase := .checking io } := by
    have hused := hinv.traffic.rings.used
    have hret : d.traffic.rings.returned = [] := prefix_nil.1 (hcomp ▸ hused.readFirst)
    have heq : d.traffic.rings.queue.lastUsedIdx = d.traffic.rings.queue.usedIdx := by
      rw [hused.read, hused.written, hret, hcomp]
    simp [BlockDevice.exec, BlockDevice.poll, hp, getUsed_of_eq heq, Option.map_some, Traffic.gone_none]
  have hu : d.Uncompleted io.head := by
    grind [Uncompleted]
  have hlate : (5001 : BitVec 64) - io.start > timeoutMs := by
    rw [hs]
    decide
  have hm := hinv.setPhase (show (Phase.checking io).io = d.phase.io from hio.symm)
  have hstep1 : step (some (init q frames mem)) readCall = some d := hexec
  have hstep2 : step (some d) .poll = some { d with phase := .checking io } := hpoll
  have hstep3 : step (some { d with phase := .checking io }) (.tick 5001) =
      some (tick { d with phase := .checking io } io 5001) := rfl
  intro hall
  obtain ⟨-, -, -, b, hb, ht⟩ := hall
  rw [hstep1, hstep2, hstep3, Option.some.injEq] at hb
  rw [← hb] at ht
  exact hm.not_framesTaken_tick rfl hu hlt hlate ht

/-- A time-out before the device has completed the request frees frames the device may still write. -/
theorem timeout_frees_frames :
    ∃ q, Virtqueue.new (fun _ => 0) 128 = .ok q ∧
      ¬ Always step (fun d => ∃ b, d = some b ∧ FramesTaken b)
        (some (init q (FrameAllocator.new.init threeFrames) fun _ _ => 0)) lateRead := by
  obtain ⟨q, hnew, -⟩ := Option.map_eq_some_iff.1 newQueue_descs
  replace hnew := Rings.eq_ok_of_toOption hnew
  refine ⟨q, hnew, ?_⟩
  have hpos : ∀ f, (FrameAllocator.new.init threeFrames).Free f → 0 < f := fun f hf =>
    Nat.lt_of_lt_of_le (by decide) ((free_threeFrames hf.1).1 hf).1
  exact not_always_lateRead hnew avail_threeFrames hpos _

end BlockDevice

end AstralOS.Virtio
