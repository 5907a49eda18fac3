import AstralOS.Lib.RingLog
import AstralOS.Lib.Run
import AstralOS.Virtio.QueueSpec

/-!
# Driver and device on the rings of a queue

The driver's calls together with a device that follows the layout of a split queue of the size it was told: it reads
slot `index mod size` of the available ring and writes slot `index mod size` of the used ring.  The driver uses slots
`index mod 128`.  `Agreed` says when a call of the driver goes to a slot of the queue with room for it; in runs of such
calls the device reads the heads that were published, and the driver gets the heads that were completed, in order
(`rings_agree`).  In a queue of two descriptors the third head goes astray (`rings_disagree`).  Whatever heads a device
returns, the chains of descriptors it does not write come to an end (`completion_walk_ends`).
-/

namespace AstralOS.Virtio

open ByteBlock Virtqueue List

/-- The device: the next index it reads of the available ring, the next it writes of the used ring, and the heads it has
read and not completed. -/
structure Device where
  availSeen : BitVec 16
  usedNext : BitVec 16
  inHand : List (BitVec 16)

/-- The queue and the device, with the history of the heads. -/
structure Rings where
  queue : Virtqueue
  dev : Device
  /-- The heads that `add_buf` has published. -/
  published : List (BitVec 16)
  /-- The heads the device has read. -/
  taken : List (BitVec 16)
  /-- The heads the device has completed, with the lengths it wrote. -/
  completed : List (BitVec 16 × BitVec 32)
  /-- What `get_used` has returned. -/
  returned : List (BitVec 16 × BitVec 32)

/-- The calls of the driver, and the steps of the device. -/
inductive RingCall
  | allocDesc
  | freeDesc (idx : BitVec 16)
  | addBuf (head : BitVec 16) (buffers : List Buffer)
  | getUsed
  | fetch
  | complete (k : Nat) (len : BitVec 32)

/-- The device writes the element with number `idx` of the used ring, and the index behind it. -/
def Virtqueue.putUsed (q : Virtqueue) (idx : BitVec 16) (r : BitVec 16 × BitVec 32) : Virtqueue :=
  let slot := idx.toNat % q.size
  let page := q.page.store (q.usedOffset + 4 + 8 * slot) 4 r.1.toNat
  let page := page.store (q.usedOffset + 4 + 8 * slot + 4) 4 r.2.toNat
  { q with page := page.store (q.usedOffset + 2) 2 (idx + 1).toNat }

namespace Rings

def init (q : Virtqueue) : Rings :=
  { queue := q, dev := ⟨0, 0, []⟩, published := [], taken := [], completed := [], returned := [] }

def next (s : Rings) : Option (BitVec 16) :=
  if s.dev.availSeen = s.queue.availIdx then none
  else some (s.queue.availRing (s.dev.availSeen.toNat % s.queue.size))

def fetch (s : Rings) : Rings :=
  match s.next with
  | none => s
  | some head =>
    { s with
      dev := { s.dev with availSeen := s.dev.availSeen + 1, inHand := s.dev.inHand ++ [head] }
      taken := s.taken ++ [head] }

def complete (s : Rings) (k : Nat) (len : BitVec 32) : Rings :=
  match s.dev.inHand[k]? with
  | none => s
  | some head =>
    { s with
      queue := s.queue.putUsed s.dev.usedNext (head, len)
      dev := { s.dev with usedNext := s.dev.usedNext + 1, inHand := s.dev.inHand.eraseIdx k }
      completed := s.completed ++ [(head, len)] }

/-- A step; `none` when the driver panics or does not return. -/
def exec (s : Rings) : RingCall → Option Rings
  | .allocDesc => some { s with queue := s.queue.allocDesc.2 }
  | .freeDesc idx => some { s with queue := s.queue.freeDesc idx }
  | .addBuf head buffers =>
    match s.queue.addBuf head buffers with
    | (.ok _, q) => some { s with queue := q, published := s.published ++ [head] }
    | (.error (.err _), q) => some { s with queue := q }
    | (.error .panic, _) => none
  | .getUsed => s.queue.getUsed.map fun (r, q) => { s with queue := q, returned := s.returned ++ r.toList }
  | .fetch => some s.fetch
  | .complete k len => some (s.complete k len)

def step (s : Option Rings) (c : RingCall) : Option Rings := s.bind fun s => s.exec c

/-- The calls of the driver that go to a slot of the queue: `add_buf` with a descriptor of the queue as head, while fewer
heads than slots are published and not returned. -/
def Agreed (s : Rings) : RingCall → Prop
  | .addBuf head _ =>
    head.toNat < s.queue.size ∧ s.queue.nextAvailIdx.toNat % queueEntries < s.queue.size ∧
      s.published.length < s.returned.length + s.queue.size
  | .getUsed => s.queue.lastUsedIdx.toNat % queueEntries < s.queue.size
  | _ => True

/-- What was read are the first heads that were published, and the next read gives the next one; what `get_used` returned
are the first completions. -/
def Agree (s : Rings) : Prop :=
  s.taken <+: s.published ∧ s.next = s.published[s.taken.length]? ∧ s.returned <+: s.completed

/-- `get_used` gives the next completion, if there is one, and `add_buf` writes the descriptors and the index and slots of
the available ring only. -/
def Delivers (s : Rings) : RingCall → Prop
  | .getUsed => (s.queue.getUsed.map Prod.fst) = some s.completed[s.returned.length]?
  | .addBuf head buffers => ∀ x, 16 * s.queue.size ≤ x →
      ¬(s.queue.availOffset + 2 ≤ x ∧ x < s.queue.availOffset + 4 + 2 * s.queue.size) →
      (s.queue.addBuf head buffers).2.page x = s.queue.page x
  | _ => True

/-- The rings hold what was published and not read, and what was completed and not returned; each head is completed once;
and every chain of the table ends. -/
structure Inv (s : Rings) : Prop where
  avail : RingLog s.queue.size s.queue.availRing s.queue.availIdx s.dev.availSeen s.published s.taken
  nextAvail : s.queue.nextAvailIdx = s.queue.availIdx
  used : RingLog s.queue.size s.queue.usedEntry s.queue.usedIdx s.queue.lastUsedIdx s.completed s.returned
  usedNext : s.dev.usedNext = s.queue.usedIdx
  conserve : (s.dev.inHand ++ s.completed.map Prod.fst).Perm s.taken
  room : s.published.length ≤ s.returned.length + s.queue.size
  heads : ∀ head ∈ s.published, head.toNat < s.queue.size
  ends : ∀ idx : BitVec 16, idx.toNat < s.queue.size → Ends s.queue.size s.queue.page idx

variable {s : Rings}

/-! ### What the invariant says -/

theorem dvd_of_size (q : Virtqueue) : q.size ∣ 2 ^ 16 := Nat.dvd_trans q.layout.2.1 (by decide)

theorem size_lt (q : Virtqueue) : q.size < 2 ^ 16 := by
  have h128 : queueEntries = 128 := rfl
  have := q.size_le
  omega

theorem slot_eq (q : Virtqueue) {idx : BitVec 16} (h : idx.toNat % queueEntries < q.size) :
    idx.toNat % queueEntries = idx.toNat % q.size := by
  rw [← Nat.mod_eq_of_lt h, Nat.mod_mod_of_dvd _ q.layout.2.1]

theorem Inv.lengths (h : Inv s) :
    s.returned.length ≤ s.completed.length ∧ s.completed.length ≤ s.taken.length ∧
      s.taken.length ≤ s.published.length := by
  have hc := h.conserve.length_eq
  rw [length_append, length_map] at hc
  exact ⟨h.used.readFirst.length_le, by omega, h.avail.readFirst.length_le⟩

variable {head : BitVec 16}

theorem Inv.head_lt (h : Inv s) (hmem : head ∈ s.dev.inHand ∨ head ∈ s.completed.map Prod.fst) :
    head.toNat < s.queue.size :=
  h.heads head (h.avail.readFirst.subset (h.conserve.subset (mem_append.2 hmem)))

theorem Inv.next_eq (h : Inv s) : s.next = s.published[s.taken.length]? := by
  have hlen := h.lengths
  have hroom : s.published.length ≤ s.taken.length + s.queue.size := by
    have := h.room
    omega
  unfold next
  by_cases heq : s.dev.availSeen = s.queue.availIdx
  · rw [if_pos heq, (h.avail.empty_iff (size_lt _) hroom).1 heq]
  · rw [if_neg heq, h.avail.next (size_lt _) (dvd_of_size _) hroom heq]

theorem Inv.agree (h : Inv s) : Agree s := ⟨h.avail.readFirst, h.next_eq, h.used.readFirst⟩

/-! ### Rings that are not written -/

section
variable (q q' : Virtqueue) (hsize : q'.queueSize = q.queueSize)
include hsize

theorem avail_of_same {log seen : List (BitVec 16)} {idx : BitVec 16} (hoff : q'.availOffset = q.availOffset)
    (hsame : SameOn q.availOffset (q.availOffset + 4 + 2 * q.size) q.page q'.page)
    (h : RingLog q.size q.availRing q.availIdx idx log seen) : RingLog q'.size q'.availRing q'.availIdx idx log seen := by
  have hidx : q'.availIdx = q.availIdx := availIdx_congr hoff fun x h1 h2 => hsame x h1 (by omega)
  have hn : q'.size = q.size := congrArg BitVec.toNat hsize
  rw [hidx, hn]
  exact h.congr q.layout.1 fun slot hslot => availRing_congr hoff hslot hsame

theorem used_of_same {log seen : List (BitVec 16 × BitVec 32)} {idx : BitVec 16}
    (hoff : q'.usedOffset = q.usedOffset) (hsame : ∀ hi, SameOn q.usedOffset hi q.page q'.page)
    (h : RingLog q.size q.usedEntry q.usedIdx idx log seen) : RingLog q'.size q'.usedEntry q'.usedIdx idx log seen := by
  have hn : q'.size = q.size := congrArg BitVec.toNat hsize
  rw [usedIdx_congr hoff hsame, hn]
  refine h.congr q.layout.1 fun slot _ => ?_
  unfold usedEntry
  rw [usedRing_congr hoff hsame]

end

/-! ### Calls of the driver -/

variable {q : Virtqueue}

theorem Inv.table (h : Inv s) {m : ByteBlock} (hq : SameBut { s.queue with page := m } q)
    (hm : ∀ hi, SameOn (16 * s.queue.size) hi s.queue.page m)
    (hends : ∀ idx : BitVec 16, idx.toNat < s.queue.size → Ends s.queue.size m idx) : Inv { s with queue := q } := by
  obtain ⟨f, rfl⟩ := hq
  obtain ⟨-, -, ha, hused⟩ := s.queue.layout
  have hm' : ∀ lo hi, 16 * s.queue.size ≤ lo → SameOn lo hi s.queue.page m :=
    fun lo hi hlo x h1 h2 => hm hi x (Nat.le_trans hlo h1) h2
  have hidx : availIdx { s.queue with page := m, free := f } = s.queue.availIdx :=
    availIdx_congr rfl (hm' _ _ (by omega))
  have huidx : usedIdx { s.queue with page := m, free := f } = s.queue.usedIdx :=
    usedIdx_congr rfl fun hi => hm' _ _ (by omega)
  exact
    { avail := avail_of_same s.queue { s.queue with page := m, free := f } rfl rfl (hm' _ _ (by omega)) h.avail
      nextAvail := h.nextAvail.trans hidx.symm
      used := used_of_same s.queue { s.queue with page := m, free := f } rfl rfl (fun hi => hm' _ _ (by omega)) h.used
      usedNext := h.usedNext.trans huidx.symm
      conserve := h.conserve
      room := h.room
      heads := h.heads
      ends := hends }

theorem Inv.marks (h : Inv s) (hq : SameBut s.queue q) : Inv { s with queue := q } :=
  h.table hq (fun _ _ _ _ => rfl) h.ends

theorem Inv.publish (h : Inv s) (hhead : head.toNat < s.queue.size)
    (hslot : s.queue.availSlot < s.queue.size) (hroom : s.published.length < s.returned.length + s.queue.size) :
    Inv { s with queue := s.queue.publish head, published := s.published ++ [head] } := by
  have hlen := h.lengths
  obtain ⟨-, -, ha, hused⟩ := s.queue.layout
  have hsame : ∀ lo hi, hi ≤ 16 * s.queue.size ∨ s.queue.usedOffset ≤ lo →
      SameOn lo hi s.queue.page (s.queue.publish head).page :=
    fun lo hi hout => sameOn_publish head (by omega)
  have hslot' : s.queue.availSlot = s.published.length % s.queue.size := by
    rw [← toNat_ofNat_mod (dvd_of_size s.queue) s.published.length, ← h.avail.written, ← h.nextAvail]
    exact slot_eq s.queue hslot
  have huidx : (s.queue.publish head).usedIdx = s.queue.usedIdx :=
    usedIdx_congr rfl fun hi => hsame _ _ (Or.inr (Nat.le_refl _))
  have hnew : (s.queue.publish head).availRing (s.published.length % s.queue.size) = head := by
    rw [availRing_publish, if_pos hslot'.symm]
  have hold : ∀ slot, slot < s.queue.size → slot ≠ s.published.length % s.queue.size →
      (s.queue.publish head).availRing slot = s.queue.availRing slot := by
    intro slot _ hne
    rw [availRing_publish, if_neg fun heq => hne (heq.trans hslot')]
  refine
    { avail := ?_
      nextAvail := ?_
      used := used_of_same s.queue (s.queue.publish head) rfl rfl (fun hi => hsame _ _ (Or.inr (Nat.le_refl _))) h.used
      usedNext := h.usedNext.trans huidx.symm
      conserve := h.conserve
      room := ?_
      heads := ?_
      ends := ?_ }
  · rw [availIdx_publish]
    exact h.avail.push (by omega) hnew hold
  · rw [availIdx_publish, ← h.nextAvail]
    rfl
  · rw [length_append]
    exact hroom
  · intro idx hidx
    rcases mem_append.1 hidx with hidx | hidx
    · exact h.heads idx hidx
    · rw [mem_singleton.1 hidx]
      exact hhead
  · intro idx hidx
    refine (h.ends idx hidx).congr fun i hi => readDesc_congr (hsame _ _ (Or.inl ?_))
    omega

theorem Inv.addChain (h : Inv s) (hq : SameBut s.queue q) {rest : List (BitVec 16)}
    {buffers : List Buffer} (hlen : (head :: rest).length = buffers.length)
    (hlt : ∀ i ∈ numbers (head :: rest), i < s.queue.size) (hslot : s.queue.availSlot < s.queue.size)
    (hroom : s.published.length < s.returned.length + s.queue.size) :
    Inv { s with
      queue := Virtqueue.publish { q with page := writeChain s.queue.page (head :: rest) buffers } head
      published := s.published ++ [head] } := by
  obtain ⟨f, rfl⟩ := hq
  have ht := h.table ⟨f, rfl⟩ (fun _ => sameOn_writeChain hlt) fun idx hidx =>
    ends_writeChain hlen hlt (h.ends idx hidx)
  exact ht.publish (hlt _ (by simp)) hslot hroom

theorem Inv.addBuf (h : Inv s) {buffers : List Buffer} (hok : Agreed s (.addBuf head buffers)) :
    (∃ s', s.exec (.addBuf head buffers) = some s' ∧ Inv s') ∧ Delivers s (.addBuf head buffers) := by
  obtain ⟨hhead, hslot, hroom⟩ := hok
  obtain ⟨-, -, ha, hused⟩ := s.queue.layout
  unfold exec Delivers
  dsimp only
  rcases s.queue.addBuf_spec hhead buffers with
    ⟨rest, q1, heq, hsame, hlen, -, hall, -⟩ | ⟨msg, q1, heq, hsame, -⟩
  · rw [heq]
    have hlt : ∀ i ∈ numbers (head :: rest), i < s.queue.size := by
      intro i hi
      rw [numbers_cons, mem_cons] at hi
      rcases hi with rfl | hi
      · exact hhead
      · exact (hall i hi).1
    rw [hsame.page]
    refine ⟨⟨_, rfl, h.addChain hsame hlen hlt hslot hroom⟩, fun x hx hring => ?_⟩
    have hout : SameOn x (x + 1) s.queue.page (writeChain s.queue.page (head :: rest) buffers) :=
      fun y h1 h2 => sameOn_writeChain hlt y (by omega) h2
    obtain ⟨f, rfl⟩ := hsame
    unfold Virtqueue.publish
    dsimp only
    exact ((hout.trans (sameOn_store (by omega))).trans (sameOn_store (by omega))) x (Nat.le_refl x) (by omega)
  · rw [heq]
    exact ⟨⟨_, rfl, h.marks hsame⟩, fun x _ _ => by rw [hsame.page]⟩

/-- `get_used` finds nothing if everything is returned, and else returns the next completion and frees the chain of its
head, when it goes to a slot of the queue. -/
theorem Inv.getUsed_cases (h : Inv s) (hok : Agreed s .getUsed) :
    (s.queue.getUsed = some (none, s.queue) ∧ s.completed[s.returned.length]? = none) ∨
    ∃ r is q, s.queue.getUsed = some (some r, q) ∧ s.completed[s.returned.length]? = some r ∧
      SameBut { s.queue with lastUsedIdx := s.queue.lastUsedIdx + 1 } q ∧ Follows s.queue.page (r.1 :: is) ∧
      (∀ i ∈ numbers (r.1 :: is), i < s.queue.size) ∧
      (∀ j, q.isFree j = (s.queue.isFree j || decide (j ∈ numbers (r.1 :: is)))) ∧
      Inv { s with queue := q, returned := s.returned ++ [r] } := by
  have hlen := h.lengths
  have hroom : s.completed.length ≤ s.returned.length + s.queue.size := by
    have := h.room
    omega
  by_cases heq : s.queue.lastUsedIdx = s.queue.usedIdx
  · exact Or.inl ⟨getUsed_of_eq heq, (h.used.empty_iff (size_lt _) hroom).1 heq⟩
  · have hnext := h.used.next (size_lt _) (dvd_of_size _) hroom heq
    rw [← slot_eq s.queue hok] at hnext
    obtain ⟨r, hr⟩ : ∃ r, s.queue.usedEntry (s.queue.lastUsedIdx.toNat % queueEntries) = r := ⟨_, rfl⟩
    rw [hr] at hnext
    have hlt := h.head_lt (Or.inr (mem_map_of_mem (mem_of_getElem? hnext)))
    obtain ⟨is, q', hget, hsame, hf, hw, hm⟩ := getUsed_spec heq hr (h.ends _ hlt)
    refine Or.inr ⟨r, is, q', hget, hnext, hsame, hf, hw, hm, ?_⟩
    have hpop : Inv { s with
        queue := { s.queue with lastUsedIdx := s.queue.lastUsedIdx + 1 }, returned := s.returned ++ [r] } :=
      { h with
        used := h.used.pop hnext
        room := by
          rw [length_append]
          exact Nat.le_trans h.room (Nat.add_le_add_right (Nat.le_add_right _ _) _) }
    exact hpop.marks hsame

theorem Inv.getUsed (h : Inv s) (hok : Agreed s .getUsed) :
    (∃ s', s.exec .getUsed = some s' ∧ Inv s') ∧ Delivers s .getUsed := by
  unfold exec Delivers
  rcases h.getUsed_cases hok with ⟨hget, hnone⟩ | ⟨r, is, q, hget, hnext, -, -, -, -, hinv⟩
  · simp [hget, hnone]
    omega
  · simp [hget, hnext]
    omega

/-! ### Steps of the device -/

theorem fetch_same (s : Rings) :
    s.fetch.queue = s.queue ∧ s.fetch.published = s.published ∧ s.fetch.completed = s.completed ∧
      s.fetch.returned = s.returned := by
  grind [Rings.fetch]

theorem Inv.fetch (h : Inv s) : Inv s.fetch := by
  unfold Rings.fetch
  rw [h.next_eq]
  cases hnext : s.published[s.taken.length]? with
  | none => exact h
  | some head =>
    refine { h with avail := h.avail.pop hnext, conserve := ?_ }
    have hperm : (s.dev.inHand ++ [head] ++ s.completed.map Prod.fst).Perm
        (s.dev.inHand ++ s.completed.map Prod.fst ++ [head]) := by
      rw [append_assoc, append_assoc]
      exact List.Perm.append_left _ perm_append_comm
    exact hperm.trans (h.conserve.append_right [head])

theorem sameOn_putUsed (q : Virtqueue) (idx : BitVec 16) (r : BitVec 16 × BitVec 32) :
    SameOn 0 q.usedOffset q.page (q.putUsed idx r).page := by
  exact ((sameOn_store (by omega)).trans (sameOn_store (by omega))).trans (sameOn_store (by omega))

theorem usedIdx_putUsed (q : Virtqueue) (idx : BitVec 16) (r : BitVec 16 × BitVec 32) :
    (q.putUsed idx r).usedIdx = idx + 1 := by
  unfold putUsed usedIdx
  rw [load_store, ofNat_mod 16 _ 2 (by decide)]

theorem usedEntry_putUsed (q : Virtqueue) (idx : BitVec 16) (r : BitVec 16 × BitVec 32) (slot : Nat) :
    (q.putUsed idx r).usedEntry slot = if slot = idx.toNat % q.size then r else q.usedEntry slot := by
  unfold putUsed usedEntry usedRing
  dsimp only
  by_cases h : slot = idx.toNat % q.size
  · rw [if_pos h, h, load_store_of_apart (by omega), load_store_of_apart (by omega), load_store,
      load_store_of_apart (by omega), load_store, ofNat_mod 32 _ 4 (by decide)]
    have hlt := r.1.isLt
    grind [BitVec.toNat_setWidth, BitVec.toNat_ofNat]
  · rw [if_neg h, load_store_of_apart (by omega), load_store_of_apart (by omega), load_store_of_apart (by omega),
      load_store_of_apart (by omega), load_store_of_apart (by omega), load_store_of_apart (by omega)]

theorem complete_same (s : Rings) (k : Nat) (len : BitVec 32) :
    (s.complete k len).published = s.published ∧ (s.complete k len).returned = s.returned ∧
      (s.complete k len).queue.queueSize = s.queue.queueSize ∧ (s.complete k len).queue.free = s.queue.free ∧
      ∀ i, i < s.queue.size → readDesc (s.complete k len).queue.page i = readDesc s.queue.page i := by
  obtain ⟨-, -, ha, hused⟩ := s.queue.layout
  unfold Rings.complete
  cases s.dev.inHand[k]? with
  | none => exact ⟨rfl, rfl, rfl, rfl, fun _ _ => rfl⟩
  | some head =>
    refine ⟨rfl, rfl, rfl, rfl, fun i hi => readDesc_congr fun x _ h2 => ?_⟩
    exact sameOn_putUsed s.queue s.dev.usedNext (head, len) x (Nat.zero_le x) (by omega)

theorem Inv.complete (h : Inv s) (k : Nat) (len : BitVec 32) : Inv (s.complete k len) := by
  have hlen := h.lengths
  have hroom := h.room
  obtain ⟨-, -, ha, hused⟩ := s.queue.layout
  unfold Rings.complete
  cases hk : s.dev.inHand[k]? with
  | none => exact h
  | some head =>
    obtain ⟨hklt, hkeq⟩ := List.getElem?_eq_some_iff.1 hk
    have hc := h.conserve.length_eq
    rw [length_append, length_map] at hc
    have hsame := sameOn_putUsed s.queue s.dev.usedNext (head, len)
    have hidx : (s.queue.putUsed s.dev.usedNext (head, len)).availIdx = s.queue.availIdx :=
      availIdx_congr rfl fun x _ h2 => hsame x (Nat.zero_le x) (by omega)
    have hslot : s.dev.usedNext.toNat % s.queue.size = s.completed.length % s.queue.size := by
      rw [h.usedNext, h.used.written, toNat_ofNat_mod (dvd_of_size _)]
    refine
      { avail := avail_of_same s.queue (s.queue.putUsed s.dev.usedNext (head, len)) rfl rfl
          (fun x _ h2 => hsame x (Nat.zero_le x) (by omega)) h.avail
        nextAvail := h.nextAvail.trans hidx.symm
        used := ?_
        usedNext := ?_
        conserve := ?_
        room := hroom
        heads := h.heads
        ends := ?_ }
    · rw [usedIdx_putUsed, h.usedNext]
      refine h.used.push (by omega) ?_ fun slot _ hne => ?_
      · rw [usedEntry_putUsed, if_pos (h.usedNext ▸ hslot.symm)]
      · rw [usedEntry_putUsed, if_neg (h.usedNext ▸ fun heq => hne (heq.trans hslot))]
    · rw [usedIdx_putUsed]
    · rw [map_append, map_singleton, ← append_assoc]
      refine List.Perm.trans ?_ h.conserve
      have hperm := perm_append_singleton head (s.dev.inHand.eraseIdx k ++ s.completed.map Prod.fst)
      refine hperm.trans ?_
      rw [← cons_append]
      refine List.Perm.append_right _ ?_
      exact hkeq ▸ getElem_cons_eraseIdx_perm hklt
    · intro idx hlt
      refine (h.ends idx hlt).congr fun i hi => readDesc_congr fun x _ h2 => hsame x (Nat.zero_le x) ?_
      omega

/-! ### Runs -/

theorem inv_init {page : ByteBlock} {queueSize : BitVec 16} (h : Virtqueue.new page queueSize = .ok q) :
    Inv (init q) := by
  obtain ⟨-, hlast, hnext, ha, hused, hf, -⟩ := new_spec h
  unfold init
  refine
    { avail := ?_
      nextAvail := hnext.trans ha.symm
      used := ?_
      usedNext := hused.symm
      conserve := List.Perm.refl _
      room := Nat.zero_le _
      heads := fun head hmem => by cases hmem
      ends := fun idx hidx => ends_of_last hidx ?_ }
  · rw [ha]
    exact RingLog.nil _
  · rw [hused, hlast]
    exact RingLog.nil _
  · grind [VirtqDesc.hasNext]

theorem Inv.exec (h : Inv s) {c : RingCall} (hok : Agreed s c) : (∃ s', s.exec c = some s' ∧ Inv s') ∧ Delivers s c := by
  cases c with
  | allocDesc =>
    refine ⟨⟨_, rfl, h.marks ?_⟩, trivial⟩
    rcases s.queue.allocDesc_spec with ⟨idx, q, heq, hsame, -⟩ | ⟨heq, -⟩
    · rw [heq]
      exact hsame
    · rw [heq]
      exact SameBut.refl _
  | freeDesc idx => exact ⟨⟨_, rfl, h.marks (sameBut_freeDesc _ idx)⟩, trivial⟩
  | addBuf head buffers => exact h.addBuf hok
  | getUsed => exact h.getUsed hok
  | fetch => exact ⟨⟨_, rfl, h.fetch⟩, trivial⟩
  | complete k len => exact ⟨⟨_, rfl, h.complete k len⟩, trivial⟩

/-- In every run of calls that go to a slot of the queue, no call panics or hangs, the device reads the published heads in
order, `get_used` returns the completed heads in order, and `add_buf` writes no slot outside the available ring. -/
theorem rings_agree {page : ByteBlock} {queueSize : BitVec 16} {q : Virtqueue}
    (hnew : Virtqueue.new page queueSize = .ok q) {calls : List RingCall}
    (h : Meets step (fun s c => ∀ r ∈ s, Agreed r c) (some (init q)) calls) :
    Always step (fun s => ∃ r, s = some r ∧ Agree r) (some (init q)) calls ∧
      Meets step (fun s c => ∃ r, s = some r ∧ Delivers r c) (some (init q)) calls := by
  have hinit : ∃ r, some (init q) = some r ∧ Inv r := ⟨_, rfl, inv_init hnew⟩
  have hkeep : ∀ (s : Option Rings) (c : RingCall), True → (∃ r, s = some r ∧ Inv r) → (∀ r ∈ s, Agreed r c) →
      ∃ r, step s c = some r ∧ Inv r := by
    intro s c _ hs hok
    obtain ⟨r, rfl, hr⟩ := hs
    exact (hr.exec (hok r rfl)).1
  constructor
  · refine always_of_meets ?_ hkeep hinit (fun _ _ => trivial) h
    intro s hs
    obtain ⟨r, rfl, hr⟩ := hs
    exact ⟨r, rfl, hr.agree⟩
  · refine meets_of_meets ?_ hkeep hinit (fun _ _ => trivial) h
    intro s c _ hs hok
    obtain ⟨r, rfl, hr⟩ := hs
    exact ⟨r, rfl, (hr.exec (hok r rfl)).2⟩

instance (s : Rings) (c : RingCall) : Decidable (Agreed s c) :=
  match c with
  | .addBuf _ _ => inferInstanceAs (Decidable (_ ∧ _ ∧ _))
  | .getUsed => inferInstanceAs (Decidable (_ < _))
  | .allocDesc | .freeDesc _ | .fetch | .complete _ _ => isTrue trivial

def sectorBuffer : Buffer := ⟨0x1000, 512, true⟩

theorem eq_ok_of_toOption {ε α : Type} {r : Except ε α} {a : α} (h : r.toOption = some a) : r = .ok a := by
  cases r with
  | error e => cases h
  | ok b => exact congrArg Except.ok (Option.some.inj h)

def oneRequest : List RingCall := [.allocDesc, .addBuf 0 [sectorBuffer], .fetch, .complete 0 512, .getUsed]

theorem rings_agree_oneRequest :
    ∃ q, Virtqueue.new (fun _ => 0) 128 = .ok q ∧
      Always step (fun s => ∃ r, s = some r ∧ Agree r) (some (init q)) oneRequest := by
  have hrun : (Virtqueue.new (fun _ => 0) 128).toOption.map (fun q =>
      decide (Meets step (fun s c => ∀ r ∈ s, Agreed r c) (some (init q)) oneRequest)) = some true := by
    decide +kernel
  obtain ⟨q, hnew, hm⟩ := Option.map_eq_some_iff.1 hrun
  exact ⟨q, eq_ok_of_toOption hnew, (rings_agree (eq_ok_of_toOption hnew) (of_decide_eq_true hm)).1⟩

/-- Three requests on a queue of two descriptors, the third after the second is completed and returned. -/
def threeRequests : List RingCall :=
  [.allocDesc, .addBuf 0 [sectorBuffer], .allocDesc, .addBuf 1 [sectorBuffer], .fetch, .fetch, .complete 1 512, .getUsed,
    .allocDesc, .addBuf 1 [sectorBuffer], .fetch]

theorem threeRequests_heads :
    ((Virtqueue.new (fun _ => 0) 2).toOption.bind fun q =>
      (run step (some (init q)) threeRequests).map fun s => (s.published, s.taken)) =
      some ([0, 1, 1], [0, 1, 0]) := by
  decide +kernel

/-- The third head is in slot 2, and the device reads slot 0 again. -/
theorem rings_disagree :
    ∃ q, Virtqueue.new (fun _ => 0) 2 = .ok q ∧
      ¬ Always step (fun s => ∃ r, s = some r ∧ Agree r) (some (init q)) threeRequests := by
  obtain ⟨q, hnew, hrun⟩ := Option.bind_eq_some_iff.1 threeRequests_heads
  obtain ⟨r, hr, hlogs⟩ := Option.map_eq_some_iff.1 hrun
  refine ⟨q, eq_ok_of_toOption hnew, fun hall => ?_⟩
  obtain ⟨r', hr', ha⟩ := hall.run
  obtain rfl : r = r' := Option.some.inj (hr.symm.trans hr')
  rw [Prod.mk.injEq] at hlogs
  have hp := ha.1
  simp_all [hlogs.1, hlogs.2]

end Rings

/-! ### A device that returns any heads -/

/-- The driver's requests and completions, and the page as the device leaves it. -/
inductive PageCall
  | request (buffers : List Buffer)
  | getUsed
  | device (page : ByteBlock)

namespace Virtqueue

def request (q : Virtqueue) (buffers : List Buffer) : Option Virtqueue :=
  match q.allocDesc with
  | (none, q) => some q
  | (some head, q) =>
    match q.addBuf head buffers with
    | (.ok _, q) => some q
    | (.error (.err _), q) => some (q.freeDesc head)
    | (.error .panic, _) => none

/-- A step; `none` when the driver panics or does not return. -/
def execPage (q : Virtqueue) : PageCall → Option Virtqueue
  | .request buffers => q.request buffers
  | .getUsed => q.getUsed.map Prod.snd
  | .device page => some { q with page }

def stepPage (s : Option Virtqueue) (c : PageCall) : Option Virtqueue := s.bind fun q => q.execPage c

/-- The device does not write the descriptor table, and the ids in the used ring are below 128. -/
def Tolerable (q : Virtqueue) : PageCall → Prop
  | .request _ => True
  | .getUsed => (q.usedRing (q.lastUsedIdx.toNat % queueEntries)).id.toNat < queueEntries
  | .device page => SameOn 0 (16 * queueEntries) q.page page

/-- Every chain ends, also one that no request is made of any more. -/
structure AllEnd (q : Virtqueue) : Prop where
  size_eq : q.size = queueEntries
  ends : ∀ idx : BitVec 16, idx.toNat < q.size → Ends q.size q.page idx

variable {q q' : Virtqueue}

theorem AllEnd.same (h : AllEnd q) (hs : SameBut q q') : AllEnd q' := by
  obtain ⟨f, rfl⟩ := hs
  exact ⟨h.size_eq, h.ends⟩

theorem AllEnd.request (h : AllEnd q) (buffers : List Buffer) : ∃ q', q.request buffers = some q' ∧ AllEnd q' := by
  unfold Virtqueue.request
  rcases ha : q.allocDesc with ⟨_ | head, q1⟩
  · rcases q.allocDesc_spec with ⟨idx, q', heq, -⟩ | ⟨heq, -⟩
    · rw [ha] at heq
      cases heq
    · cases ha.symm.trans heq
      exact ⟨q, rfl, h⟩
  · dsimp only
    rcases request_spec ha buffers with ⟨rest, q2, hadd, ⟨f, rfl⟩, hlen, -, hlt, -⟩ | ⟨msg, q2, hadd, hs, -⟩
    · rw [hadd]
      refine ⟨_, rfl, h.size_eq, fun idx hidx => ?_⟩
      have hlt' : ∀ i ∈ numbers (head :: rest), i < q.size := by
        intro i hi
        obtain ⟨k, hk, rfl⟩ := List.mem_map.1 hi
        exact (hlt k hk).1
      exact (ends_writeChain hlen hlt' (h.ends idx hidx)).congr fun i hi => readDesc_publish head hi
    · rw [hadd]
      exact ⟨_, rfl, h.same (hs.trans (sameBut_freeDesc _ head))⟩

theorem AllEnd.execPage (h : AllEnd q) {c : PageCall} (hc : q.Tolerable c) : ∃ q', q.execPage c = some q' ∧ AllEnd q' := by
  cases c with
  | request buffers => exact h.request buffers
  | getUsed =>
    by_cases hne : q.lastUsedIdx = q.usedIdx
    · exact ⟨q, by rw [Virtqueue.execPage, getUsed_of_eq hne]; rfl, h⟩
    · have hid : ((q.usedRing (q.lastUsedIdx.toNat % queueEntries)).id.setWidth 16).toNat < q.size := by
        rw [BitVec.toNat_setWidth, h.size_eq]
        exact Nat.lt_of_le_of_lt (Nat.mod_le _ _) hc
      obtain ⟨is, q', heq, hs, -⟩ := getUsed_spec hne rfl (h.ends _ hid)
      have h' : AllEnd { q with lastUsedIdx := q.lastUsedIdx + 1 } := ⟨h.size_eq, h.ends⟩
      exact ⟨q', by rw [Virtqueue.execPage, heq]; rfl, h'.same hs⟩
  | device page =>
    refine ⟨_, rfl, h.size_eq, fun idx hidx => (h.ends idx hidx).congr fun i hi => readDesc_congr ?_⟩
    have hi : i < queueEntries := h.size_eq ▸ hi
    exact fun x h1 h2 => hc x (Nat.zero_le x) (by omega)

/-- A device that returns any heads, again or without a request, cannot make `get_used` go on forever. -/
theorem completion_walk_ends {page : ByteBlock} {q : Virtqueue} (hnew : Virtqueue.new page 128 = .ok q)
    {calls : List PageCall} (h : Meets stepPage (fun s c => ∀ r ∈ s, r.Tolerable c) (some q) calls) :
    ∃ q', run stepPage (some q) calls = some q' := by
  obtain ⟨hsize, -, -, -, -, hf, -⟩ := new_spec hnew
  have hinit : AllEnd q := by
    refine ⟨congrArg BitVec.toNat hsize, fun idx hidx => ends_of_last hidx ?_⟩
    rw [VirtqDesc.hasNext, hf _ hidx]
    rfl
  have hkeep : ∀ (s : Option Virtqueue) (c : PageCall), True → (∃ r, s = some r ∧ AllEnd r) → (∀ r ∈ s, r.Tolerable c) →
      ∃ r, stepPage s c = some r ∧ AllEnd r := by
    intro s c _ hs hok
    obtain ⟨r, rfl, hr⟩ := hs
    exact hr.execPage (hok r rfl)
  obtain ⟨q', hq', -⟩ := (always_of_meets (P := fun s => ∃ r, s = some r ∧ AllEnd r) (fun _ hs => hs) hkeep ⟨q, rfl, hinit⟩
    (fun _ _ => trivial) h).run
  exact ⟨q', hq'⟩

instance (q : Virtqueue) (c : PageCall) : Decidable (q.Tolerable c) :=
  match c with
  | .request _ => isTrue trivial
  | .getUsed => inferInstanceAs (Decidable (_ < _))
  | .device page => decidable_of_iff (∀ x, x < 16 * queueEntries → page x = q.page x)
      ⟨fun h x _ => h x, fun h x => h x (Nat.zero_le x)⟩

/-- The device returns head 5 before there is a request. -/
def strayHead : List PageCall :=
  [.device fun x => if x = 2314 then 1 else if x = 2316 then 5 else 0, .getUsed, .request [Rings.sectorBuffer], .getUsed]

theorem completion_walk_ends_strayHead :
    ∃ q, Virtqueue.new (fun _ => 0) 128 = .ok q ∧ ∃ q', run stepPage (some q) strayHead = some q' := by
  have hrun : (Virtqueue.new (fun _ => 0) 128).toOption.map (fun q =>
      decide (Meets stepPage (fun s c => ∀ r ∈ s, r.Tolerable c) (some q) strayHead)) = some true := by
    decide +kernel
  obtain ⟨q, hnew, hm⟩ := Option.map_eq_some_iff.1 hrun
  exact ⟨q, Rings.eq_ok_of_toOption hnew, completion_walk_ends (Rings.eq_ok_of_toOption hnew) (of_decide_eq_true hm)⟩

end Virtqueue

end AstralOS.Virtio
