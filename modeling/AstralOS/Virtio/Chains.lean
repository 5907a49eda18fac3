import AstralOS.Virtio.Rings
import Mathlib.Algebra.BigOperators.Group.List.Basic

/-!
# Requests in flight

The driver's requests on a queue of 128 descriptors: `alloc_desc`, then `add_buf`, and `free_desc` if that fails; with
`get_used` in between and a device that completes heads in any order.  A request is in flight until `get_used` returns
its head.  The chains of the requests in flight are disjoint, spell the buffers of their requests, and are all that is not
free (`descriptors_owned`).
-/

namespace AstralOS.Virtio

open ByteBlock Virtqueue List

/-- The descriptors that are linked from one on, at most so many. -/
def walk (m : ByteBlock) : Nat → BitVec 16 → List (BitVec 16)
  | 0, _ => []
  | k + 1, idx =>
    idx :: if (readDesc m idx.toNat).hasNext then walk m k (readDesc m idx.toNat).next else []

def Virtqueue.chain (q : Virtqueue) (head : BitVec 16) : List (BitVec 16) := walk q.page queueEntries head

structure Request where
  head : BitVec 16
  buffers : List Buffer

/-- The rings, with the requests in flight. -/
structure Traffic where
  rings : Rings
  flight : List Request

/-- The calls of the driver, and the steps of the device. -/
inductive TrafficCall
  | request (buffers : List Buffer)
  | getUsed
  | fetch
  | complete (k : Nat) (len : BitVec 32)

/-! ### Chains of a page -/

variable {m : ByteBlock}

theorem walk_of_follows {idx : BitVec 16} {is : List (BitVec 16)} {k : Nat} (h : Follows m (idx :: is))
    (hk : is.length < k) : walk m k idx = idx :: is := by
  induction is generalizing idx k with
  | nil =>
    obtain ⟨k, rfl⟩ : ∃ k', k = k' + 1 := ⟨k - 1, by omega⟩
    rw [walk, h.1]
    rfl
  | cons j is ih =>
    obtain ⟨k, rfl⟩ : ∃ k', k = k' + 1 := ⟨k - 1, by omega⟩
    rw [walk, h.1, h.2.1 j rfl, ih h.2.2 (by simpa using hk)]
    rfl

theorem chain_of_follows {q : Virtqueue} {head : BitVec 16} {is : List (BitVec 16)} (h : Follows q.page (head :: is))
    (hlt : ∀ i ∈ numbers (head :: is), i < queueEntries) : q.chain head = head :: is := by
  apply walk_of_follows h
  have hlen := length_le_of_nodup (nodup_numbers (nodup_of_follows h)) hlt
  rw [numbers, length_map, length_cons] at hlen
  omega

namespace Traffic

def init (q : Virtqueue) : Traffic := ⟨Rings.init q, []⟩

section

variable (s : Traffic)

def owned : List (BitVec 16) := s.flight.flatMap fun r => s.rings.queue.chain r.head

def publish (q : Virtqueue) (head : BitVec 16) (buffers : List Buffer) : Traffic :=
  { rings := { s.rings with queue := q, published := s.rings.published ++ [head] }
    flight := s.flight ++ [⟨head, buffers⟩] }

def request (buffers : List Buffer) : Option Traffic :=
  match s.rings.queue.allocDesc with
  | (none, q) => some { s with rings := { s.rings with queue := q } }
  | (some head, q) =>
    match q.addBuf head buffers with
    | (.ok _, q) => some (s.publish q head buffers)
    | (.error (.err _), q) => some { s with rings := { s.rings with queue := q.freeDesc head } }
    | (.error .panic, _) => none

/-- `get_used` has returned; the request whose head it returns is not in flight any more. -/
def gone (q : Virtqueue) (r : Option (BitVec 16 × BitVec 32)) : Traffic :=
  { rings := { s.rings with queue := q, returned := s.rings.returned ++ r.toList }
    flight := r.elim s.flight fun r => s.flight.eraseP fun a => a.head == r.1 }

def getUsed : Option Traffic := s.rings.queue.getUsed.map fun (r, q) => s.gone q r

/-- A step; `none` when the driver panics or does not return. -/
def exec : TrafficCall → Option Traffic
  | .request buffers => s.request buffers
  | .getUsed => s.getUsed
  | .fetch => some { s with rings := s.rings.fetch }
  | .complete k len => some { s with rings := s.rings.complete k len }

end

def step (s : Option Traffic) (c : TrafficCall) : Option Traffic := s.bind fun s => s.exec c

/-- The requests in flight have chains of their own that spell their buffers, and what is in none of them is free. -/
structure Owned (s : Traffic) : Prop where
  disjoint : s.flight.Pairwise fun r r' => (s.rings.queue.chain r.head).Disjoint (s.rings.queue.chain r'.head)
  spells : ∀ r ∈ s.flight, Spells s.rings.queue.page (s.rings.queue.chain r.head) r.buffers
  free : ∀ idx : BitVec 16, idx.toNat < queueEntries →
    (s.rings.queue.isFree idx.toNat = true ↔ ∀ r ∈ s.flight, idx ∉ s.rings.queue.chain r.head)

/-- `get_used` returns the head of a request in flight and frees its chain and nothing else; `add_buf` leaves all marks as
they were if it fails. -/
def FreesOwn (s : Traffic) : TrafficCall → Prop
  | .getUsed => ∀ id len q, s.rings.queue.getUsed = some (some (id, len), q) →
      (∃ r ∈ s.flight, r.head = id) ∧ ∀ idx : BitVec 16, idx.toNat < queueEntries →
        (q.isFree idx.toNat = true ↔ s.rings.queue.isFree idx.toNat = true ∨ idx ∈ s.rings.queue.chain id)
  | .request buffers => ∀ head q e q', s.rings.queue.allocDesc = (some head, q) → q.addBuf head buffers = (.error e, q') →
      ∀ i, i ≠ head.toNat → q'.isFree i = q.isFree i
  | _ => True

/-- The invariant: the rings are in order, every request in flight is published and not returned, and no descriptor of
their chains is free. -/
structure Inv (s : Traffic) : Prop where
  rings : s.rings.Inv
  heads : (s.rings.returned.map Prod.fst ++ s.flight.map Request.head).Perm s.rings.published
  spells : ∀ r ∈ s.flight, ∃ is, s.rings.queue.chain r.head = r.head :: is ∧
    Spells s.rings.queue.page (r.head :: is) r.buffers
  within : ∀ idx ∈ s.owned, idx.toNat < s.rings.queue.size
  nodup : s.owned.Nodup
  taken : ∀ idx ∈ s.owned, s.rings.queue.isFree idx.toNat = false

/-- What is in no chain is free. -/
def NoneLost (s : Traffic) : Prop :=
  ∀ idx : BitVec 16, idx.toNat < s.rings.queue.size → idx ∉ s.owned → s.rings.queue.isFree idx.toNat = true

variable {s : Traffic}

theorem owned_iff {idx : BitVec 16} : idx ∉ s.owned ↔ ∀ r ∈ s.flight, idx ∉ s.rings.queue.chain r.head := by
  simp [owned, mem_flatMap]

theorem Inv.owned_of (h : Inv s) (hlost : NoneLost s) (hfull : s.rings.queue.size = queueEntries) : Owned s where
  disjoint := (nodup_flatMap.1 h.nodup).2
  spells := by
    intro r hr
    obtain ⟨is, hc, hs⟩ := h.spells r hr
    rw [hc]
    exact hs
  free := by
    intro idx hidx
    rw [← owned_iff]
    constructor
    · intro hfree hmem
      rw [h.taken idx hmem] at hfree
      cases hfree
    · exact hlost idx (hfull ▸ hidx)

theorem Inv.heads_nodup (h : Inv s) : (s.flight.map Request.head).Nodup := by
  have hn := (nodup_flatMap.1 h.nodup).2
  refine pairwise_map.2 (hn.imp_of_mem ?_)
  intro r r' hr _ hdisj heq
  obtain ⟨is, hc, -⟩ := h.spells r hr
  have hmem : r.head ∈ s.rings.queue.chain r.head := by
    exact mem_cons_self
  exact hdisj hmem (heq ▸ hmem)

variable {head : BitVec 16}

theorem Inv.room (h : Inv s) (hlt : head.toNat < s.rings.queue.size) (hfree : head ∉ s.owned) :
    s.rings.published.length < s.rings.returned.length + s.rings.queue.size := by
  have hone : s.flight.length ≤ s.owned.length := by
    unfold owned
    rw [length_flatMap]
    have hle := length_le_sum_of_one_le (s.flight.map fun r => (s.rings.queue.chain r.head).length) (by
      intro n hn
      obtain ⟨r, hr, rfl⟩ := mem_map.1 hn
      obtain ⟨is, hch, -⟩ := h.spells r hr
      rw [hch]
      simp)
    rwa [length_map] at hle
  have hall : (numbers (head :: s.owned)).length ≤ s.rings.queue.size := by
    refine length_le_of_nodup (nodup_numbers (nodup_cons.2 ⟨hfree, h.nodup⟩)) fun i hi => ?_
    obtain ⟨idx, hidx, rfl⟩ := mem_map.1 hi
    rcases mem_cons.1 hidx with rfl | hidx
    · exact hlt
    · exact h.within idx hidx
  have hco := h.heads.length_eq
  grind [numbers, length_map, length_append, length_cons]

/-! ### Calls of the driver -/

variable {q : Virtqueue}

theorem Inv.chain_congr (h : Inv s)
    (hsame : ∀ idx ∈ s.owned, readDesc q.page idx.toNat = readDesc s.rings.queue.page idx.toNat) {r : Request}
    (hr : r ∈ s.flight) :
    q.chain r.head = s.rings.queue.chain r.head ∧
      ∃ is, q.chain r.head = r.head :: is ∧ Spells q.page (r.head :: is) r.buffers := by
  obtain ⟨is, hc, hs⟩ := h.spells r hr
  have hmem : ∀ idx ∈ r.head :: is, idx ∈ s.owned :=
    fun idx hidx => mem_flatMap.2 ⟨r, hr, hc ▸ hidx⟩
  have hs' : Spells q.page (r.head :: is) r.buffers := by
    apply hs.congr
    intro i hi
    obtain ⟨idx, hidx, rfl⟩ := mem_map.1 hi
    exact hsame idx (hmem idx hidx)
  have hc' : q.chain r.head = r.head :: is := by
    apply chain_of_follows hs'.follows
    intro i hi
    obtain ⟨idx, hidx, rfl⟩ := mem_map.1 hi
    exact Nat.lt_of_lt_of_le (h.within idx (hmem idx hidx)) s.rings.queue.size_le
  exact ⟨hc'.trans hc.symm, is, hc', hs'⟩

/-- A step that leaves the requests and what the rings say of them keeps the invariant if it keeps the descriptors of the
chains and frees nothing. -/
theorem Inv.same (h : Inv s) {rings : Rings} (hri : rings.Inv) (hsize : rings.queue.size = s.rings.queue.size)
    (hpub : rings.published = s.rings.published) (hret : rings.returned = s.rings.returned)
    (hdesc : ∀ idx ∈ s.owned, readDesc rings.queue.page idx.toNat = readDesc s.rings.queue.page idx.toNat)
    (hm : ∀ i, s.rings.queue.isFree i = false → rings.queue.isFree i = false) :
    Inv { s with rings := rings } ∧ owned { s with rings := rings } = s.owned := by
  have ho : owned { s with rings := rings } = s.owned :=
    flatMap_congr fun r hr => (h.chain_congr hdesc hr).1
  refine ⟨⟨hri, ?_, fun r hr => (h.chain_congr hdesc hr).2, ?_, ?_, ?_⟩, ho⟩
  · rw [hpub, hret]
    exact h.heads
  · rw [ho]
    exact fun idx hidx => hsize.symm ▸ h.within idx hidx
  · rw [ho]
    exact h.nodup
  · rw [ho]
    exact fun idx hidx => hm _ (h.taken idx hidx)

theorem NoneLost.same (hlost : NoneLost s) {rings : Rings} (hsize : rings.queue.size = s.rings.queue.size)
    (ho : owned { s with rings := rings } = s.owned)
    (hm : ∀ i, rings.queue.isFree i = s.rings.queue.isFree i) : NoneLost { s with rings := rings } := by
  intro idx hidx hmem
  rw [ho] at hmem
  rw [hm]
  exact hlost idx (hsize ▸ hidx) hmem

def chained (s : Traffic) (q : Virtqueue) (head : BitVec 16) (rest : List (BitVec 16)) (buffers : List Buffer) :
    Virtqueue :=
  Virtqueue.publish { q with page := writeChain s.rings.queue.page (head :: rest) buffers } head

theorem readDesc_chained (hq : SameBut s.rings.queue q) (head : BitVec 16) (rest : List (BitVec 16))
    (buffers : List Buffer) {i : Nat} (hi : i < s.rings.queue.size) :
    readDesc (s.chained q head rest buffers).page i =
      readDesc (writeChain s.rings.queue.page (head :: rest) buffers) i := by
  refine readDesc_publish head ?_
  change i < q.size
  rwa [hq.size]

theorem spells_chained (hq : SameBut s.rings.queue q) {rest : List (BitVec 16)}
    {buffers : List Buffer} (hlen : (head :: rest).length = buffers.length) (hn : (head :: rest).Nodup)
    (hlt : ∀ i ∈ numbers (head :: rest), i < s.rings.queue.size) :
    Spells (s.chained q head rest buffers).page (head :: rest) buffers ∧
      (s.chained q head rest buffers).chain head = head :: rest := by
  have hs : Spells (s.chained q head rest buffers).page (head :: rest) buffers :=
    (spells_writeChain (nodup_numbers hn) hlen).congr fun i hi => readDesc_chained hq head rest buffers (hlt i hi)
  exact ⟨hs, chain_of_follows hs.follows fun i hi => Nat.lt_of_lt_of_le (hlt i hi) s.rings.queue.size_le⟩

theorem Inv.publish (h : Inv s) (hq : SameBut s.rings.queue q)
    {rest : List (BitVec 16)} {buffers : List Buffer} (hslot : s.rings.queue.availSlot < s.rings.queue.size)
    (hlen : (head :: rest).length = buffers.length) (hn : (head :: rest).Nodup)
    (hall : ∀ idx ∈ head :: rest, idx.toNat < s.rings.queue.size ∧ s.rings.queue.isFree idx.toNat = true)
    (hm : ∀ idx : BitVec 16,
      q.isFree idx.toNat = (s.rings.queue.isFree idx.toNat && decide (idx ∉ head :: rest))) :
    Inv (s.publish (s.chained q head rest buffers) head buffers) ∧
      (s.publish (s.chained q head rest buffers) head buffers).owned = s.owned ++ (head :: rest) := by
  have hf : ∀ idx ∈ head :: rest, idx ∉ s.owned := by
    intro idx hidx hmem
    have hfree := (hall idx hidx).2
    rw [h.taken idx hmem] at hfree
    cases hfree
  have hlt : ∀ i ∈ numbers (head :: rest), i < s.rings.queue.size := by
    intro i hi
    obtain ⟨idx, hidx, rfl⟩ := mem_map.1 hi
    exact (hall idx hidx).1
  have hhead : head ∈ head :: rest := mem_cons_self
  have hri := h.rings.addChain hq hlen hlt hslot (h.room (hall head hhead).1 (hf head hhead))
  obtain ⟨hs, hc⟩ := spells_chained hq hlen hn hlt
  have hdesc : ∀ idx ∈ s.owned, readDesc (s.chained q head rest buffers).page idx.toNat =
      readDesc s.rings.queue.page idx.toNat := by
    intro idx hidx
    rw [readDesc_chained hq head rest buffers (h.within idx hidx),
      readDesc_writeChain fun hmem => hf idx (mem_numbers.1 hmem) hidx]
  have ho : (s.publish (s.chained q head rest buffers) head buffers).owned = s.owned ++ (head :: rest) := by
    change (s.flight ++ [Request.mk head buffers]).flatMap
      (fun r => (s.chained q head rest buffers).chain r.head) = _
    rw [flatMap_append, flatMap_singleton, hc]
    exact congrArg (· ++ (head :: rest)) (flatMap_congr fun r hr => (h.chain_congr hdesc hr).1)
  refine ⟨⟨hri, ?_, ?_, ?_, ?_, ?_⟩, ho⟩
  · change (s.rings.returned.map Prod.fst ++ (s.flight ++ [Request.mk head buffers]).map Request.head).Perm _
    rw [map_append, ← append_assoc]
    exact h.heads.append_right [head]
  · intro r hr
    rcases mem_append.1 hr with hr | hr
    · exact (h.chain_congr hdesc hr).2
    · rw [mem_singleton.1 hr]
      exact ⟨rest, hc, hs⟩
  · intro idx hidx
    rw [ho, mem_append] at hidx
    change idx.toNat < q.size
    rw [hq.size]
    rcases hidx with hidx | hidx
    · exact h.within idx hidx
    · exact (hall idx hidx).1
  · rw [ho]
    exact h.nodup.append hn fun idx hidx hidx' => hf idx hidx' hidx
  · intro idx hidx
    rw [ho, mem_append] at hidx
    change q.isFree idx.toNat = false
    rw [hm, Bool.and_eq_false_iff, decide_eq_false_iff_not, not_not]
    rcases hidx with hidx | hidx
    · exact Or.inl (h.taken idx hidx)
    · exact Or.inr hidx

theorem Inv.request (h : Inv s) (hslot : s.rings.queue.availSlot < s.rings.queue.size) (buffers : List Buffer) :
    (∃ t, s.request buffers = some t ∧ Inv t ∧ t.rings.queue.size = s.rings.queue.size ∧ (NoneLost s → NoneLost t)) ∧
      FreesOwn s (.request buffers) := by
  unfold Traffic.request FreesOwn
  cases ha : s.rings.queue.allocDesc with
  | mk head q1 =>
    cases head with
    | none =>
      refine ⟨⟨s, ?_, h, rfl, id⟩, fun _ _ _ _ hq => by cases hq⟩
      rcases s.rings.queue.allocDesc_spec with ⟨_, _, heq, -⟩ | ⟨heq, -⟩
      · rw [ha] at heq
        cases heq
      · rw [ha] at heq
        cases heq
        rfl
    | some head =>
      dsimp only
      rcases request_spec ha buffers with
        ⟨rest, q2, hadd, hsame, hlen, hnd, hall, hm⟩ | ⟨msg, q2, hadd, hsame, hkeep, hm⟩
      · rw [hadd]
        obtain ⟨hinv, ho⟩ := h.publish hsame hslot hlen hnd hall hm
        refine ⟨⟨_, rfl, hinv, hsame.size, fun hlost idx hidx hmem => ?_⟩, fun _ _ _ _ hq hq' => ?_⟩
        · change idx ∉ (s.publish (s.chained q2 head rest buffers) head buffers).owned at hmem
          rw [ho, mem_append, not_or] at hmem
          change q2.isFree idx.toNat = true
          simp_all [hlost idx (hsame.size ▸ hidx) hmem.1]
        · simp_all
      · rw [hadd]
        have hsame' := hsame.trans (sameBut_freeDesc q2 head)
        obtain ⟨hinv, ho⟩ := h.same (h.rings.marks hsame') hsame'.size rfl rfl (fun idx _ => by rw [hsame'.page])
          fun i hi => by rw [hm, hi]
        refine ⟨⟨_, rfl, hinv, hsame'.size, fun hlost => hlost.same hsame'.size ho hm⟩, fun _ _ _ _ hq hq' => ?_⟩
        simp_all

theorem Inv.mem_flight (h : Inv s) {r : BitVec 16 × BitVec 32}
    (hr : s.rings.completed[s.rings.returned.length]? = some r) : ∃ a ∈ s.flight, a.head = r.1 := by
  have hdone : ((s.rings.returned ++ [r]).map Prod.fst).Subperm s.rings.taken :=
    ((prefix_snoc h.rings.used.readFirst hr).map Prod.fst).sublist.subperm.trans
      ((sublist_append_right _ _).subperm.trans h.rings.conserve.subperm)
  have hsub := hdone.trans (h.rings.avail.readFirst.sublist.subperm.trans h.heads.symm.subperm)
  simp_all [map_append, subperm_append_left]

/-- The request whose chain is freed leaves the others as they were; what was owned is its chain and what is owned now. -/
theorem Inv.gone (h : Inv s) {r : BitVec 16 × BitVec 32}
    (hq : SameBut { s.rings.queue with lastUsedIdx := s.rings.queue.lastUsedIdx + 1 } q)
    (hr : Rings.Inv { s.rings with queue := q, returned := s.rings.returned ++ [r] })
    (hmem : ∃ a ∈ s.flight, a.head = r.1)
    (hfree : ∀ idx : BitVec 16, q.isFree idx.toNat = true ↔
      s.rings.queue.isFree idx.toNat = true ∨ idx ∈ s.rings.queue.chain r.1) :
    Inv (s.gone q (some r)) ∧ s.owned.Perm (s.rings.queue.chain r.1 ++ (s.gone q (some r)).owned) := by
  obtain ⟨a, ha, hhead⟩ := hmem
  obtain ⟨b, l1, l2, -, hb, hs, her⟩ :=
    exists_of_eraseP (p := fun a : Request => a.head == r.1) ha (beq_iff_eq.2 hhead)
  have hbh : b.head = r.1 := eq_of_beq hb
  have hpage : q.page = s.rings.queue.page := hq.page
  have hch : ∀ head, q.chain head = s.rings.queue.chain head := fun head => by
    unfold Virtqueue.chain
    rw [hpage]
  have ho : (s.gone q (some r)).owned = (l1 ++ l2).flatMap fun a => s.rings.queue.chain a.head := by
    change (s.flight.eraseP fun a => a.head == r.1).flatMap (fun a => q.chain a.head) = _
    rw [her]
    exact flatMap_congr fun a _ => hch a.head
  have hperm : s.owned.Perm (s.rings.queue.chain r.1 ++ (s.gone q (some r)).owned) := by
    rw [ho]
    unfold owned
    rw [hs, flatMap_append, flatMap_cons, hbh, flatMap_append, ← append_assoc,
      ← append_assoc]
    exact perm_append_comm.append_right _
  obtain ⟨-, hn, hdisj⟩ := nodup_append'.1 (hperm.nodup_iff.1 h.nodup)
  have hold : ∀ idx ∈ (s.gone q (some r)).owned, idx ∈ s.owned :=
    fun idx hidx => hperm.symm.subset (mem_append_right _ hidx)
  refine ⟨⟨hr, ?_, ?_, ?_, hn, ?_⟩, hperm⟩
  · change ((s.rings.returned ++ [r]).map Prod.fst ++ (s.flight.eraseP _).map Request.head).Perm s.rings.published
    have hh := h.heads
    rw [hs] at hh
    rw [her]
    refine List.Perm.trans ?_ hh
    simp only [map_append, map_cons, map_nil, hbh, append_assoc, singleton_append]
    exact List.Perm.append_left _ perm_middle.symm
  · intro c hc
    change ∃ is, q.chain c.head = c.head :: is ∧ Spells q.page (c.head :: is) c.buffers
    rw [hch, hpage]
    exact h.spells c (mem_of_mem_eraseP hc)
  · intro idx hidx
    change idx.toNat < q.size
    rw [hq.size]
    exact h.within idx (hold idx hidx)
  · intro idx hidx
    change q.isFree idx.toNat = false
    rw [← Bool.not_eq_true, hfree, h.taken idx (hold idx hidx)]
    exact fun hor => hor.elim (fun hf => by cases hf) fun hin => hdisj hin hidx

theorem gone_none (s : Traffic) : s.gone s.rings.queue none = s := by
  unfold gone
  rw [Option.toList_none, append_nil]
  rfl

theorem Inv.getUsed_cases (h : Inv s) (hslot : Rings.Agreed s.rings .getUsed) :
    s.rings.queue.getUsed = some (none, s.rings.queue) ∨
    ∃ r q, s.rings.queue.getUsed = some (some r, q) ∧ s.rings.completed[s.rings.returned.length]? = some r ∧
      q.size = s.rings.queue.size ∧
      (∀ idx : BitVec 16, q.isFree idx.toNat = true ↔
        s.rings.queue.isFree idx.toNat = true ∨ idx ∈ s.rings.queue.chain r.1) ∧
      Inv (s.gone q (some r)) ∧ s.owned.Perm (s.rings.queue.chain r.1 ++ (s.gone q (some r)).owned) := by
  rcases h.rings.getUsed_cases hslot with
    ⟨hget, -⟩ | ⟨r, is, q, hget, hnext, hsame, hf, hlt, hm, hr⟩
  · exact Or.inl hget
  · have hc : s.rings.queue.chain r.1 = r.1 :: is :=
      chain_of_follows hf fun i hi => Nat.lt_of_lt_of_le (hlt i hi) s.rings.queue.size_le
    have hfree : ∀ idx : BitVec 16, q.isFree idx.toNat = true ↔
        s.rings.queue.isFree idx.toNat = true ∨ idx ∈ s.rings.queue.chain r.1 := by
      intro idx
      rw [hm, Bool.or_eq_true, decide_eq_true_eq, mem_numbers, hc]
    exact Or.inr ⟨r, q, hget, hnext, hsame.size, hfree, h.gone hsame hr (h.mem_flight hnext) hfree⟩

theorem Inv.getUsed (h : Inv s) (hslot : Rings.Agreed s.rings .getUsed) :
    (∃ t, s.getUsed = some t ∧ Inv t ∧ t.rings.queue.size = s.rings.queue.size ∧ (NoneLost s → NoneLost t)) ∧
      FreesOwn s .getUsed := by
  unfold Traffic.getUsed FreesOwn
  rcases h.getUsed_cases hslot with hget | ⟨r, q, hget, hnext, hsize, hfree, hinv, hperm⟩
  · rw [hget]
    exact ⟨⟨s, congrArg some s.gone_none, h, rfl, id⟩, fun id len q hq => by cases hq⟩
  · rw [hget]
    refine ⟨⟨_, rfl, hinv, hsize, fun hlost idx hidx hmem => ?_⟩, ?_⟩
    · change q.isFree idx.toNat = true
      rw [hfree]
      by_cases hin : idx ∈ s.rings.queue.chain r.1
      · exact Or.inr hin
      · refine Or.inl (hlost idx (hsize ▸ hidx) fun hown => ?_)
        rcases mem_append.1 (hperm.subset hown) with hown | hown
        · exact hin hown
        · exact hmem hown
    · intro id len q' hq
      simp only [Option.some.injEq, Prod.mk.injEq] at hq
      obtain ⟨hr, rfl⟩ := hq
      rw [← show r.1 = id from congrArg Prod.fst hr]
      exact ⟨h.mem_flight hnext, fun idx _ => hfree idx⟩

/-! ### Steps of the device -/

theorem Inv.fetch (h : Inv s) :
    Inv { s with rings := s.rings.fetch } ∧ owned { s with rings := s.rings.fetch } = s.owned := by
  obtain ⟨hq, hpub, -, hret⟩ := s.rings.fetch_same
  refine h.same h.rings.fetch ?_ hpub hret ?_ ?_
  · rw [hq]
  · rw [hq]
    exact fun _ _ => rfl
  · rw [hq]
    exact fun _ => id

theorem Inv.complete (h : Inv s) (k : Nat) (len : BitVec 32) :
    Inv { s with rings := s.rings.complete k len } ∧ owned { s with rings := s.rings.complete k len } = s.owned := by
  obtain ⟨hpub, hret, hsize, hfree, hdesc⟩ := s.rings.complete_same k len
  refine h.same (h.rings.complete k len) (congrArg BitVec.toNat hsize) hpub hret ?_ ?_
  · exact fun idx hidx => hdesc _ (h.within idx hidx)
  · simp [isFree, hfree]

/-! ### Runs -/

/-- The invariant of a queue of 128 descriptors. -/
structure FullInv (s : Traffic) : Prop extends Inv s where
  noneLost : NoneLost s
  full : s.rings.queue.size = queueEntries

theorem FullInv.exec (h : FullInv s) (c : TrafficCall) : (∃ t, s.exec c = some t ∧ FullInv t) ∧ FreesOwn s c := by
  -- In a queue of 128 descriptors every slot is one of the queue.
  have hslot : ∀ n, n % queueEntries < s.rings.queue.size := by
    intro n
    rw [h.full]
    exact Nat.mod_lt _ (by decide)
  cases c with
  | request buffers =>
    obtain ⟨⟨t, heq, hinv, hsize, hlost⟩, hf⟩ := h.toInv.request (hslot _) buffers
    exact ⟨⟨t, heq, hinv, hlost h.noneLost, hsize.trans h.full⟩, hf⟩
  | getUsed =>
    obtain ⟨⟨t, heq, hinv, hsize, hlost⟩, hf⟩ := h.toInv.getUsed (hslot _)
    exact ⟨⟨t, heq, hinv, hlost h.noneLost, hsize.trans h.full⟩, hf⟩
  | fetch =>
    obtain ⟨hinv, ho⟩ := h.toInv.fetch
    have hqu := s.rings.fetch_same.1
    have hsize : s.rings.fetch.queue.size = s.rings.queue.size := by rw [hqu]
    refine ⟨⟨_, rfl, hinv, h.noneLost.same hsize ho ?_, hsize.trans h.full⟩, trivial⟩
    rw [hqu]
    exact fun _ => rfl
  | complete k len =>
    obtain ⟨hinv, ho⟩ := h.toInv.complete k len
    obtain ⟨-, -, hqs, hfree, -⟩ := s.rings.complete_same k len
    have hsize : (s.rings.complete k len).queue.size = s.rings.queue.size := congrArg BitVec.toNat hqs
    refine ⟨⟨_, rfl, hinv, h.noneLost.same hsize ho fun i => ?_, hsize.trans h.full⟩, trivial⟩
    unfold isFree
    rw [hfree]

theorem inv_init {page : ByteBlock} {queueSize : BitVec 16} (h : Virtqueue.new page queueSize = .ok q) :
    Inv (init q) ∧ NoneLost (init q) := by
  obtain ⟨-, -, -, -, -, -, hfree⟩ := new_spec h
  refine ⟨⟨Rings.inv_init h, List.Perm.refl _, ?_, ?_, nodup_nil, ?_⟩, ?_⟩
  · exact fun r hr => by cases hr
  · exact fun idx hidx => by cases hidx
  · exact fun idx hidx => by cases hidx
  · intro idx hidx _
    change q.isFree idx.toNat = true
    rw [hfree]
    exact decide_eq_true hidx

/-- In every run of requests and `get_used` on a queue of 128 descriptors no call panics or hangs, descriptors are owned by
the requests in flight, completions free exactly their chains, and an `add_buf` that fails changes no marks. -/
theorem descriptors_owned {page : ByteBlock} {q : Virtqueue} (hnew : Virtqueue.new page 128 = .ok q)
    (calls : List TrafficCall) :
    Always step (fun s => ∃ t, s = some t ∧ Owned t) (some (init q)) calls ∧
      Meets step (fun s c => ∃ t, s = some t ∧ FreesOwn t c) (some (init q)) calls := by
  obtain ⟨hinv, hlost⟩ := inv_init hnew
  have hinit : ∃ t, some (init q) = some t ∧ FullInv t :=
    ⟨_, rfl, hinv, hlost, congrArg BitVec.toNat (new_spec hnew).1⟩
  have hkeep : ∀ (s : Option Traffic) (c : TrafficCall), True → (∃ t, s = some t ∧ FullInv t) → True →
      ∃ t, step s c = some t ∧ FullInv t := by
    intro s c _ hs _
    obtain ⟨t, rfl, ht⟩ := hs
    exact (ht.exec c).1
  have hm : Meets step (fun _ _ => True) (some (init q)) calls :=
    meets_of_forall (fun _ _ => trivial) _ _
  constructor
  · refine always_of_meets ?_ hkeep hinit (fun _ _ => trivial) hm
    intro s hs
    obtain ⟨t, rfl, ht⟩ := hs
    exact ⟨t, rfl, ht.owned_of ht.noneLost ht.full⟩
  · refine meets_of_meets ?_ hkeep hinit (fun _ _ => trivial) hm
    intro s c _ hs _
    obtain ⟨t, rfl, ht⟩ := hs
    exact ⟨t, rfl, (ht.exec c).2⟩

def twoRequests : List TrafficCall :=
  [.request [Rings.sectorBuffer, Rings.sectorBuffer], .request [Rings.sectorBuffer], .fetch, .fetch, .complete 1 512,
    .getUsed]

theorem descriptors_owned_twoRequests :
    ∃ q, Virtqueue.new (fun _ => 0) 128 = .ok q ∧
      Always step (fun s => ∃ t, s = some t ∧ Owned t) (some (init q)) twoRequests := by
  have hnew : (Virtqueue.new (fun _ => 0) 128).toOption.isSome = true := by decide +kernel
  obtain ⟨q, hq⟩ := Option.isSome_iff_exists.1 hnew
  exact ⟨q, Rings.eq_ok_of_toOption hq, (descriptors_owned (Rings.eq_ok_of_toOption hq) twoRequests).1⟩

end Traffic

end AstralOS.Virtio
