import AstralOS.Lib.Run
import AstralOS.Lib.SharedStack
import AstralOS.Memory.Slab

/-!
# A slab used by several CPUs

The loops of `Slab::alloc` and `Slab::free` in `memory/slab.rs`, one atomic access a step.  Any number of CPUs take their
steps in any order, and each step sees the memory as the one before it left it.  `alloc` reads the link of the head
before it exchanges the head, and the exchange compares the head only: it also succeeds when the head was taken and put
back in between, with another link.

`SlabRace.Inv` says that each object is free or belongs to one CPU, which holds it or is about to return it or to free
it.  An exchange that finds the link as `alloc` read it keeps that (`SlabRace.Inv.exec`), so without stale links no
object is handed out twice (`slab_objects_once`).
-/

namespace AstralOS.Memory

open Function Slab

/-- Where a CPU is in `alloc` or `free`, with the variables it has read so far. -/
inductive SlabPc
  | idle
  /-- Before the load of the head in `alloc`. -/
  | allocHead
  /-- Before the load of the head's link. -/
  | allocNext (head : BitVec 64)
  /-- Before the exchange of the head for its link. -/
  | allocExchange (head next : BitVec 64)
  /-- Before the counter is raised and the object returned. -/
  | allocCount (head : BitVec 64)
  /-- Before the load of the head in `free`. -/
  | freeHead (obj : BitVec 64)
  /-- Before the store of the object's link. -/
  | freeLink (obj head : BitVec 64)
  /-- Before the exchange of the head for the object. -/
  | freeExchange (obj head : BitVec 64)
  /-- Before the counter is lowered. -/
  | freeCount
  deriving DecidableEq

/-- The memory, where each CPU is, and the objects it holds. -/
structure SlabRace where
  mem : ByteMem
  pc : Nat → SlabPc
  held : Nat → List (BitVec 64)

/-- A call of `alloc` or `free`, the next atomic access of a CPU, or a store of a holder into its object.  A weak
exchange may fail although the values agree. -/
inductive SlabAction
  | alloc (cpu : Nat)
  | free (cpu : Nat) (ptr : BitVec 64)
  | step (cpu : Nat) (spurious : Bool)
  | store (cpu : Nat) (addr : BitVec 64) (byte : BitVec 8)

namespace SlabRace

def start (m : ByteMem) : SlabRace := { mem := m, pc := fun _ => .idle, held := fun _ => [] }

def goto (s : SlabRace) (cpu : Nat) (pc : SlabPc) : SlabRace := { s with pc := update s.pc cpu pc }

def compareExchangeWeak (m : ByteMem) (slab current new : BitVec 64) (spurious : Bool) : Option ByteMem :=
  if freeList m slab = current ∧ spurious = false then some (setFreeList m slab new) else none

def access (slab : BitVec 64) (s : SlabRace) (cpu : Nat) (spurious : Bool) : SlabRace :=
  match s.pc cpu with
  | .idle => s
  | .allocHead =>
    let head := freeList s.mem slab
    s.goto cpu (if head = 0 then .idle else .allocNext head)
  | .allocNext head => s.goto cpu (.allocExchange head (s.mem.read64 head))
  | .allocExchange head next =>
    match compareExchangeWeak s.mem slab head next spurious with
    | some m => { s with mem := m }.goto cpu (.allocCount head)
    | none => s.goto cpu .allocHead
  | .allocCount head =>
    { s with
      mem := setAllocated s.mem slab (allocated s.mem slab + 1)
      held := update s.held cpu (head :: s.held cpu) }.goto cpu .idle
  | .freeHead obj => s.goto cpu (.freeLink obj (freeList s.mem slab))
  | .freeLink obj head => { s with mem := s.mem.write64 obj head }.goto cpu (.freeExchange obj head)
  | .freeExchange obj head =>
    match compareExchangeWeak s.mem slab head obj spurious with
    | some m => { s with mem := m }.goto cpu .freeCount
    | none => s.goto cpu (.freeHead obj)
  | .freeCount => { s with mem := setAllocated s.mem slab (allocated s.mem slab - 1) }.goto cpu .idle

/-- One action.  A CPU that calls `free` no longer holds the object. -/
def exec (slab : BitVec 64) (s : SlabRace) : SlabAction → SlabRace
  | .alloc cpu => s.goto cpu .allocHead
  | .free cpu ptr => { s with held := update s.held cpu ((s.held cpu).erase ptr) }.goto cpu (.freeHead ptr)
  | .step cpu spurious => s.access slab cpu spurious
  | .store _ addr byte => { s with mem := s.mem.write8 addr byte }

/-- What callers may do: call when no call of theirs is running, free an object they hold, and write into objects they
hold. -/
def Permitted (size : Nat) (s : SlabRace) : SlabAction → Prop
  | .alloc cpu => s.pc cpu = .idle
  | .free cpu ptr => s.pc cpu = .idle ∧ ptr ∈ s.held cpu
  | .step _ _ => True
  | .store cpu addr _ => ∃ p ∈ s.held cpu, p.toNat ≤ addr.toNat ∧ addr.toNat < p.toNat + size

instance (size : Nat) (s : SlabRace) (a : SlabAction) : Decidable (s.Permitted size a) :=
  match a with
  | .alloc cpu => inferInstanceAs (Decidable (s.pc cpu = .idle))
  | .free cpu ptr => inferInstanceAs (Decidable (s.pc cpu = .idle ∧ ptr ∈ s.held cpu))
  | .step _ _ => inferInstanceAs (Decidable True)
  | .store cpu addr _ =>
    @List.decidableBEx _ (fun p : BitVec 64 => p.toNat ≤ addr.toNat ∧ addr.toNat < p.toNat + size)
      (fun _ => instDecidableAnd) (s.held cpu)

/-- No object is returned while a CPU still holds it. -/
def Safe (s : SlabRace) : SlabAction → Prop
  | .step cpu _ => ∀ p, s.pc cpu = .allocCount p → ∀ other, p ∉ s.held other
  | _ => True

/-- An exchange in `alloc` that succeeds finds the link of the head as it was read. -/
def Fresh (slab : BitVec 64) (s : SlabRace) : SlabAction → Prop
  | .step cpu false =>
    match s.pc cpu with
    | .allocExchange head next => freeList s.mem slab = head → s.mem.read64 head = next
    | _ => True
  | _ => True

instance (slab : BitVec 64) (s : SlabRace) (a : SlabAction) : Decidable (s.Fresh slab a) := by
  unfold Fresh
  split
  · split <;> infer_instance
  · infer_instance

end SlabRace

/-- The object in the hands of a call: taken from the list and not returned yet, or not yet put back. -/
def SlabPc.object : SlabPc → List (BitVec 64)
  | .allocCount p | .freeHead p | .freeLink p _ | .freeExchange p _ => [p]
  | _ => []

/-- What a call knows of the values it has read. -/
def SlabPc.Ok (m : ByteMem) : SlabPc → Prop
  | .allocNext head | .allocExchange head _ => head ≠ 0
  | .freeExchange obj head => m.read64 obj = head
  | _ => True

theorem SlabPc.Ok.congr {m m' : ByteMem} {pc : SlabPc} (h : pc.Ok m)
    (hsame : ∀ p ∈ pc.object, m'.read64 p = m.read64 p) : pc.Ok m' := by
  cases pc with
  | freeExchange obj head => exact (hsame obj (by simp [SlabPc.object])).trans h
  | _ => exact h

namespace SlabRace

def mine (s : SlabRace) (cpu : Nat) : List (BitVec 64) := (s.pc cpu).object ++ s.held cpu

/-- The free list, and the objects of the CPUs. -/
structure Inv (size : Nat) (slab : BitVec 64) (s : SlabRace) (fs : List (BitVec 64)) : Prop where
  page : IsPage slab
  stack : SharedStack s.mem.read64 0 (freeList s.mem slab) fs s.mine
  free : ∀ p ∈ fs, IsObject size slab p
  taken : ∀ cpu, ∀ p ∈ s.mine cpu, IsObject size slab p
  locals : ∀ cpu, (s.pc cpu).Ok s.mem

variable {size : Nat} {slab : BitVec 64} {s : SlabRace} {fs : List (BitVec 64)} {c : Nat} {pc : SlabPc}

theorem inv_start {m : ByteMem} (h : SlabOk m size slab fs) : (start m).Inv size slab fs where
  page := h.page
  stack := ⟨h.list, h.nodup, by simp [mine, start, SlabPc.object], by simp [mine, start, SlabPc.object],
    by simp [mine, start, SlabPc.object]⟩
  free := h.objects
  taken := by simp [mine, start, SlabPc.object]
  locals := fun _ => trivial

namespace Inv

section

variable (h : s.Inv size slab fs)
include h

theorem change {m' : ByteMem} {held : List (BitVec 64)} {fs' : List (BitVec 64)}
    (hsame : ∀ p, IsObject size slab p → p ∉ s.mine c → m'.read64 p = s.mem.read64 p)
    (hs : SharedStack m'.read64 0 (freeList m' slab) fs' (update s.mine c (pc.object ++ held)))
    (hfs : ∀ p ∈ fs', p ∈ fs ∨ p ∈ s.mine c) (hmine : ∀ p ∈ pc.object ++ held, p ∈ fs ∨ p ∈ s.mine c)
    (hpc : pc.Ok m') :
    Inv size slab { mem := m', pc := update s.pc c pc, held := update s.held c held } fs' := by
  have hobj : ∀ p, p ∈ fs ∨ p ∈ s.mine c → IsObject size slab p := fun p hp => hp.elim (h.free p) (h.taken c p)
  have heq : mine { mem := m', pc := update s.pc c pc, held := update s.held c held } =
      update s.mine c (pc.object ++ held) := by
    funext j
    by_cases hj : j = c
    · subst hj
      simp [mine]
    · simp [mine, update_of_ne hj]
  refine ⟨h.page, heq ▸ hs, fun p hp => hobj p (hfs p hp), ?_, ?_⟩
  · intro j p hp
    rw [heq] at hp
    by_cases hj : j = c
    · simp_all [update_self]
    · rw [update_of_ne hj] at hp
      exact h.taken j p hp
  · intro j
    by_cases hj : j = c
    · subst hj
      simpa using hpc
    · simp only [update_of_ne hj]
      -- the link that another `free` has just stored is still there
      refine (h.locals j).congr fun p hp => ?_
      have hmem : p ∈ s.mine j := List.mem_append_left _ hp
      exact hsame p (h.taken j p hmem) fun hc => hj (h.stack.owner hmem hc)

theorem goto (hobj : pc.object = (s.pc c).object) (hpc : pc.Ok s.mem) :
    (s.goto c pc).Inv size slab fs := by
  have hmine : pc.object ++ s.held c = s.mine c := by rw [hobj, mine]
  have hs : SharedStack s.mem.read64 0 (freeList s.mem slab) fs (update s.mine c (pc.object ++ s.held c)) :=
    h.stack.reorder (by rw [hmine])
  have := h.change (fun _ _ _ => rfl) hs (fun p hp => Or.inl hp) (fun p hp => Or.inr (hmine ▸ hp)) hpc
  rwa [update_eq_self] at this

theorem read64_setField (hc : ClassSize size) {k : Nat} (hk : k < slabHeaderSize) (hd : 8 ∣ k)
    (v : BitVec 64) {p : BitVec 64} (hp : IsObject size slab p) :
    (s.mem.write64 (slab + BitVec.ofNat 64 k) v).read64 p = s.mem.read64 p :=
  ByteMem.read64_write64_of_apart (ByteMem.apart_of_ne (h.page.dvd_field (Nat.lt_trans hk (by decide)) hd)
    (hp.aligned h.page hc) (hp.ne_field h.page hc hk).symm)

theorem count (hc : ClassSize size) (n : BitVec 64) {held : List (BitVec 64)}
    (hmine : pc.object ++ held = s.mine c) (hpc : ∀ m, pc.Ok m) :
    Inv size slab
      { mem := setAllocated s.mem slab n, pc := update s.pc c pc, held := update s.held c held } fs := by
  have hread : ∀ p, IsObject size slab p → (setAllocated s.mem slab n).read64 p = s.mem.read64 p :=
    fun p hp => h.read64_setField hc (k := 24) (by decide) (by decide) n hp
  have hhead : freeList (setAllocated s.mem slab n) slab = freeList s.mem slab :=
    ByteMem.read64_write64_of_apart (ByteMem.apart_of_ne (h.page.dvd_field (k := 24) (by decide) (by decide))
      (h.page.dvd_field (k := 40) (by decide) (by decide))
      (h.page.field_ne (k := 24) (l := 40) (by decide) (by decide) (by decide)))
  refine h.change (fun p hp _ => hread p hp) ?_ (fun p hp => Or.inl hp) (fun p hp => Or.inr (hmine ▸ hp)) (hpc _)
  rw [hhead]
  exact (h.stack.relink fun p hp => hread p (h.free p hp)).reorder (by rw [hmine])

theorem exchange_alloc (hc : ClassSize size) {head : BitVec 64} (hzero : head ≠ 0)
    (hobj : (s.pc c).object = []) (hhead : freeList s.mem slab = head) :
    ∃ fs', Inv size slab
      ({ s with mem := setFreeList s.mem slab (s.mem.read64 head) }.goto c (.allocCount head)) fs' := by
  have hread : ∀ p, IsObject size slab p →
      (setFreeList s.mem slab (s.mem.read64 head)).read64 p = s.mem.read64 p :=
    fun p hp => h.read64_setField hc (k := 40) (by decide) (by decide) _ hp
  cases fs with
  | nil => exact absurd (hhead.symm.trans h.stack.list) hzero
  | cons p fs =>
    obtain rfl : head = p := hhead.symm.trans h.stack.list.1
    have hmine : (SlabPc.allocCount head).object ++ s.held c = head :: s.mine c := by
      rw [mine, hobj]
      rfl
    have hnew : freeList (setFreeList s.mem slab (s.mem.read64 head)) slab = s.mem.read64 head :=
      ByteMem.read64_write64 ..
    have hs : SharedStack (setFreeList s.mem slab (s.mem.read64 head)).read64 0
        (freeList (setFreeList s.mem slab (s.mem.read64 head)) slab) fs
        (update s.mine c ((SlabPc.allocCount head).object ++ s.held c)) := by
      rw [hnew, hmine]
      exact h.stack.pop.relink fun q hq => hread q (h.free q (by simp [hq]))
    have := h.change (fun q hq _ => hread q hq) hs (fun q hq => Or.inl (by simp [hq]))
      (fun q hq => by
        rw [hmine] at hq
        rcases List.mem_cons.1 hq with rfl | hq
        · exact Or.inl (by simp)
        · exact Or.inr hq) trivial
    rw [update_eq_self] at this
    exact ⟨fs, this⟩

theorem link (hc : ClassSize size) {obj : BitVec 64} (hobj : (s.pc c).object = [obj])
    (head : BitVec 64) :
    Inv size slab ({ s with mem := s.mem.write64 obj head }.goto c (.freeExchange obj head)) fs := by
  have hmem : obj ∈ s.mine c := by simp [mine, hobj]
  have hmine : (SlabPc.freeExchange obj head).object ++ s.held c = s.mine c := by
    rw [mine, hobj]
    rfl
  have ho := h.taken c obj hmem
  have hread : ∀ p, IsObject size slab p → p ∉ s.mine c → (s.mem.write64 obj head).read64 p = s.mem.read64 p := by
    intro p hp hn
    refine ByteMem.read64_write64_of_apart
      (ByteMem.apart_of_ne (ho.aligned h.page hc) (hp.aligned h.page hc) ?_)
    rintro rfl
    exact hn hmem
  have hhead : freeList (s.mem.write64 obj head) slab = freeList s.mem slab :=
    ByteMem.read64_write64_of_apart (ByteMem.apart_of_ne (ho.aligned h.page hc)
      (h.page.dvd_field (k := 40) (by decide) (by decide)) (ho.ne_field h.page hc (k := 40) (by decide)))
  have hs : SharedStack (s.mem.write64 obj head).read64 0 (freeList (s.mem.write64 obj head) slab) fs
      (update s.mine c ((SlabPc.freeExchange obj head).object ++ s.held c)) := by
    rw [hhead, hmine]
    exact (h.stack.relink fun p hp => hread p (h.free p hp) fun hp' => h.stack.apart hp' hp).reorder (.refl _)
  have := h.change hread hs (fun p hp => Or.inl hp) (fun p hp => Or.inr (hmine ▸ hp)) (ByteMem.read64_write64 ..)
  rwa [update_eq_self] at this

theorem exchange_free (hc : ClassSize size) {obj : BitVec 64}
    (hobj : (s.pc c).object = [obj]) (hlink : s.mem.read64 obj = freeList s.mem slab) :
    Inv size slab ({ s with mem := setFreeList s.mem slab obj }.goto c .freeCount) (obj :: fs) := by
  have hmine : s.mine c = obj :: s.held c := by simp [mine, hobj]
  have ho := h.taken c obj (by simp [hmine])
  have hread : ∀ p, IsObject size slab p → (setFreeList s.mem slab obj).read64 p = s.mem.read64 p :=
    fun p hp => h.read64_setField hc (k := 40) (by decide) (by decide) _ hp
  have hnew : freeList (setFreeList s.mem slab obj) slab = obj := ByteMem.read64_write64 ..
  have hpush := h.stack.push (.of_eq hmine) (ho.ne_zero h.page hc) hlink
  have hobjs : ∀ p ∈ obj :: fs, p ∈ fs ∨ p ∈ s.mine c := by
    intro p hp
    rcases List.mem_cons.1 hp with rfl | hp
    · exact Or.inr (by simp [hmine])
    · exact Or.inl hp
  have hs : SharedStack (setFreeList s.mem slab obj).read64 0 (freeList (setFreeList s.mem slab obj) slab)
      (obj :: fs) (update s.mine c (SlabPc.freeCount.object ++ s.held c)) := by
    rw [hnew]
    refine hpush.relink fun p hp => hread p ?_
    exact (hobjs p hp).elim (h.free p) (h.taken c p)
  have := h.change (fun p hp _ => hread p hp) hs hobjs
    (fun p hp => Or.inr (by rw [hmine]; exact List.mem_cons_of_mem _ hp)) trivial
  rwa [update_eq_self] at this

theorem store (hc : ClassSize size) {p addr : BitVec 64} (byte : BitVec 8) (hp : p ∈ s.held c)
    (hle : p.toNat ≤ addr.toNat) (hlt : addr.toNat < p.toNat + size) :
    Inv size slab { s with mem := s.mem.write8 addr byte } fs := by
  have hmem : p ∈ s.mine c := by simp [mine, hp]
  have ho := h.taken c p hmem
  have hread : ∀ q, IsObject size slab q → q ≠ p → (s.mem.write8 addr byte).read64 q = s.mem.read64 q := by
    intro q hq hne
    have hw := Nat.le_of_dvd hc.pos hc.words
    have ha := ho.apart hq h.page hc hne.symm
    have hend := (hq.bounds h.page hc).2.1
    have hfits := h.page.fits
    exact ByteMem.read64_write8_of_le (by bv_omega)
  have hhead : freeList (s.mem.write8 addr byte) slab = freeList s.mem slab := by
    have hb := (ho.bounds h.page hc).1
    have : slabHeaderSize = 56 := rfl
    exact ByteMem.read64_write8_of_le (by bv_omega)
  have hout : p ∉ (s.pc c).object := fun hin => (List.nodup_append.1 (h.stack.once c)).2.2 p hin p hp rfl
  have hs : SharedStack (s.mem.write8 addr byte).read64 0 (freeList (s.mem.write8 addr byte) slab) fs
      (update s.mine c ((s.pc c).object ++ s.held c)) := by
    rw [hhead]
    refine (h.stack.relink fun q hq => hread q (h.free q hq) ?_).reorder (.refl _)
    rintro rfl
    exact h.stack.apart hmem hq
  have := h.change (fun q hq hn => hread q hq fun he => hn (he ▸ hmem)) hs (fun q hq => Or.inl hq)
    (fun q hq => Or.inr hq) ((h.locals c).congr fun q hq => hread q (h.taken c q (List.mem_append_left _ hq))
      fun he => hout (he ▸ hq))
  rwa [update_eq_self, update_eq_self] at this

theorem release {p : BitVec 64} (hidle : s.pc c = .idle) (hp : p ∈ s.held c) :
    Inv size slab
      ({ s with held := update s.held c ((s.held c).erase p) }.goto c (.freeHead p)) fs := by
  have hperm : (s.mine c).Perm ((SlabPc.freeHead p).object ++ (s.held c).erase p) := by
    rw [mine, hidle]
    exact List.perm_cons_erase hp
  exact h.change (fun _ _ _ => rfl) (h.stack.reorder hperm) (fun q hq => Or.inl hq)
    (fun q hq => Or.inr (hperm.mem_iff.2 hq)) trivial

theorem access (hc : ClassSize size) (c : Nat) (spurious : Bool)
    (hf : s.Fresh slab (.step c spurious)) : ∃ fs', (s.access slab c spurious).Inv size slab fs' := by
  have hok := h.locals c
  unfold SlabRace.access
  cases hpc : s.pc c with
  | idle => exact ⟨fs, h⟩
  | allocHead =>
    refine ⟨fs, h.goto ?_ ?_⟩
    · rw [hpc]
      split <;> rfl
    · split
      · trivial
      · next hhead => exact hhead
  | allocNext head =>
    rw [hpc] at hok
    exact ⟨fs, h.goto (by rw [hpc]; rfl) hok⟩
  | allocExchange head next =>
    rw [hpc] at hok
    by_cases hhead : freeList s.mem slab = head ∧ spurious = false
    · obtain ⟨hhead, rfl⟩ := hhead
      simp only [Fresh, hpc] at hf
      obtain rfl : s.mem.read64 head = next := hf hhead
      simp only [compareExchangeWeak, hhead, and_self, if_true]
      exact h.exchange_alloc hc hok (by rw [hpc]; rfl) hhead
    · simp only [compareExchangeWeak, if_neg hhead]
      exact ⟨fs, h.goto (by rw [hpc]; rfl) trivial⟩
  | allocCount head => exact ⟨fs, h.count hc _ (by rw [mine, hpc]; rfl) fun _ => trivial⟩
  | freeHead obj => exact ⟨fs, h.goto (by rw [hpc]; rfl) trivial⟩
  | freeLink obj head => exact ⟨fs, h.link hc (by rw [hpc]; rfl) head⟩
  | freeExchange obj head =>
    rw [hpc] at hok
    by_cases hhead : freeList s.mem slab = head ∧ spurious = false
    · simp only [compareExchangeWeak, if_pos hhead]
      exact ⟨_, h.exchange_free hc (by rw [hpc]; rfl) (hok.trans hhead.1.symm)⟩
    · simp only [compareExchangeWeak, if_neg hhead]
      exact ⟨fs, h.goto (by rw [hpc]; rfl) trivial⟩
  | freeCount =>
    have hmine : SlabPc.idle.object ++ s.held c = s.mine c := by
      rw [mine, hpc]
      rfl
    have := h.count hc (allocated s.mem slab - 1) hmine fun _ => trivial
    rw [update_eq_self] at this
    exact ⟨fs, this⟩

theorem exec (hc : ClassSize size) (a : SlabAction) (hp : s.Permitted size a)
    (hf : s.Fresh slab a) : ∃ fs', (s.exec slab a).Inv size slab fs' := by
  cases a with
  | alloc c =>
    have hidle : s.pc c = .idle := hp
    exact ⟨fs, h.goto (by rw [hidle]; rfl) trivial⟩
  | free c ptr => exact ⟨fs, h.release hp.1 hp.2⟩
  | step c spurious => exact h.access hc c spurious hf
  | store c addr byte =>
    obtain ⟨p, hheld, hle, hlt⟩ := hp
    exact ⟨fs, h.store hc byte hheld hle hlt⟩

theorem safe (a : SlabAction) : s.Safe a := by
  cases a with
  | step c spurious =>
    intro p hpc other hheld
    have hmem : p ∈ s.mine c := by simp [mine, hpc, SlabPc.object]
    obtain rfl : c = other := h.stack.owner hmem (List.mem_append_right _ hheld)
    have honce := h.stack.once c
    rw [mine, hpc] at honce
    exact (List.nodup_cons.1 honce).1 hheld
  | _ => trivial

end

end Inv

/-- From a slab of which no CPU holds an object, however the CPUs' steps interleave, no object is returned by `alloc`
while a CPU holds it, as long as no exchange succeeds on a stale link. -/
theorem slab_objects_once {m : ByteMem} (hc : ClassSize size) (h : SlabOk m size slab fs) {as : List SlabAction}
    (has : Meets (exec slab) (fun s a => s.Permitted size a ∧ s.Fresh slab a) (start m) as) :
    Meets (exec slab) Safe (start m) as := by
  refine meets_of_meets (I := fun s => ∃ fs, s.Inv size slab fs) (R := fun _ => True) ?_ ?_ ⟨fs, inv_start h⟩
    (fun _ _ => trivial) has
  · rintro s a - ⟨fs, hs⟩ -
    exact hs.safe a
  · rintro s a - ⟨fs, hs⟩ ⟨hp, hf⟩
    exact hs.exec hc a hp hf

def threeObjects : ByteMem := linkObjects 1024 4096 3 (writeHeader (fun _ => 0) ⟨4096, by decide⟩ 4096 1024)

theorem slabOk_threeObjects : SlabOk threeObjects 1024 4096 [0x1c00, 0x1800, 0x1400] :=
  (slabOk_new ⟨by decide, by decide, by decide⟩ ⟨by decide, by decide, by decide⟩ _ _).1

/-- CPU 1 reads the head just before CPU 0 takes it, so its exchange fails and it takes the next object.  CPU 0 writes
into its object and frees it. -/
def lostExchange : List SlabAction :=
  [.alloc 0, .alloc 1, .step 0 false, .step 1 false, .step 0 false, .step 1 false, .step 0 false, .step 1 false,
    .step 0 false, .step 1 false, .step 1 false, .step 1 false, .step 1 false, .store 0 0x1c08 255, .free 0 0x1c00,
    .step 0 false, .step 0 false, .step 0 true, .step 0 false, .step 0 false, .step 0 false, .step 0 false]

theorem slab_objects_once_lostExchange :
    Meets (exec 4096) (fun s a => s.Permitted 1024 a ∧ s.Fresh 4096 a) (start threeObjects) lostExchange ∧
      Meets (exec 4096) Safe (start threeObjects) lostExchange := by
  have hm : Meets (exec 4096) (fun s a => s.Permitted 1024 a ∧ s.Fresh 4096 a) (start threeObjects) lostExchange := by
    decide +kernel
  exact ⟨hm, slab_objects_once ⟨by decide, by decide, by decide⟩ slabOk_threeObjects hm⟩

/-- A call of `alloc` or `free` by a CPU that no other disturbs. -/
def undisturbed (cpu : Nat) (call : SlabAction) : List SlabAction := call :: List.replicate 4 (.step cpu false)

/-- CPU 0 reads the head and its link.  Then CPU 1 allocates two objects and frees the first.  The exchange of CPU 0
succeeds and makes the second object the head, which CPU 1 still holds, and CPU 2 takes it. -/
def staleExchange : List SlabAction :=
  [.alloc 0, .step 0 false, .step 0 false] ++ undisturbed 1 (.alloc 1) ++ undisturbed 1 (.alloc 1) ++
    undisturbed 1 (.free 1 0x1c00) ++ [.step 0 false, .alloc 2, .step 2 false, .step 2 false, .step 2 false]

theorem staleExchange_hands_out_twice :
    Meets (exec 4096) (Permitted 1024) (start threeObjects) (staleExchange ++ [.step 2 false]) ∧
      ¬ Meets (exec 4096) Safe (start threeObjects) (staleExchange ++ [.step 2 false]) := by
  constructor
  · decide +kernel
  · intro h
    have hr : (run (exec 4096) (start threeObjects) staleExchange).pc 2 = .allocCount 0x1800 := by decide +kernel
    have hheld : 0x1800 ∈ (run (exec 4096) (start threeObjects) staleExchange).held 1 := by decide +kernel
    exact h.middle 0x1800 hr 1 hheld

end SlabRace

end AstralOS.Memory
