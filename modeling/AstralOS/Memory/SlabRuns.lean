import AstralOS.Lib.Run
import AstralOS.Memory.SlabCache
import Mathlib.Data.Vector.Defs

/-!
# Runs of the slab allocator

The model of `SlabAllocator` in `memory/slab.rs`, and its runs: any sequence of allocations and of releases of live
objects with their sizes, with the stores of the owners into their objects, stores of anyone outside the slabs, and
whatever the rest of the kernel does to the frame allocator in between.  `Inv` says that each class holds its slabs
(`ClassOk`), that no page is in two classes, and that the live objects are objects of the slabs that are not free.
Every call returns and keeps it (`Inv.exec`), so the allocator is safe throughout (`slab_allocator_safe`).
-/

open Function
open List hiding Vector

namespace AstralOS.Memory

structure SlabAllocator where
  caches : Vector SizeClassCache 8
  initialized : BitVec 64
  deriving DecidableEq

namespace SlabAllocator

def new : SlabAllocator :=
  { caches := #v[.new slabSizes[0], .new slabSizes[1], .new slabSizes[2], .new slabSizes[3], .new slabSizes[4],
      .new slabSizes[5], .new slabSizes[6], .new slabSizes[7]]
    initialized := 0 }

def init (a : SlabAllocator) : SlabAllocator := { a with initialized := 1 }

/-- The first class with room for `size` bytes (`find_size_class`). -/
def findSizeClass (size : Nat) : Option (Fin 8) := (List.finRange 8).find? fun i => size ≤ slabSizes.get i

def alloc {φ : Type} (src : FrameSource φ) (dm : DirectMap) (a : SlabAllocator) (size : Nat) (frames : φ) (m : ByteMem) :
    Option (Option (BitVec 64) × SlabAllocator × φ × ByteMem) :=
  if a.initialized = 0 then some (none, a, frames, m)
  else
    match findSizeClass size with
    | none => some (none, a, frames, m)
    | some i =>
      ((a.caches.get i).alloc src dm frames m).map fun (ptr, c, frames, m) =>
        (ptr, { a with caches := a.caches.set i c }, frames, m)

def free (a : SlabAllocator) (m : ByteMem) (ptr : BitVec 64) (size : Nat) : Option (SlabAllocator × ByteMem) :=
  match findSizeClass size with
  | none => some (a, m)
  | some i => ((a.caches.get i).free m ptr).map fun (c, m) => ({ a with caches := a.caches.set i c }, m)

end SlabAllocator

open SlabAllocator (findSizeClass)

def classSize (size : Nat) : Nat := (findSizeClass size).elim 0 slabSizes.get

abbrev Object := BitVec 64 × Nat

def objectBlock (l : Object) : Block := ⟨l.1.toNat, classSize l.2⟩

/-- A frame source that notes the frames taken from it and not given back. -/
def FrameSource.noted {φ : Type} (src : FrameSource φ) : FrameSource (φ × List PhysAddr) where
  allocateFrame s :=
    match src.allocateFrame s.1 with
    | (none, frames) => (none, frames, s.2)
    | (some f, frames) => (some f, frames, f :: s.2)
  deallocateFrame s f := (src.deallocateFrame s.1 f, s.2.erase f)
  frame_lt := by
    intro s p hp
    apply src.frame_lt s.1
    cases h : src.allocateFrame s.1 with
    | mk o frames =>
      rw [h] at hp
      cases o with
      | none => cases hp
      | some f => exact hp

namespace FrameSource

variable {φ : Type} {src : FrameSource φ} {s t : φ × List PhysAddr} {o : Option PhysAddr}

theorem noted_allocate (h : src.noted.allocateFrame s = (o, t)) :
    (src.allocateFrame s.1).1 = o ∧ t.2 = o.toList ++ s.2 := by
  cases hs : src.allocateFrame s.1 with
  | mk o' frames =>
    grind [noted]

end FrameSource

/-! ### Runs -/

/-- The allocator with the frame allocator, the frames of its slabs, the memory and the live objects. -/
structure SlabState (φ : Type) where
  allocator : SlabAllocator
  frames : φ
  held : List PhysAddr
  mem : ByteMem
  live : List Object

/-- The calls of the allocator, the stores of those who use the memory, and a change of the frame allocator by others. -/
inductive SlabCall (φ : Type)
  | init
  | alloc (size : Nat)
  | free (ptr : BitVec 64) (size : Nat)
  | store (addr : BitVec 64) (byte : BitVec 8)
  | elsewhere (frames : φ)

namespace SlabState

variable {φ : Type} (src : FrameSource φ) (dm : DirectMap)

def boot (m : ByteMem) (frames : φ) : SlabState φ :=
  { allocator := SlabAllocator.new, frames := frames, held := [], mem := m, live := [] }

def slabs (s : SlabState φ) : List (BitVec 64) := s.held.map fun f => f.toVirt dm.hhdm

def exec (s : SlabState φ) : SlabCall φ → Option (SlabState φ)
  | .init => some { s with allocator := s.allocator.init }
  | .alloc size =>
    (s.allocator.alloc src.noted dm size (s.frames, s.held) s.mem).map fun (ptr, a, (frames, held), m) =>
      { allocator := a, frames := frames, held := held, mem := m
        live := match ptr with
          | some p => (p, size) :: s.live
          | none => s.live }
  | .free ptr size =>
    (s.allocator.free s.mem ptr size).map fun (a, m) =>
      { s with allocator := a, mem := m, live := s.live.erase (ptr, size) }
  | .store addr byte => some { s with mem := s.mem.write8 addr byte }
  | .elsewhere frames => some { s with frames := frames }

def step (s : Option (SlabState φ)) (c : SlabCall φ) : Option (SlabState φ) := s.bind fun s => s.exec src dm c

/-- A frame the frame allocator has to offer is not one of the slabs'; a release names a live object with its size; a
store goes into a live object or outside the slabs. -/
def Permitted (s : SlabState φ) : SlabCall φ → Prop
  | .alloc _ => ∀ f ∈ (src.allocateFrame s.frames).1, f ∉ s.held
  | .free ptr size => (ptr, size) ∈ s.live
  | .store addr _ => (∀ t ∈ s.slabs dm, addr ∉ pageWords t) ∨ ∃ l ∈ s.live, addr.toNat ∈ objectBlock l
  | .init => True
  | .elsewhere _ => True

end SlabState

/-! ### Live objects -/

theorem classSize_eq {size : Nat} {i : Fin 8} (h : findSizeClass size = some i) : classSize size = slabSizes.get i := by
  unfold classSize
  rw [h]
  rfl

/-- The live objects are objects of slabs of their classes, not free there, and all different. -/
structure LiveOk (slabs : Fin 8 → List (BitVec 64)) (free : BitVec 64 → List (BitVec 64)) (live : List Object) :
    Prop where
  object : ∀ l ∈ live, ∃ i t, findSizeClass l.2 = some i ∧ t ∈ slabs i ∧ IsObject (slabSizes.get i) t l.1 ∧
    l.1 ∉ free t
  distinct : (live.map Prod.fst).Nodup

theorem IsObject.slab_eq {size size' : Nat} {s t p : BitVec 64} (h : IsObject size s p) (h' : IsObject size' t p)
    (hs : IsPage s) (ht : IsPage t) (hc : ClassSize size) (hc' : ClassSize size') : s = t := by
  by_contra hne
  exact hs.notMem_pageWords ht hne (ht.freeWords_subset_pageWords (h'.mem_freeWords ht hc'))
    (hs.freeWords_subset_pageWords (h.mem_freeWords hs hc))

namespace LiveOk

variable {slabs slabs' : Fin 8 → List (BitVec 64)} {free : BitVec 64 → List (BitVec 64)} {live : List Object}
  {s p : BitVec 64} {fs : List (BitVec 64)} {size : Nat} {i : Fin 8}

section

variable (h : LiveOk slabs free live)
include h

theorem mono (hmem : ∀ j t, t ∈ slabs j → t ∈ slabs' j) : LiveOk slabs' free live := by
  refine ⟨fun l hl => ?_, h.distinct⟩
  obtain ⟨j, t, hj, ht, hobj, hn⟩ := h.object l hl
  exact ⟨j, t, hj, hmem j t ht, hobj, hn⟩

theorem alloc (hpa : ∀ j t, t ∈ slabs j → IsPage t)
    (hmem : ∀ j t, t ∈ slabs j → t ∈ slabs' j) (hpage : IsPage s) (hs : s ∈ slabs' i) (hi : findSizeClass size = some i)
    (hp : IsObject (slabSizes.get i) s p) (hn : p ∉ fs) (hold : ∀ j, s ∈ slabs j → free s = p :: fs) :
    LiveOk slabs' (update free s fs) ((p, size) :: live) := by
  refine ⟨fun l hl => ?_, nodup_cons.2 ⟨fun hm => ?_, h.distinct⟩⟩
  · rcases mem_cons.1 hl with rfl | hl
    · exact ⟨i, s, hi, hs, hp, by rwa [update_self]⟩
    · obtain ⟨j, t, hj, ht, hobj, hnt⟩ := h.object l hl
      refine ⟨j, t, hj, hmem j t ht, hobj, ?_⟩
      by_cases hts : t = s
      · grind
      · rwa [update_of_ne hts]
  · -- a live object at `p` would lie in the same slab, and not be free there
    obtain ⟨l, hl, rfl⟩ := mem_map.1 hm
    obtain ⟨j, t, -, ht, hobj, hnt⟩ := h.object l hl
    obtain rfl := hobj.slab_eq hp (hpa j t ht) hpage (classSize_slabSizes j) (classSize_slabSizes i)
    simp_all [hold j ht]

theorem release (hl : (p, size) ∈ live) :
    LiveOk slabs (update free s (p :: free s)) (live.erase (p, size)) := by
  have hperm := (perm_cons_erase hl).map Prod.fst
  have hnd := hperm.nodup_iff.1 h.distinct
  rw [map_cons, nodup_cons] at hnd
  refine ⟨fun l hle => ?_, hnd.2⟩
  obtain ⟨j, t, hj, ht, hobj, hnt⟩ := h.object l (mem_of_mem_erase hle)
  refine ⟨j, t, hj, ht, hobj, ?_⟩
  by_cases hts : t = s
  · subst hts
    rw [update_self]
    intro hm
    rcases mem_cons.1 hm with he | hm
    · grind
    · exact hnt hm
  · rwa [update_of_ne hts]

end

end LiveOk

/-! ### The invariant -/

/-- What the memory holds: the slabs of both lists of each class, and the free list of each slab. -/
structure SlabView where
  partialSlabs : Fin 8 → List (BitVec 64)
  fullSlabs : Fin 8 → List (BitVec 64)
  free : BitVec 64 → List (BitVec 64)

namespace SlabView

def slabs (v : SlabView) (i : Fin 8) : List (BitVec 64) := v.partialSlabs i ++ v.fullSlabs i

def set (v : SlabView) (i : Fin 8) (ps qs : List (BitVec 64)) (free : BitVec 64 → List (BitVec 64)) : SlabView :=
  { partialSlabs := update v.partialSlabs i ps
    fullSlabs := update v.fullSlabs i qs
    free := free }

variable {v : SlabView} {i j : Fin 8} {ps qs : List (BitVec 64)} {free : BitVec 64 → List (BitVec 64)}

theorem slabs_set_self : (v.set i ps qs free).slabs i = ps ++ qs := by simp [slabs, set]

theorem slabs_set_of_ne (h : j ≠ i) : (v.set i ps qs free).slabs j = v.slabs j := by simp [slabs, set, h]

theorem mem_slabs_set (h : ∀ t, t ∈ ps ++ qs ↔ t ∈ v.slabs i) (t : BitVec 64) :
    t ∈ (v.set i ps qs free).slabs j ↔ t ∈ v.slabs j := by
  by_cases hji : j = i
  · grind [slabs_set_self]
  · rw [slabs_set_of_ne hji]

theorem mem_slabs_set_cons {s : BitVec 64} (h : ps ++ qs = s :: v.slabs i) (t : BitVec 64) :
    t ∈ (v.set i ps qs free).slabs j ↔ t ∈ v.slabs j ∨ (j = i ∧ t = s) := by
  by_cases hji : j = i
  · grind [slabs_set_self, mem_cons]
  · rw [slabs_set_of_ne hji]
    simp [hji]

end SlabView

/-- Each class holds its slabs, no slab is in two classes, the slabs are the pages of the frames taken, and the live
objects are objects of the slabs that are not free. -/
structure SlabInv {φ : Type} (dm : DirectMap) (s : SlabState φ) (v : SlabView) : Prop where
  classes : ∀ i, ClassOk s.mem (slabSizes.get i) (s.allocator.caches.get i) (v.partialSlabs i) (v.fullSlabs i) v.free
  apart : ∀ i j t, t ∈ v.slabs i → t ∈ v.slabs j → i = j
  held : ∀ t, (∃ i, t ∈ v.slabs i) ↔ t ∈ s.slabs dm
  live : LiveOk v.slabs v.free s.live

theorem get_set (a : Vector SizeClassCache 8) (i j : Fin 8) (c : SizeClassCache) :
    (a.set i c).get j = if j = i then c else a.get j := by
  change (a.set i.val c)[j.val] = if j = i then c else a[j.val]
  grind

namespace SlabInv

variable {φ : Type} {src : FrameSource φ} {dm : DirectMap} {s : SlabState φ} {v : SlabView} {i : Fin 8}
  {c : SizeClassCache} {m : ByteMem} {ps qs fs : List (BitVec 64)} {free : BitVec 64 → List (BitVec 64)} {t : BitVec 64}

section

variable (h : SlabInv dm s v)
include h

theorem page (ht : t ∈ v.slabs i) : IsPage t := (h.classes i).page ht

theorem classes_set (hok : ClassOk m (slabSizes.get i) c ps qs free) {xs : List (BitVec 64)}
    (hp : ∀ t ∈ xs, IsPage t) (hsame : ByteMem.SameBut (classWords xs) s.mem m)
    (ho : ∀ j t, j ≠ i → t ∈ v.slabs j → t ∉ xs ∧ free t = v.free t) (j : Fin 8) :
    ClassOk m (slabSizes.get j) ((s.allocator.caches.set i c).get j) ((v.set i ps qs free).partialSlabs j)
      ((v.set i ps qs free).fullSlabs j) (v.set i ps qs free).free := by
  rw [get_set]
  by_cases hji : j = i
  · subst hji
    simpa [SlabView.set] using hok
  · simp only [SlabView.set, if_neg hji, update_of_ne hji]
    refine ((h.classes j).of_pages (classSize_slabSizes j) (fun t ht => ⟨hp t ht, ?_⟩) hsame).congr_free
      fun t ht => (ho j t hji ht).2
    intro htj
    exact (ho j t hji htj).1 ht

theorem notMem_slabs {f : PhysAddr} (hf : f ∉ s.held) (j : Fin 8) :
    f.toVirt dm.hhdm ∉ v.slabs j := by
  intro hm
  obtain ⟨g, hg, he⟩ := mem_map.1 ((h.held _).1 ⟨j, hm⟩)
  have : g = f := PhysAddr.ext ((BitVec.add_left_inj dm.hhdm).1 he)
  exact hf (this ▸ hg)

theorem keep (hok : ClassOk m (slabSizes.get i) c ps qs (update v.free t fs))
    (ht : t ∈ v.slabs i) (hmem : ∀ u, u ∈ ps ++ qs ↔ u ∈ v.slabs i)
    (hsame : ByteMem.SameBut (classWords (v.slabs i)) s.mem m) {live : List Object}
    (hlive : LiveOk v.slabs (update v.free t fs) live) :
    SlabInv dm { s with allocator := { s.allocator with caches := s.allocator.caches.set i c }, mem := m, live := live }
      (v.set i ps qs (update v.free t fs)) := by
  have hmem' : ∀ j u, u ∈ (v.set i ps qs (update v.free t fs)).slabs j ↔ u ∈ v.slabs j :=
    fun j u => SlabView.mem_slabs_set hmem u
  refine ⟨h.classes_set hok (fun u hu => h.page hu) hsame fun j u hji hu => ⟨fun hui => hji (h.apart j i u hu hui), ?_⟩,
    fun j k u hj hk => h.apart j k u ((hmem' j u).1 hj) ((hmem' k u).1 hk), fun u => ?_,
    hlive.mono fun j u hu => (hmem' j u).2 hu⟩
  · refine update_of_ne ?_ _ _
    rintro rfl
    exact hji (h.apart j i u hu ht)
  · simp only [hmem']
    exact h.held u

theorem grow {f : PhysAddr} (hnew : ∀ j, f.toVirt dm.hhdm ∉ v.slabs j)
    (hpage : IsPage (f.toVirt dm.hhdm))
    (hok : ClassOk m (slabSizes.get i) c (f.toVirt dm.hhdm :: v.partialSlabs i) (v.fullSlabs i)
      (update v.free (f.toVirt dm.hhdm) fs))
    (hsame : ByteMem.SameBut (pageWords (f.toVirt dm.hhdm)) s.mem m) {size : Nat} {p : BitVec 64}
    (hi : findSizeClass size = some i) (hp : IsObject (slabSizes.get i) (f.toVirt dm.hhdm) p) (hn : p ∉ fs)
    (frames : φ) :
    SlabInv dm
      { allocator := { s.allocator with caches := s.allocator.caches.set i c }, frames := frames, held := f :: s.held
        mem := m, live := (p, size) :: s.live }
      (v.set i (f.toVirt dm.hhdm :: v.partialSlabs i) (v.fullSlabs i)
        (update v.free (f.toVirt dm.hhdm) fs)) := by
  have hmem : ∀ j u, u ∈ (v.set i (f.toVirt dm.hhdm :: v.partialSlabs i) (v.fullSlabs i)
      (update v.free (f.toVirt dm.hhdm) fs)).slabs j ↔ u ∈ v.slabs j ∨ (j = i ∧ u = f.toVirt dm.hhdm) :=
    fun j u => SlabView.mem_slabs_set_cons rfl u
  have hne : ∀ j u, u ∈ v.slabs j → u ≠ f.toVirt dm.hhdm := by
    rintro j u hu rfl
    exact hnew j hu
  have hw : ByteMem.SameBut (classWords [f.toVirt dm.hhdm]) s.mem m :=
    hsame.mono fun a ha => ⟨_, mem_singleton.2 rfl, ha⟩
  refine ⟨h.classes_set hok ?_ hw fun j u _ hu => ⟨?_, update_of_ne (hne j u hu) _ _⟩, ?_, fun u => ?_, ?_⟩
  · intro u hu
    rw [mem_singleton.1 hu]
    exact hpage
  · intro hm
    exact hne j u hu (mem_singleton.1 hm)
  · intro j k u hj hk
    rcases (hmem j u).1 hj with hj | ⟨hji, hju⟩ <;> rcases (hmem k u).1 hk with hk | ⟨hki, hku⟩
    · exact h.apart j k u hj hk
    · exact absurd hku (hne j u hj)
    · exact absurd hju (hne k u hk)
    · exact hji.trans hki.symm
  · simp only [hmem, SlabState.slabs, map_cons, mem_cons, exists_or, exists_eq_left]
    rw [h.held u]
    exact Or.comm
  · exact h.live.alloc (fun j u hu => h.page hu) (fun j u hu => (hmem j u).2 (Or.inl hu)) hpage
      ((hmem i _).2 (Or.inr ⟨rfl, rfl⟩)) hi hp hn fun j hj => absurd hj (hnew j)

theorem unchanged (frames : φ) :
    SlabInv dm { s with
      allocator := { s.allocator with caches := s.allocator.caches.set i (s.allocator.caches.get i) }
      frames := frames } v := by
  refine ⟨fun j => ?_, h.apart, h.held, h.live⟩
  rw [get_set]
  by_cases hji : j = i
  · subst hji
    simpa using h.classes j
  · rw [if_neg hji]
    exact h.classes j

theorem effect {size : Nat} {r : Option (BitVec 64)} {q : φ × List PhysAddr}
    (hi : findSizeClass size = some i) (hfre : ∀ f ∈ (src.allocateFrame s.frames).1, f ∉ s.held)
    (he : AllocEffect src.noted dm s.mem (slabSizes.get i) (s.allocator.caches.get i) (v.partialSlabs i) (v.fullSlabs i)
      v.free (s.frames, s.held) r c q m) :
    ∃ v', SlabInv dm
      { allocator := { s.allocator with caches := s.allocator.caches.set i c }, frames := q.1, held := q.2, mem := m
        live := match r with
          | some p => (p, size) :: s.live
          | none => s.live } v' := by
  cases he with
  | noFrame hfra =>
    obtain ⟨-, hheld⟩ := FrameSource.noted_allocate hfra
    refine ⟨v, ?_⟩
    rw [hheld]
    exact h.unchanged q.1
  | @noRoom f frames' hfra _ =>
    obtain ⟨-, hheld⟩ := FrameSource.noted_allocate hfra
    have hback : (src.noted.deallocateFrame frames' f).2 = s.held := by
      change frames'.2.erase f = s.held
      rw [hheld]
      exact erase_cons_head ..
    refine ⟨v, ?_⟩
    rw [hback]
    exact h.unchanged _
  | @old t p fs ps' qs' _ _ ht hfree hmem hok hw =>
    have hok' := (h.classes i).slabs t ht
    rw [hfree] at hok'
    refine ⟨_, h.keep hok ht hmem hw (h.live.alloc (fun j u hu => h.page hu) (fun _ _ hu => hu) (h.page ht) ht hi
      (hok'.objects p (by simp)) (nodup_cons.1 hok'.nodup).1 fun j _ => hfree)⟩
  | @fresh f _ p fs _ _ hfra hp hn hok hw =>
    obtain ⟨hans, hheld⟩ := FrameSource.noted_allocate hfra
    have hpage := isPage_toVirt (src.frame_lt _ f hans) dm
    rw [hheld]
    exact ⟨_, h.grow (h.notMem_slabs (hfre f hans)) hpage hok hw hi hp hn q.1⟩

theorem alloc_effect {size : Nat} (hp : s.Permitted src dm (.alloc size))
    (hinit : s.allocator.initialized ≠ 0) (hi : findSizeClass size = some i) :
    ∃ r c q m, s.allocator.alloc src.noted dm size (s.frames, s.held) s.mem =
        some (r, { s.allocator with caches := s.allocator.caches.set i c }, q, m) ∧
      AllocEffect src.noted dm s.mem (slabSizes.get i) (s.allocator.caches.get i) (v.partialSlabs i) (v.fullSlabs i)
        v.free (s.frames, s.held) r c q m := by
  have hfr : ∀ f, (src.noted.allocateFrame (s.frames, s.held)).1 = some f →
      f.toVirt dm.hhdm ∉ v.partialSlabs i ++ v.fullSlabs i := by
    intro f hf
    have hans := (FrameSource.noted_allocate (Prod.mk.eta (p := src.noted.allocateFrame (s.frames, s.held))).symm).1
    exact h.notMem_slabs (hp f (hans.trans hf)) i
  obtain ⟨r, c, q, m, heq, heff⟩ := (h.classes i).alloc (classSize_slabSizes i) hfr
  refine ⟨r, c, q, m, ?_, heff⟩
  unfold SlabAllocator.alloc
  simp only [if_neg hinit, hi, heq]
  rfl

theorem alloc (size : Nat) (hp : s.Permitted src dm (.alloc size)) :
    ∃ s' v', s.exec src dm (.alloc size) = some s' ∧ SlabInv dm s' v' := by
  by_cases hinit : s.allocator.initialized = 0
  · unfold SlabState.exec SlabAllocator.alloc
    simp only [if_pos hinit]
    exact ⟨_, v, rfl, h⟩
  · cases hi : findSizeClass size with
    | none =>
      unfold SlabState.exec SlabAllocator.alloc
      simp only [if_neg hinit, hi]
      exact ⟨_, v, rfl, h⟩
    | some i =>
      obtain ⟨r, c, q, m, heq, heff⟩ := h.alloc_effect hp hinit hi
      obtain ⟨v', hinv⟩ := h.effect hi hp heff
      grind [SlabState.exec]

theorem release {ptr : BitVec 64} {size : Nat} (hl : (ptr, size) ∈ s.live) :
    ∃ s' v', s.exec src dm (.free ptr size) = some s' ∧ SlabInv dm s' v' := by
  obtain ⟨i, t, hi, ht, hobj, hn⟩ := h.live.object _ hl
  obtain ⟨c, m, ps, qs, heq, hmem, hok, hsame⟩ := (h.classes i).release (classSize_slabSizes i) ht hobj hn
  unfold SlabState.exec SlabAllocator.free
  simp only [hi, heq]
  exact ⟨_, _, rfl, h.keep hok ht hmem hsame (h.live.release hl)⟩

theorem store_mem {addr : BitVec 64} {byte : BitVec 8}
    (hp : s.Permitted src dm (.store addr byte)) (ht : t ∈ v.slabs i) (hat : addr ∈ pageWords t) :
    ∃ q, IsObject (slabSizes.get i) t q ∧ q ∉ v.free t ∧ q.toNat ≤ addr.toNat ∧
      addr.toNat < q.toNat + slabSizes.get i := by
  rcases hp with hout | ⟨l, hl, hlo, hhi⟩
  · exact absurd hat (hout t ((h.held t).1 ⟨i, ht⟩))
  · obtain ⟨j, u, hj, hu, hobj, hn⟩ := h.live.object l hl
    obtain ⟨hb1, hb2, -⟩ := hobj.bounds (h.page hu) (classSize_slabSizes j)
    change l.1.toNat ≤ _ at hlo
    change _ < l.1.toNat + classSize l.2 at hhi
    rw [classSize_eq hj] at hhi
    obtain rfl : t = u := (h.page ht).eq_of_mem (h.page hu) hat.1 hat.2 (by omega) (by omega)
    obtain rfl := h.apart i j t ht hu
    exact ⟨l.1, hobj, hn, hlo, hhi⟩

theorem store {addr : BitVec 64} {byte : BitVec 8} (hp : s.Permitted src dm (.store addr byte)) :
    SlabInv dm { s with mem := s.mem.write8 addr byte } v := by
  have hsame : ByteMem.SameBut {a | a.toNat ≤ addr.toNat ∧ addr.toNat < a.toNat + 8} s.mem (s.mem.write8 addr byte) := by
    intro a ha hn
    refine ByteMem.read64_write8_of_le ?_
    rw [Set.mem_ofPred_eq] at hn
    rw [BitVec.toNat_sub]
    omega
  have hps : pageSize = 4096 := rfl
  have hhs : slabHeaderSize = 56 := rfl
  refine ⟨fun j => (h.classes j).congr (classSize_slabSizes j) hsame ?_ ?_, h.apart, h.held, h.live⟩
  · -- a word of the header
    rintro t ht k hk hd ⟨hlo, hhi⟩
    have hpage : IsPage t := h.page ht
    rw [hpage.toNat_add (by omega)] at hlo hhi
    obtain ⟨q, hobj, -, hq, -⟩ := h.store_mem hp ht ⟨by omega, by omega⟩
    have := (hobj.bounds hpage (classSize_slabSizes j)).1
    omega
  · -- the link of a free object
    rintro t ht p hfree ⟨hlo, hhi⟩
    have hpage : IsPage t := h.page ht
    have hc := classSize_slabSizes j
    have hpobj := ((h.classes j).slabs t ht).objects p hfree
    obtain ⟨hb1, hb2, -⟩ := hpobj.bounds hpage hc
    have hsize : 8 ≤ slabSizes.get j := Nat.le_of_dvd hc.pos hc.words
    obtain ⟨q, hobj, hn, hq1, hq2⟩ := h.store_mem hp ht ⟨by omega, by omega⟩
    have hne : p ≠ q := by
      rintro rfl
      exact hn hfree
    have := hpobj.apart hobj hpage hc hne
    omega

theorem exec {call : SlabCall φ} (hp : s.Permitted src dm call) :
    ∃ s' v', s.exec src dm call = some s' ∧ SlabInv dm s' v' := by
  cases call with
  | init | elsewhere _ => exact ⟨_, v, rfl, h.classes, h.apart, h.held, h.live⟩
  | alloc size => exact h.alloc size hp
  | free ptr size => exact h.release hp
  | store addr byte => exact ⟨_, v, rfl, h.store hp⟩

end

theorem boot (m : ByteMem) (frames : φ) :
    SlabInv dm (SlabState.boot m frames) ⟨fun _ => [], fun _ => [], fun _ => []⟩ := by
  refine ⟨fun i => ?_, ?_, ?_, ?_⟩
  · have hc : (SlabState.boot m frames).allocator.caches.get i = SizeClassCache.new (slabSizes.get i) := by
      have hnew : ∀ i : Fin 8, SlabAllocator.new.caches.get i = SizeClassCache.new (slabSizes.get i) := by decide
      exact hnew i
    rw [hc]
    exact ⟨rfl, rfl, rfl, nodup_nil, by simp⟩
  · simp [SlabView.slabs]
  · simp [SlabView.slabs, SlabState.boot, SlabState.slabs]
  · exact ⟨by simp [SlabState.boot], nodup_nil⟩

end SlabInv

/-! ### Safety -/

/-- The allocator is safe in a state.  The live objects, with their full class size, do not overlap, lie inside one slab
page behind its header and are aligned to their class size.  The slabs of a class are those in its two linked lists,
each in one of them and once.  In every slab the counter and the length of the free list add up to the number of
objects. -/
structure SlabSafe {φ : Type} (dm : DirectMap) (s : SlabState φ) : Prop where
  disjoint : s.live.Pairwise fun l k => Block.Disjoint (objectBlock l) (objectBlock k)
  inside : ∀ l ∈ s.live, ∃ slab ∈ s.slabs dm, slab.toNat + slabHeaderSize ≤ (objectBlock l).start ∧
    (objectBlock l).stop ≤ slab.toNat + pageSize
  aligned : ∀ l ∈ s.live, classSize l.2 ∣ l.1.toNat
  lists : ∀ i : Fin 8, ∃ ps qs, Linked (Slab.next s.mem) 0 (s.allocator.caches.get i).partialSlabs ps ∧
    Linked (Slab.next s.mem) 0 (s.allocator.caches.get i).fullSlabs qs ∧ (ps ++ qs).Nodup ∧
    ∀ t, t ∈ ps ++ qs ↔ t ∈ s.slabs dm ∧ Slab.objectSize s.mem t = BitVec.ofNat 64 (slabSizes.get i)
  counted : ∀ slab ∈ s.slabs dm, ∃ fs, Linked s.mem.read64 0 (Slab.freeList s.mem slab) fs ∧
    (Slab.allocated s.mem slab).toNat + fs.length = (Slab.totalObjects s.mem slab).toNat

namespace SlabInv

variable {φ : Type} {dm : DirectMap} {s : SlabState φ} {v : SlabView}

theorem disjoint_of_ne (h : SlabInv dm s v) {l k : Object} (hl : l ∈ s.live) (hk : k ∈ s.live) (hne : l.1 ≠ k.1) :
    Block.Disjoint (objectBlock l) (objectBlock k) := by
  obtain ⟨i, t, hi, ht, hobj, -⟩ := h.live.object l hl
  obtain ⟨j, u, hj, hu, hobj', -⟩ := h.live.object k hk
  have hc := classSize_slabSizes i
  obtain ⟨hb1, hb2, -⟩ := hobj.bounds (h.page ht) hc
  obtain ⟨hd1, hd2, -⟩ := hobj'.bounds (h.page hu) (classSize_slabSizes j)
  unfold objectBlock
  rw [classSize_eq hi, classSize_eq hj]
  intro x hx hx'
  rw [Block.mem_def] at hx hx'
  dsimp only at hx hx'
  -- a common byte makes the slabs equal, and with them the classes
  obtain rfl : t = u := (h.page ht).eq_of_mem (h.page hu) (a := x) (by omega) (by omega) (by omega) (by omega)
  obtain rfl := h.apart i j t ht hu
  have := hobj.apart hobj' (h.page ht) hc hne
  omega

theorem mem_slabs_iff (h : SlabInv dm s v) (i : Fin 8) (t : BitVec 64) :
    t ∈ v.slabs i ↔ t ∈ s.slabs dm ∧ Slab.objectSize s.mem t = BitVec.ofNat 64 (slabSizes.get i) := by
  constructor
  · intro ht
    exact ⟨(h.held t).1 ⟨i, ht⟩, ((h.classes i).slabs t ht).objectSize⟩
  · rintro ⟨ht, hsize⟩
    obtain ⟨j, hj⟩ := (h.held t).2 ht
    have hj' := ((h.classes j).slabs t hj).objectSize
    have hinj : ∀ i j : Fin 8, BitVec.ofNat 64 (slabSizes.get i) = BitVec.ofNat 64 (slabSizes.get j) → i = j := by
      decide
    grind

theorem safe (h : SlabInv dm s v) : SlabSafe dm s where
  disjoint := by
    refine List.Pairwise.imp_of_mem (fun hl hk hne => h.disjoint_of_ne hl hk hne) ?_
    exact pairwise_map.1 h.live.distinct
  inside := by
    intro l hl
    obtain ⟨i, t, hi, ht, hobj, -⟩ := h.live.object l hl
    obtain ⟨h1, h2, -⟩ := hobj.bounds (h.page ht) (classSize_slabSizes i)
    refine ⟨t, (h.held t).1 ⟨i, ht⟩, h1, ?_⟩
    unfold objectBlock Block.stop
    rw [classSize_eq hi]
    exact h2
  aligned := by
    intro l hl
    obtain ⟨i, t, hi, ht, hobj, -⟩ := h.live.object l hl
    rw [classSize_eq hi]
    exact (hobj.bounds (h.page ht) (classSize_slabSizes i)).2.2
  lists := fun i => ⟨_, _, (h.classes i).partialList, (h.classes i).fullList, (h.classes i).nodup, h.mem_slabs_iff i⟩
  counted := by
    intro t ht
    obtain ⟨i, hi⟩ := (h.held t).2 ht
    have hok := (h.classes i).slabs t hi
    refine ⟨v.free t, hok.list, ?_⟩
    have hlt := (classSize_slabSizes i).usableObjects_lt
    have hps : pageSize = 4096 := rfl
    rw [hok.counted, hok.total, BitVec.toNat_ofNat, Nat.mod_eq_of_lt (by omega)]

end SlabInv

namespace SlabState

theorem always_inv {φ : Type} (src : FrameSource φ) (dm : DirectMap) (m : ByteMem) (frames : φ) {cs : List (SlabCall φ)}
    (hcs : Meets (step src dm) (fun o c => ∀ s ∈ o, s.Permitted src dm c) (some (boot m frames)) cs) :
    Always (step src dm) (fun o => ∃ s v, o = some s ∧ SlabInv dm s v) (some (boot m frames)) cs := by
  refine always_of_meets (R := fun _ => True) (fun _ h => h) ?_ ⟨_, _, rfl, SlabInv.boot m frames⟩ (fun _ _ => trivial) hcs
  rintro o c - ⟨s, v, rfl, h⟩ hp
  obtain ⟨s', v', heq, h'⟩ := h.exec (hp s rfl)
  exact ⟨s', v', heq, h'⟩

/-- In every run in which the frames offered are not those of the slabs, releases name live objects with their sizes, and
stores go into live objects or outside the slabs, every call returns and the allocator is safe after each. -/
theorem slab_allocator_safe {φ : Type} (src : FrameSource φ) (dm : DirectMap) (m : ByteMem) (frames : φ)
    (cs : List (SlabCall φ))
    (hcs : Meets (step src dm) (fun o c => ∀ s ∈ o, s.Permitted src dm c) (some (boot m frames)) cs) :
    Always (step src dm) (fun o => ∃ s, o = some s ∧ SlabSafe dm s) (some (boot m frames)) cs := by
  refine (always_inv src dm m frames hcs).imp ?_
  rintro o ⟨s, v, rfl, h⟩
  exact ⟨s, rfl, h.safe⟩

def listSource : FrameSource (List (Fin maxFrames)) where
  allocateFrame
    | [] => (none, [])
    | f :: fs => (some (PhysAddr.ofFrame f), fs)
  deallocateFrame fs p := if h : p.frame < maxFrames then ⟨p.frame, h⟩ :: fs else fs
  frame_lt := by
    intro s p hp
    cases s with
    | nil => cases hp
    | cons f fs =>
      cases hp
      rw [PhysAddr.frame_ofFrame (Nat.lt_trans f.isLt (by decide))]
      exact f.isLt

def upperHalf : DirectMap :=
  { hhdm := 0xFFFF800000000000#64, aligned := by decide, pos := by decide, fits := by decide }

def twoFrames : List (Fin maxFrames) := [⟨256, by decide⟩, ⟨257, by decide⟩]

instance (a t : BitVec 64) : Decidable (a ∈ pageWords t) := inferInstanceAs (Decidable (_ ∧ _))

instance (x : Nat) (b : Block) : Decidable (x ∈ b) := inferInstanceAs (Decidable (_ ∧ _))

instance {φ : Type} (src : FrameSource φ) (dm : DirectMap) (s : SlabState φ) (c : SlabCall φ) :
    Decidable (s.Permitted src dm c) :=
  match c with
  | .init => inferInstanceAs (Decidable True)
  | .alloc _ => Option.decidableForallMem _
  | .free ptr size => inferInstanceAs (Decidable ((ptr, size) ∈ s.live))
  | .store addr _ =>
    @instDecidableOr _ _ (@List.decidableBAll _ (fun t => addr ∉ pageWords t) _ (s.slabs dm))
      (@List.decidableBEx _ (fun l => addr.toNat ∈ objectBlock l) _ s.live)
  | .elsewhere _ => inferInstanceAs (Decidable True)

instance {φ : Type} (src : FrameSource φ) (dm : DirectMap) (o : Option (SlabState φ)) (c : SlabCall φ) :
    Decidable (∀ s ∈ o, s.Permitted src dm c) :=
  Option.decidableForallMem _

/-- The three objects of a slab, which is full then, a store into one of them, its release and one object more. -/
def fillSlab : List (SlabCall (List (Fin maxFrames))) :=
  [.init, .alloc 1000, .alloc 1000, .alloc 1000, .alloc 2000, .store 0xFFFF800000100801#64 255,
    .free 0xFFFF800000100800#64 1000, .alloc 1000]

theorem slab_allocator_safe_fillSlab :
    Meets (step listSource upperHalf) (fun o c => ∀ s ∈ o, s.Permitted listSource upperHalf c)
        (some (boot (fun _ => 0) twoFrames)) fillSlab ∧
      Always (step listSource upperHalf) (fun o => ∃ s, o = some s ∧ SlabSafe upperHalf s)
        (some (boot (fun _ => 0) twoFrames)) fillSlab := by
  have hm : Meets (step listSource upperHalf) (fun o c => ∀ s ∈ o, s.Permitted listSource upperHalf c)
      (some (boot (fun _ => 0) twoFrames)) fillSlab := by
    decide +kernel
  exact ⟨hm, slab_allocator_safe listSource upperHalf (fun _ => 0) twoFrames fillSlab hm⟩

end SlabState

end AstralOS.Memory
