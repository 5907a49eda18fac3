import AstralOS.Memory.Heap
import AstralOS.Memory.Slab

/-!
# Size classes

The model of `SizeClassCache` in `memory/slab.rs`: the slabs of one object size in two linked lists, the slabs to
allocate from and those found full.  An allocation walks the first list, a release both, and a slab moves from one list
to the other with the allocation that takes its last object or the release that follows.

`ClassOk m size c ps qs free` says that the memory holds the slabs `ps` and `qs` of the two lists with the free lists
`free`.  `ClassOk.alloc` and `ClassOk.release` say that both functions return and what they do to the lists.
-/

namespace AstralOS.Memory

structure SizeClassCache where
  size : Nat
  partialSlabs : BitVec 64
  fullSlabs : BitVec 64
  totalAllocs : BitVec 64
  totalFrees : BitVec 64
  deriving DecidableEq

/-- Take a slab out of the list at `src` and put it in front of the list at `dst`: the body of `move_to_full` and of
`move_to_partial`.  A slab that is not in the list stays where it is. -/
def moveSlab (m : ByteMem) (src dst slab : BitVec 64) : Option (BitVec 64 × BitVec 64 × ByteMem) :=
  (scanPrev (Slab.next m) 0 slab walkFuel 0 src).map fun
    | none => (src, dst, m)
    | some prev =>
      let next := Slab.next m slab
      if prev = 0 then (next, slab, Slab.setNext m slab dst)
      else (src, slab, Slab.setNext (Slab.setNext m prev next) slab dst)

namespace SizeClassCache

def new (size : Nat) : SizeClassCache :=
  { size := size, partialSlabs := 0, fullSlabs := 0, totalAllocs := 0, totalFrees := 0 }

def moveToFull (c : SizeClassCache) (m : ByteMem) (slab : BitVec 64) : Option (SizeClassCache × ByteMem) :=
  (moveSlab m c.partialSlabs c.fullSlabs slab).map fun (src, dst, m) =>
    ({ c with partialSlabs := src, fullSlabs := dst }, m)

def moveToPartial (c : SizeClassCache) (m : ByteMem) (slab : BitVec 64) : Option (SizeClassCache × ByteMem) :=
  (moveSlab m c.fullSlabs c.partialSlabs slab).map fun (src, dst, m) =>
    ({ c with fullSlabs := src, partialSlabs := dst }, m)

/-- Make a slab, put it in front of the partial list and allocate from it.  It stays there even if it has one object
only. -/
def allocNew {φ : Type} (src : FrameSource φ) (dm : DirectMap) (c : SizeClassCache) (frames : φ) (m : ByteMem) :
    Option (BitVec 64) × SizeClassCache × φ × ByteMem :=
  match Slab.new src dm c.size frames m with
  | (none, frames, m) => (none, c, frames, m)
  | (some slab, frames, m) =>
    let m := Slab.setNext m slab c.partialSlabs
    let c := { c with partialSlabs := slab, totalAllocs := c.totalAllocs + 1 }
    match Slab.alloc m slab with
    | some (ptr, m) => (some ptr, c, frames, m)
    | none => (none, c, frames, m)

def alloc {φ : Type} (src : FrameSource φ) (dm : DirectMap) (c : SizeClassCache) (frames : φ) (m : ByteMem) :
    Option (Option (BitVec 64) × SizeClassCache × φ × ByteMem) :=
  match scan (Slab.next m) 0 (Slab.alloc m) walkFuel c.partialSlabs with
  | none => none
  | some (some (current, ptr, m)) =>
    let c := { c with totalAllocs := c.totalAllocs + 1 }
    if Slab.isFull m current then (c.moveToFull m current).map fun (c, m) => (some ptr, c, frames, m)
    else some (some ptr, c, frames, m)
  | some none => some (c.allocNew src dm frames m)

def findSlab (m : ByteMem) (head ptr : BitVec 64) : Option (Option (BitVec 64 × Unit)) :=
  scan (Slab.next m) 0 (fun slab => if Slab.contains m slab ptr then some () else none) walkFuel head

def free (c : SizeClassCache) (m : ByteMem) (ptr : BitVec 64) : Option (SizeClassCache × ByteMem) :=
  match findSlab m c.partialSlabs ptr with
  | none => none
  | some (some (current, _)) => some ({ c with totalFrees := c.totalFrees + 1 }, Slab.free m current ptr)
  | some none =>
    match findSlab m c.fullSlabs ptr with
    | none => none
    | some (some (current, _)) =>
      ({ c with totalFrees := c.totalFrees + 1 } : SizeClassCache).moveToPartial (Slab.free m current ptr) current
    | some none => some (c, m)

end SizeClassCache

open Function Slab List

variable {m m' : ByteMem} {size : Nat} {s t p src dst : BitVec 64} {ps qs pre post : List (BitVec 64)}

/-! ### Moving a slab -/

def linkWords (xs : List (BitVec 64)) : Set (BitVec 64) := {a | ∃ t ∈ xs, a = t + 48}

theorem IsPage.field_ne_link (hs : IsPage s) (ht : IsPage t) {k : Nat} (hk : k < pageSize) (hne : k ≠ 48) :
    s + BitVec.ofNat 64 k ≠ t + 48 := by
  intro he
  obtain ⟨i, hi⟩ := hs.aligned
  obtain ⟨j, hj⟩ := ht.aligned
  have hlink : (t + 48).toNat = t.toNat + 48 := ht.toNat_add (k := 48) (by decide)
  have hps : pageSize = 4096 := rfl
  grind

theorem next_setNext_of_ne (hs : IsPage s) (ht : IsPage t) (hne : s ≠ t) (v : BitVec 64) :
    next (setNext m s v) t = next m t := by
  refine ByteMem.read64_write64_of_apart (ByteMem.apart_of_ne (hs.dvd_field (k := 48) (by decide) (by decide))
    (ht.dvd_field (k := 48) (by decide) (by decide)) ?_)
  simp_all

theorem sameBut_setNext {ws : Set (BitVec 64)} (h : ByteMem.SameBut ws m m') (hs : IsPage s) (hw : s + 48 ∈ ws)
    (v : BitVec 64) : ByteMem.SameBut ws m (setNext m' s v) :=
  h.write64 (hs.dvd_field (k := 48) (by decide) (by decide)) hw

theorem SlabOk.of_links {fs xs : List (BitVec 64)} (h : SlabOk m size s fs) (hc : ClassSize size)
    (hxs : ∀ t ∈ xs, IsPage t) (hsame : ByteMem.SameBut (linkWords xs) m m') : SlabOk m' size s fs := by
  refine h.congr hc hsame ?_ ?_
  · rintro k hk - hne ⟨t, ht, he⟩
    exact h.page.field_ne_link (hxs t ht) (Nat.lt_trans hk (by decide)) hne he
  · rintro p hp ⟨t, ht, rfl⟩
    by_cases hst : s = t
    · subst hst
      exact (h.objects _ hp).ne_field h.page hc (k := 48) (by decide) rfl
    · exact h.page.notMem_pageWords (hxs t ht) hst ((hxs t ht).field_mem_pageWords (k := 48) (by decide))
        (h.page.freeWords_subset_pageWords ((h.objects _ hp).mem_freeWords h.page hc))

theorem SlabOk.link {fs : List (BitVec 64)} (h : SlabOk m size s fs) (hc : ClassSize size) (v : BitVec 64) :
    SlabOk (setNext m s v) size s fs := by
  have hp : ∀ t ∈ [s], IsPage t := by
    intro t ht
    rw [mem_singleton.1 ht]
    exact h.page
  have hlink : s + 48 ∈ linkWords [s] := ⟨s, by simp, rfl⟩
  exact h.of_links hc hp (sameBut_setNext (ByteMem.SameBut.refl m) h.page hlink v)

theorem pages_lt_walkFuel {xs : List (BitVec 64)} (hnd : xs.Nodup) (hxs : ∀ t ∈ xs, IsPage t) :
    xs.length < walkFuel := by
  have hinj : (xs.map BitVec.toNat).Nodup := hnd.map fun a b h => BitVec.eq_of_toNat_eq h
  have hsub : xs.map BitVec.toNat ⊆ range' 1 (2 ^ 64 - 1) := by
    intro n hn
    obtain ⟨t, ht, rfl⟩ := mem_map.1 hn
    have := (hxs t ht).pos
    rw [mem_range'_1]
    omega
  have hle := (hinj.subperm hsub).length_le
  grind [walkFuel, length_map, length_range']

theorem ne_of_nodup_middle {xs ys : List (BitVec 64)} (h : (xs ++ s :: ys).Nodup) (ht : t ∈ xs ∨ t ∈ ys) :
    s ≠ t := by
  grind

theorem moveSlab_spec (hsrc : Linked (next m) 0 src (pre ++ s :: post)) (hdst : Linked (next m) 0 dst qs)
    (hnd : ((pre ++ s :: post) ++ qs).Nodup) (hpage : ∀ t ∈ (pre ++ s :: post) ++ qs, IsPage t) :
    ∃ src' m', moveSlab m src dst s = some (src', s, m') ∧ Linked (next m') 0 src' (pre ++ post) ∧
      Linked (next m') 0 s (s :: qs) ∧ ByteMem.SameBut (linkWords (pre ++ s :: post)) m m' := by
  have hs : IsPage s := hpage s (by simp)
  have hs0 : s ≠ 0 := hsrc.ne_null (by simp)
  have hlen : (pre ++ s :: post).length < walkFuel :=
    pages_lt_walkFuel (nodup_append.1 hnd).1 fun t ht => hpage t (mem_append_left _ ht)
  have hne : ∀ t, t ∈ pre ∨ t ∈ post ++ qs → s ≠ t := fun t => ne_of_nodup_middle (by simpa using hnd)
  have hscan := hsrc.scanPrev 0 (fun h => hne s (Or.inl h) rfl) hlen
  have hsl : s + 48 ∈ linkWords (pre ++ s :: post) := ⟨s, by simp, rfl⟩
  rcases eq_nil_or_concat' pre with rfl | ⟨pre', y, rfl⟩
  · -- the slab is the head of the list
    have hsame : ∀ t, t ∈ post ++ qs → next (setNext m s dst) t = next m t := fun t ht =>
      next_setNext_of_ne hs (hpage t (by simpa using Or.inr (mem_append.1 ht))) (hne t (Or.inr ht)) dst
    refine ⟨next m s, setNext m s dst, ?_, ?_, ?_, ?_⟩
    · unfold moveSlab
      rw [hscan]
      rfl
    · exact hsrc.2.2.congr fun t ht => hsame t (mem_append_left _ ht)
    · exact hdst.push hs0 (ByteMem.read64_write64 _ _ _) fun t ht => hsame t (mem_append_right _ ht)
    · exact sameBut_setNext (ByteMem.SameBut.refl m) hs hsl dst
  · -- its predecessor is `y`
    have hy : IsPage y := hpage y (by simp)
    have hy0 : y ≠ 0 := hsrc.ne_null (by simp)
    have hney : ∀ t, t ∈ pre' ∨ t ∈ s :: (post ++ qs) → y ≠ t := fun t => ne_of_nodup_middle (by simpa using hnd)
    have hsame : ∀ t, IsPage t → y ≠ t → s ≠ t → next (setNext (setNext m y (next m s)) s dst) t = next m t := by
      intro t ht hyt hst
      rw [next_setNext_of_ne hs ht hst, next_setNext_of_ne hy ht hyt]
    refine ⟨src, setNext (setNext m y (next m s)) s dst, ?_, ?_, ?_, ?_⟩
    · simp_all [moveSlab, Option.map_some, Option.getD_some]
    · have hl : Linked (next m) 0 src (pre' ++ y :: s :: post) := by simpa using hsrc
      rw [append_assoc, singleton_append]
      refine hl.unlink ?_ ?_
      · rw [next_setNext_of_ne hs hy (hne y (by simp))]
        exact ByteMem.read64_write64 _ _ _
      · intro t ht
        rcases mem_append.1 ht with ht | ht
        · exact hsame t (hpage t (by simp [ht])) (hney t (Or.inl ht)) (hne t (by simp [ht]))
        · exact hsame t (hpage t (by simp [ht])) (hney t (by simp [ht])) (hne t (by simp [ht]))
    · refine hdst.push hs0 (ByteMem.read64_write64 _ _ _) fun t ht => ?_
      exact hsame t (hpage t (by simp [ht])) (hney t (by simp [ht])) (hne t (by simp [ht]))
    · have hyl : y + 48 ∈ linkWords (pre' ++ [y] ++ s :: post) := ⟨y, by simp, rfl⟩
      exact sameBut_setNext (sameBut_setNext (ByteMem.SameBut.refl m) hy hyl _) hs hsl dst

/-! ### The two lists of a class -/

def classWords (xs : List (BitVec 64)) : Set (BitVec 64) := {a | ∃ t ∈ xs, a ∈ pageWords t}

/-- The memory holds the slabs of a class: `ps` in the partial list and `qs` in the full list, each in one of them and
once, with the free lists `free`. -/
structure ClassOk (m : ByteMem) (size : Nat) (c : SizeClassCache) (ps qs : List (BitVec 64))
    (free : BitVec 64 → List (BitVec 64)) : Prop where
  size_eq : c.size = size
  partialList : Linked (next m) 0 c.partialSlabs ps
  fullList : Linked (next m) 0 c.fullSlabs qs
  nodup : (ps ++ qs).Nodup
  slabs : ∀ s ∈ ps ++ qs, SlabOk m size s (free s)

namespace ClassOk

variable {c : SizeClassCache} {free free' : BitVec 64 → List (BitVec 64)} {fs : List (BitVec 64)}

section

variable (h : ClassOk m size c ps qs free)
include h

theorem page (hs : s ∈ ps ++ qs) : IsPage s := (h.slabs s hs).page

theorem partial_lt : ps.length < walkFuel :=
  pages_lt_walkFuel (nodup_append.1 h.nodup).1 fun _ ht => h.page (mem_append_left _ ht)

theorem full_lt : qs.length < walkFuel :=
  pages_lt_walkFuel (nodup_append.1 h.nodup).2.1 fun _ ht => h.page (mem_append_right _ ht)

theorem slabWords_subset (hs : s ∈ ps ++ qs) :
    slabWords s ⊆ classWords (ps ++ qs) :=
  fun _ ha => ⟨s, hs, (h.page hs).slabWords_subset_pageWords ha⟩

theorem linkWords_subset {xs : List (BitVec 64)} (hxs : xs ⊆ ps ++ qs) :
    linkWords xs ⊆ classWords (ps ++ qs) := by
  rintro a ⟨t, ht, rfl⟩
  exact ⟨t, hxs ht, (h.page (hxs ht)).field_mem_pageWords (k := 48) (by decide)⟩

theorem congr {ws : Set (BitVec 64)} (hc : ClassSize size)
    (hsame : ByteMem.SameBut ws m m')
    (hws : ∀ s ∈ ps ++ qs, ∀ k, k < slabHeaderSize → 8 ∣ k → s + BitVec.ofNat 64 k ∉ ws)
    (hfs : ∀ s ∈ ps ++ qs, ∀ p ∈ free s, p ∉ ws) : ClassOk m' size c ps qs free := by
  have hnext : ∀ s ∈ ps ++ qs, next m' s = next m s := fun s hs =>
    hsame _ ((h.page hs).dvd_field (k := 48) (by decide) (by decide)) (hws s hs 48 (by decide) (by decide))
  exact ⟨h.size_eq, h.partialList.congr fun s hs => hnext s (mem_append_left _ hs),
    h.fullList.congr fun s hs => hnext s (mem_append_right _ hs), h.nodup,
    fun s hs => (h.slabs s hs).congr hc hsame (fun k hk hd _ => hws s hs k hk hd) (hfs s hs)⟩

theorem of_pages {xs : List (BitVec 64)} (hc : ClassSize size)
    (hxs : ∀ t ∈ xs, IsPage t ∧ t ∉ ps ++ qs) (hsame : ByteMem.SameBut (classWords xs) m m') :
    ClassOk m' size c ps qs free := by
  have hout : ∀ s ∈ ps ++ qs, ∀ a ∈ pageWords s, a ∉ classWords xs := by
    rintro s hs a ha ⟨t, ht, hat⟩
    refine (hxs t ht).1.notMem_pageWords (h.page hs) ?_ ha hat
    rintro rfl
    exact (hxs t ht).2 hs
  refine h.congr hc hsame (fun s hs k hk _ => hout s hs _ ?_) fun s hs p hp => hout s hs p ?_
  · exact (h.page hs).field_mem_pageWords (Nat.lt_trans hk (by decide))
  · exact (h.page hs).freeWords_subset_pageWords (((h.slabs s hs).objects p hp).mem_freeWords (h.page hs) hc)

theorem congr_free (hfree : ∀ s ∈ ps ++ qs, free' s = free s) :
    ClassOk m size c ps qs free' := by
  refine ⟨h.size_eq, h.partialList, h.fullList, h.nodup, fun s hs => ?_⟩
  rw [hfree s hs]
  exact h.slabs s hs

theorem use (hc : ClassSize size) (hok : SlabOk m' size s fs)
    (hsame : ByteMem.SameBut (slabWords s) m m') : ClassOk m' size c ps qs (update free s fs) := by
  have hpage : ByteMem.SameBut (pageWords s) m m' := hsame.mono hok.page.slabWords_subset_pageWords
  have hnext : ∀ t ∈ ps ++ qs, next m' t = next m t := by
    intro t ht
    have htp := h.page ht
    refine hsame _ (htp.dvd_field (k := 48) (by decide) (by decide)) ?_
    by_cases hst : s = t
    · subst hst
      exact htp.field_notMem_slabWords (k := 48) (by decide) (by decide) (by decide)
    · intro hm
      exact hok.page.notMem_pageWords htp hst (htp.field_mem_pageWords (k := 48) (by decide))
        (hok.page.slabWords_subset_pageWords hm)
  refine ⟨h.size_eq, h.partialList.congr fun t ht => hnext t (mem_append_left _ ht),
    h.fullList.congr fun t ht => hnext t (mem_append_right _ ht), h.nodup, fun t ht => ?_⟩
  by_cases hst : s = t
  · grind
  · rw [update_of_ne (Ne.symm hst)]
    exact (h.slabs t ht).of_page hc hok.page hst hpage

theorem add (hc : ClassSize size) (hs : s ∉ ps ++ qs) (hok : SlabOk m' size s fs)
    (hsame : ByteMem.SameBut (pageWords s) m m') (hnext : next m' s = c.partialSlabs) (n : BitVec 64) :
    ClassOk m' size { c with partialSlabs := s, totalAllocs := n } (s :: ps) qs (update free s fs) := by
  have hne : ∀ t ∈ ps ++ qs, s ≠ t := by
    rintro t ht rfl
    exact hs ht
  have hs0 : s ≠ 0 := by
    rintro rfl
    exact Nat.lt_irrefl _ hok.page.pos
  have hold : ∀ t ∈ ps ++ qs, next m' t = next m t := by
    intro t ht
    have htp := h.page ht
    exact hsame _ (htp.dvd_field (k := 48) (by decide) (by decide))
      (hok.page.notMem_pageWords htp (hne t ht) (htp.field_mem_pageWords (k := 48) (by decide)))
  refine ⟨h.size_eq, h.partialList.push hs0 hnext fun t ht => hold t (mem_append_left _ ht),
    h.fullList.congr fun t ht => hold t (mem_append_right _ ht), nodup_cons.2 ⟨hs, h.nodup⟩, fun t ht => ?_⟩
  rcases mem_cons.1 ht with rfl | ht
  · rw [update_self]
    exact hok
  · rw [update_of_ne (hne t ht).symm]
    exact (h.slabs t ht).of_page hc hok.page (hne t ht) hsame

end

theorem moveToFull (h : ClassOk m size c (pre ++ s :: post) qs free) (hc : ClassSize size) :
    ∃ c' m', c.moveToFull m s = some (c', m') ∧ ClassOk m' size c' (pre ++ post) (s :: qs) free ∧
      ByteMem.SameBut (classWords ((pre ++ s :: post) ++ qs)) m m' := by
  obtain ⟨src, m', heq, hsrc, hdst, hsame⟩ :=
    moveSlab_spec h.partialList h.fullList h.nodup fun t ht => h.page ht
  have hsub : pre ++ s :: post ⊆ (pre ++ s :: post) ++ qs := fun _ ht => mem_append_left _ ht
  refine ⟨{ c with partialSlabs := src, fullSlabs := s }, m', ?_, ⟨h.size_eq, hsrc, hdst, ?_, ?_⟩,
    hsame.mono (h.linkWords_subset hsub)⟩
  · unfold SizeClassCache.moveToFull
    rw [heq]
    rfl
  · have := h.nodup
    grind
  · intro t ht
    refine (h.slabs t ?_).of_links hc (fun u hu => h.page (hsub hu)) hsame
    grind

theorem moveToPartial (h : ClassOk m size c ps (pre ++ s :: post) free) (hc : ClassSize size) :
    ∃ c' m', c.moveToPartial m s = some (c', m') ∧ ClassOk m' size c' (s :: ps) (pre ++ post) free ∧
      ByteMem.SameBut (classWords (ps ++ (pre ++ s :: post))) m m' := by
  have hnd : ((pre ++ s :: post) ++ ps).Nodup := nodup_append_comm.1 h.nodup
  have hsub : pre ++ s :: post ⊆ ps ++ (pre ++ s :: post) := fun _ ht => mem_append_right _ ht
  obtain ⟨src, m', heq, hsrc, hdst, hsame⟩ :=
    moveSlab_spec h.fullList h.partialList hnd fun t ht => h.page (perm_append_comm.subset ht)
  refine ⟨{ c with fullSlabs := src, partialSlabs := s }, m', ?_, ⟨h.size_eq, hdst, hsrc, ?_, ?_⟩,
    hsame.mono (h.linkWords_subset hsub)⟩
  · unfold SizeClassCache.moveToPartial
    rw [heq]
    rfl
  · grind
  · intro t ht
    refine (h.slabs t ?_).of_links hc (fun u hu => h.page (hsub hu)) hsame
    grind

end ClassOk

/-! ### Allocation and release -/

/-- What an allocation can do: it fails without a frame or without room in one, takes the first free object of a slab,
or takes one of a new slab. -/
inductive AllocEffect {φ : Type} (src : FrameSource φ) (dm : DirectMap) (m : ByteMem) (size : Nat) (c : SizeClassCache)
    (ps qs : List (BitVec 64)) (free : BitVec 64 → List (BitVec 64)) (frames : φ) :
    Option (BitVec 64) → SizeClassCache → φ → ByteMem → Prop
  | noFrame {frames' : φ} (hframe : src.allocateFrame frames = (none, frames')) :
    AllocEffect src dm m size c ps qs free frames none c frames' m
  | noRoom {f : PhysAddr} {frames' : φ} (hframe : src.allocateFrame frames = (some f, frames'))
    (hroom : usableObjects size = 0) :
    AllocEffect src dm m size c ps qs free frames none c (src.deallocateFrame frames' f) m
  | old {s p : BitVec 64} {fs ps' qs' : List (BitVec 64)} {c' : SizeClassCache} {m' : ByteMem} (hs : s ∈ ps ++ qs)
    (hfree : free s = p :: fs) (hmem : ∀ t, t ∈ ps' ++ qs' ↔ t ∈ ps ++ qs)
    (hok : ClassOk m' size c' ps' qs' (update free s fs))
    (hsame : ByteMem.SameBut (classWords (ps ++ qs)) m m') :
    AllocEffect src dm m size c ps qs free frames (some p) c' frames m'
  | fresh {f : PhysAddr} {frames' : φ} {p : BitVec 64} {fs : List (BitVec 64)} {c' : SizeClassCache} {m' : ByteMem}
    (hframe : src.allocateFrame frames = (some f, frames')) (hp : IsObject size (f.toVirt dm.hhdm) p) (hn : p ∉ fs)
    (hok : ClassOk m' size c' (f.toVirt dm.hhdm :: ps) qs (update free (f.toVirt dm.hhdm) fs))
    (hsame : ByteMem.SameBut (pageWords (f.toVirt dm.hhdm)) m m') :
    AllocEffect src dm m size c ps qs free frames (some p) c' frames' m'

namespace ClassOk

variable {c : SizeClassCache} {free : BitVec 64 → List (BitVec 64)} {φ : Type} {source : FrameSource φ}
  {dm : DirectMap} {frames : φ}

section

variable (h : ClassOk m size c ps qs free)
include h

theorem setTotalAllocs (n : BitVec 64) :
    ClassOk m size { c with totalAllocs := n } ps qs free :=
  ⟨h.size_eq, h.partialList, h.fullList, h.nodup, h.slabs⟩

theorem setTotalFrees (n : BitVec 64) :
    ClassOk m size { c with totalFrees := n } ps qs free :=
  ⟨h.size_eq, h.partialList, h.fullList, h.nodup, h.slabs⟩

theorem alloc_some (hc : ClassSize size) (hs : s ∈ ps ++ qs)
    (heq : Slab.alloc m s = some (p, m')) :
    ∃ fs, free s = p :: fs ∧ SlabOk m' size s fs ∧ ByteMem.SameBut (slabWords s) m m' := by
  have hok := h.slabs s hs
  cases hfree : free s with
  | nil =>
    rw [hfree] at hok
    rw [hok.alloc_nil] at heq
    cases heq
  | cons q fs =>
    rw [hfree] at hok
    obtain ⟨m'', heq', hok', hsame⟩ := hok.alloc hc
    simp_all

theorem allocNew (hc : ClassSize size)
    (hfre : ∀ f, (source.allocateFrame frames).1 = some f → f.toVirt dm.hhdm ∉ ps ++ qs) :
    ∃ r c' frames' m', c.allocNew source dm frames m = (r, c', frames', m') ∧
      AllocEffect source dm m size c ps qs free frames r c' frames' m' := by
  obtain rfl := h.size_eq
  unfold SizeClassCache.allocNew Slab.new
  cases hfra : source.allocateFrame frames with
  | mk o frames' =>
    cases o with
    | none => exact ⟨_, _, _, _, rfl, AllocEffect.noFrame hfra⟩
    | some f =>
      by_cases hroom : usableObjects c.size = 0
      · simp only [if_pos hroom]
        exact ⟨_, _, _, _, rfl, AllocEffect.noRoom hfra hroom⟩
      · simp only [if_neg hroom]
        have hs := isPage_toVirt (source.frame_lt frames f (by rw [hfra])) dm
        obtain ⟨n, hn⟩ := Nat.exists_eq_succ_of_ne_zero hroom
        obtain ⟨hok1, hsame1⟩ := slabOk_new hs hc f m
        rw [hn, newObjects_succ, ← hn] at hok1
        have hok2 := hok1.link hc c.partialSlabs
        have hsame2 := sameBut_setNext hsame1 hs (hs.field_mem_pageWords (k := 48) (by decide)) c.partialSlabs
        obtain ⟨m3, heq, hok3, hsame3⟩ := hok2.alloc hc
        rw [heq]
        refine ⟨_, _, _, _, rfl, AllocEffect.fresh hfra ⟨n, by omega, rfl⟩ (nodup_cons.1 hok1.nodup).1 ?_
          (hsame2.trans (hsame3.mono hs.slabWords_subset_pageWords))⟩
        have hadd := h.add hc (hfre f (by rw [hfra])) hok2 hsame2 (ByteMem.read64_write64 _ _ _) (c.totalAllocs + 1)
        have huse := hadd.use hc hok3 hsame3
        rw [update_idem] at huse
        exact huse

theorem alloc (hc : ClassSize size)
    (hf : ∀ f, (source.allocateFrame frames).1 = some f → f.toVirt dm.hhdm ∉ ps ++ qs) :
    ∃ r c' frames' m', c.alloc source dm frames m = some (r, c', frames', m') ∧
      AllocEffect source dm m size c ps qs free frames r c' frames' m' := by
  have hscan := h.partialList.scan (Slab.alloc m) h.partial_lt
  unfold SizeClassCache.alloc
  cases hfind : ps.findSome? fun s => (Slab.alloc m s).map fun b => (s, b) with
  | none =>
    -- no slab of the list has an object left
    rw [hfind] at hscan
    rw [hscan]
    obtain ⟨r, c', frames', m', heq, hef⟩ := h.allocNew hc hf
    exact ⟨r, c', frames', m', by simp only [heq], hef⟩
  | some r =>
    rw [hfind] at hscan
    rw [hscan]
    obtain ⟨pre, s, post, rfl, hsome, -⟩ := findSome?_eq_some_iff.1 hfind
    obtain ⟨⟨p, m'⟩, heq, rfl⟩ := Option.map_eq_some_iff.1 hsome
    have hs : s ∈ (pre ++ s :: post) ++ qs := by simp
    obtain ⟨fs, hfree, hok, hsame⟩ := h.alloc_some hc hs heq
    have huse := (h.use hc hok hsame).setTotalAllocs (c.totalAllocs + 1)
    have hw := hsame.mono (h.slabWords_subset hs)
    dsimp only
    by_cases hfull : Slab.isFull m' s = true
    · -- the last object of the slab was taken
      obtain ⟨c'', m'', hmove, hok', hsame'⟩ := huse.moveToFull hc
      rw [if_pos hfull, hmove]
      refine ⟨_, _, _, _, rfl, AllocEffect.old hs hfree (fun t => ?_) hok' (hw.trans hsame')⟩
      grind
    · rw [if_neg hfull]
      exact ⟨_, _, _, _, rfl, AllocEffect.old hs hfree (fun t => Iff.rfl) huse hw⟩

end

theorem findSome?_eq_ite {f : BitVec 64 → Bool} {xs : List (BitVec 64)} (h : ∀ t ∈ xs, f t = true ↔ t = s) :
    (xs.findSome? fun t => (if f t then some () else none).map fun b => (t, b)) =
      if s ∈ xs then some (s, ()) else none := by
  induction xs with
  | nil => rfl
  | cons t ts ih =>
    by_cases hf : f t = true
    · simp_all
    · grind

theorem findSlab_eq (h : ClassOk m size c ps qs free) {head : BitVec 64} {xs : List (BitVec 64)}
    (hlist : Linked (next m) 0 head xs) (hxs : xs ⊆ ps ++ qs) (hlen : xs.length < walkFuel) (hs : s ∈ ps ++ qs)
    (hp : p ∈ pageWords s) :
    SizeClassCache.findSlab m head p = some (if s ∈ xs then some (s, ()) else none) := by
  unfold SizeClassCache.findSlab
  rw [hlist.scan _ hlen]
  congr 1
  apply findSome?_eq_ite
  intro t ht
  rw [contains_iff (h.slabs t (hxs ht)).toHeaderOk]
  constructor
  · intro hpt
    by_contra hne
    exact (h.page (hxs ht)).notMem_pageWords (h.page hs) hne hp hpt
  · rintro rfl
    exact hp

theorem release (h : ClassOk m size c ps qs free) (hc : ClassSize size) (hs : s ∈ ps ++ qs) (hp : IsObject size s p)
    (hn : p ∉ free s) :
    ∃ c' m' ps' qs', c.free m p = some (c', m') ∧ (∀ t, t ∈ ps' ++ qs' ↔ t ∈ ps ++ qs) ∧
      ClassOk m' size c' ps' qs' (update free s (p :: free s)) ∧
      ByteMem.SameBut (classWords (ps ++ qs)) m m' := by
  have hpage : p ∈ pageWords s :=
    (h.page hs).freeWords_subset_pageWords (hp.mem_freeWords (h.page hs) hc)
  obtain ⟨hok, hsame⟩ := (h.slabs s hs).free hc hp hn
  have huse := (h.use hc hok hsame).setTotalFrees (c.totalFrees + 1)
  have hw := hsame.mono (h.slabWords_subset hs)
  unfold SizeClassCache.free
  rw [h.findSlab_eq h.partialList (subset_append_left _ _) h.partial_lt hs hpage]
  by_cases hps : s ∈ ps
  · grind
  · have hqs : s ∈ qs := (mem_append.1 hs).resolve_left hps
    rw [if_neg hps, h.findSlab_eq h.fullList (subset_append_right _ _) h.full_lt hs hpage, if_pos hqs]
    obtain ⟨pre, post, rfl⟩ := append_of_mem hqs
    obtain ⟨c', m', hmove, hok', hsame'⟩ := huse.moveToPartial hc
    refine ⟨c', m', s :: ps, pre ++ post, hmove, fun t => ?_, hok', hw.trans hsame'⟩
    grind

end ClassOk

end AstralOS.Memory
