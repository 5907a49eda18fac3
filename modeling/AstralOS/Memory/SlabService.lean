import AstralOS.Memory.SlabRuns

/-!
# What the slab allocator serves

`can_handle` promises objects up to 4096 bytes.  The header of a slab is rounded up to the size of its objects, so a page for
objects of 4096 bytes has no room for one, and `Slab::new` gives its frame back.  The classes below always serve: a slab in the
partial list has an object, or a new one is made of the next frame.  So with a free frame a request that can be handled is
served exactly if it needs at most 2048 bytes (`slab_serves_iff`).
-/

namespace AstralOS.Memory

open Slab List
open SlabAllocator (findSizeClass)

def SlabAllocator.canHandle (size : Nat) : Bool := size ≤ slabSizes.get 7

namespace SlabState

variable {φ : Type} (src : FrameSource φ) (dm : DirectMap)

/-- An allocation returns an object: its class has at least the size asked for, and it is safe next to the others. -/
def Serves (s : SlabState φ) (size : Nat) : Prop :=
  ∃ p a q m, s.allocator.alloc src.noted dm size (s.frames, s.held) s.mem = some (some p, a, q, m) ∧
    size ≤ (objectBlock (p, size)).size ∧
    SlabSafe dm { allocator := a, frames := q.1, held := q.2, mem := m, live := (p, size) :: s.live }

end SlabState

variable {φ : Type} {src : FrameSource φ} {dm : DirectMap} {s : SlabState φ} {v : SlabView} {i : Fin 8} {size : Nat}

/-! ### Classes -/

theorem le_of_findSizeClass (hi : findSizeClass size = some i) : size ≤ slabSizes.get i := by
  have hle := find?_some hi
  exact of_decide_eq_true hle

theorem exists_findSizeClass (h : SlabAllocator.canHandle size = true) : ∃ i, findSizeClass size = some i := by
  refine Option.isSome_iff_exists.1 ?_
  unfold findSizeClass
  rw [find?_isSome]
  exact ⟨7, mem_finRange 7, h⟩

theorem lt_of_findSizeClass (hi : findSizeClass size = some i) {j : Fin 8} (hj : j < i) : slabSizes.get j < size := by
  obtain ⟨-, xs, ys, hsp, hxs⟩ := find?_eq_some_iff_append.1 hi
  have hso := pairwise_lt_finRange 8
  have hmem := mem_finRange j
  rw [hsp] at hso hmem
  have ha := (pairwise_cons.1 (pairwise_append.1 hso).2.1).1
  rcases mem_append.1 hmem with hj' | hj'
  · simpa using hxs j hj'
  · rcases mem_cons.1 hj' with rfl | hj'
    · exact absurd hj (lt_irrefl j)
    · exact absurd hj (lt_asymm (ha j hj'))

theorem usableObjects_findSizeClass (hi : findSizeClass size = some i) :
    usableObjects (slabSizes.get i) ≠ 0 ↔ size ≤ 2048 := by
  have hle := le_of_findSizeClass hi
  have hc : ∀ i : Fin 8, (usableObjects (slabSizes.get i) ≠ 0 ↔ slabSizes.get i ≤ 2048) ∧
      (6 < i ↔ ¬ slabSizes.get i ≤ 2048) := by decide
  rw [(hc i).1]
  constructor
  · intro h
    omega
  · intro h
    by_contra hgt
    have hlt := lt_of_findSizeClass hi ((hc i).2.2 hgt)
    have h6 : slabSizes.get 6 = 2048 := rfl
    omega

/-! ### Allocation -/

theorem AllocEffect.isObject {m m' : ByteMem} {c c' : SizeClassCache} {ps qs : List (BitVec 64)}
    {free : BitVec 64 → List (BitVec 64)} {frames frames' : φ} {p : BitVec 64}
    (h : ClassOk m size c ps qs free) (he : AllocEffect src dm m size c ps qs free frames (some p) c' frames' m') :
    ∃ t, IsObject size t p := by
  cases he with
  | old hs hfree _ _ _ =>
    refine ⟨_, (h.slabs _ hs).objects p ?_⟩
    rw [hfree]
    exact mem_cons_self
  | fresh _ hp _ _ _ => exact ⟨_, hp⟩

theorem SlabInv.serves_iff (h : SlabInv dm s v) (hinit : s.allocator.initialized ≠ 0)
    (hcan : SlabAllocator.canHandle size = true) (hp : s.Permitted src dm (.alloc size))
    (hf : (src.allocateFrame s.frames).1.isSome) : s.Serves src dm size ↔ size ≤ 2048 := by
  obtain ⟨i, hi⟩ := exists_findSizeClass hcan
  obtain ⟨r, c, q, m, heq, heff⟩ := h.alloc_effect hp hinit hi
  rw [← usableObjects_findSizeClass hi]
  constructor
  · rintro ⟨p, a, q', m', heq', -⟩
    rw [heq] at heq'
    cases heq'
    obtain ⟨t, k, hk, -⟩ := heff.isObject (h.classes i)
    omega
  · intro hroom
    obtain ⟨v', hinv⟩ := h.effect hi hp heff
    cases r with
    | none =>
      exfalso
      cases heff with
      | noFrame hnone =>
        simp_all [(FrameSource.noted_allocate hnone).1]
      | noRoom _ hzero => exact hroom hzero
    | some p =>
      refine ⟨p, _, q, m, heq, ?_, hinv.safe⟩
      unfold objectBlock
      rw [classSize_eq hi]
      exact le_of_findSizeClass hi

namespace SlabState

theorem exists_inv_of_run {m : ByteMem} {frames : φ} {cs : List (SlabCall φ)}
    (hcs : Meets (step src dm) (fun o c => ∀ s ∈ o, s.Permitted src dm c) (some (boot m frames)) cs)
    (hs : run (step src dm) (some (boot m frames)) cs = some s) : ∃ v, SlabInv dm s v := by
  obtain ⟨s', v, heq, h⟩ := (always_inv src dm m frames hcs).run
  grind

/-- After every permitted run that initialized the allocator, a size that it says it can handle is served, if there is a free
frame that no slab has, exactly if it is at most 2048. -/
theorem slab_serves_iff (src : FrameSource φ) (dm : DirectMap) (m : ByteMem) (frames : φ) (cs : List (SlabCall φ))
    (hcs : Meets (step src dm) (fun o c => ∀ s ∈ o, s.Permitted src dm c) (some (boot m frames)) cs)
    (hs : run (step src dm) (some (boot m frames)) cs = some s) (hinit : s.allocator.initialized ≠ 0) (size : Nat)
    (hcan : SlabAllocator.canHandle size = true) (f : PhysAddr) (hf : (src.allocateFrame s.frames).1 = some f)
    (hnew : f ∉ s.held) : s.Serves src dm size ↔ size ≤ 2048 := by
  obtain ⟨v, h⟩ := exists_inv_of_run hcs hs
  refine h.serves_iff hinit hcan (fun g hg => ?_) (by rw [hf]; rfl)
  rw [hf] at hg
  cases hg
  exact hnew

def fresh : SlabState (List (Fin maxFrames)) := { boot (fun _ => 0) twoFrames with allocator := SlabAllocator.new.init }

theorem slab_serves_iff_fresh : fresh.Serves listSource upperHalf 2048 :=
  (slab_serves_iff listSource upperHalf (fun _ => 0) twoFrames [.init] ⟨fun _ _ => trivial, trivial⟩ rfl
    (show fresh.allocator.initialized ≠ 0 by decide) 2048 rfl (PhysAddr.ofFrame 256) rfl not_mem_nil).2 (Nat.le_refl _)

/-- A request for a page is not served, although there are free frames. -/
theorem page_not_served :
    ¬ ∀ (φ : Type) (src : FrameSource φ) (dm : DirectMap) (m : ByteMem) (frames : φ) (cs : List (SlabCall φ))
      (s : SlabState φ), Meets (step src dm) (fun o c => ∀ s ∈ o, s.Permitted src dm c) (some (boot m frames)) cs →
      run (step src dm) (some (boot m frames)) cs = some s → s.allocator.initialized ≠ 0 →
      ∀ size, SlabAllocator.canHandle size = true → ∀ f, (src.allocateFrame s.frames).1 = some f → f ∉ s.held →
      s.Serves src dm size := by
  intro hall
  have hs := hall _ listSource upperHalf (fun _ => 0) twoFrames [.init] fresh ⟨fun _ _ => trivial, trivial⟩ rfl
    (by decide) 4096 rfl (PhysAddr.ofFrame 256) rfl not_mem_nil
  have hm : Meets (step listSource upperHalf) (fun o c => ∀ s ∈ o, s.Permitted listSource upperHalf c)
      (some (boot (fun _ => 0) twoFrames)) [.init] := ⟨fun _ _ => trivial, trivial⟩
  obtain ⟨v, h⟩ : ∃ v, SlabInv upperHalf fresh v := exists_inv_of_run hm rfl
  have hp : fresh.Permitted listSource upperHalf (.alloc 4096) := fun _ _ => not_mem_nil
  exact absurd ((h.serves_iff (by decide) rfl hp rfl).1 hs) (by decide)

end SlabState

end AstralOS.Memory
