import AstralOS.Memory.Fractal
import AstralOS.Memory.Heap

/-!
# The memory behind a fractal region

A region that `allocate_region` returns has every page mapped to a frame of its own, which was free before.  It is as large
as asked for exactly if the size can be rounded up to whole pages without overflow: a larger request wraps round to a region
of no bytes, which needs no frames and so succeeds always.
-/

namespace AstralOS.Memory.Fractal.FractalState

open Fallible BitVec

variable {r : FractalRegion} {s s' : Phys} {p4 : PhysAddr}

/-- Every page of the region is mapped to a frame that has been taken for it. -/
structure Backed (r : FractalRegion) (p4 : PhysAddr) (s s' : Phys) : Prop where
  mapped : ∀ a, (a - r.baseAddr).toNat < r.size.toNat →
    ∃ frame, translate s' p4 a = some frame ∧ s.frames.Free frame.frame ∧ ¬s'.frames.Free frame.frame
  distinct : ∀ a b, (a - r.baseAddr).toNat < r.size.toNat → (b - r.baseAddr).toNat < r.size.toNat →
    translate s' p4 a = translate s' p4 b → a.toNat / pageSize = b.toNat / pageSize

/-- The same for the first pages that `allocate_backing` counts. -/
structure PagesBacked (r : FractalRegion) (p4 : PhysAddr) (s : Phys) (done : List Nat) (s' : Phys) : Prop where
  tables : PageTables (fun _ => True) s' p4
  free : ∀ f, s'.frames.Free f → s.frames.Free f
  mapped : ∀ i ∈ done, ∃ frame, translate s' p4 (r.page i) = some frame ∧ s.frames.Free frame.frame ∧
    ¬s'.frames.Free frame.frame
  distinct : ∀ i ∈ done, ∀ j ∈ done, translate s' p4 (r.page i) = translate s' p4 (r.page j) → i = j

theorem PagesBacked.snoc {done : List Nat} (h : PagesBacked r p4 s done s') (i : Nat) :
    Ends (r.backPage p4 i) s' (fun _ s'' => PagesBacked r p4 s (done ++ [i]) s'') fun _ _ => True := by
  refine (backPage_ends h.tables i).mono ?_ fun _ _ _ => trivial
  rintro frame s'' ⟨hnone, htab, htr, -, hfree, hrest⟩
  have hnew : translate s'' p4 (r.page i) = some frame := by rw [htr, if_pos rfl]
  -- the pages before it were mapped, so they are other pages
  have hold : ∀ j ∈ done, translate s'' p4 (r.page j) = translate s' p4 (r.page j) := by
    intro j hj
    obtain ⟨q, hq, -⟩ := h.mapped j hj
    rw [htr, if_neg]
    intro hpage
    rw [translate_congr hpage, hnone] at hq
    cases hq
  have ha : ∀ j ∈ done, translate s'' p4 (r.page j) ≠ some frame := by
    intro j hj heq
    obtain ⟨q, hq, -, htak⟩ := h.mapped j hj
    simp_all [hold j hj]
  refine ⟨htab, fun f hf => h.free f (hrest f hf).1, fun j hj => ?_, fun j hj k hk heq => ?_⟩
  · rcases List.mem_append.1 hj with hj | hj
    · obtain ⟨q, hq, hqf, htak⟩ := h.mapped j hj
      exact ⟨q, (hold j hj).trans hq, hqf, fun hf => htak (hrest _ hf).1⟩
    · rw [List.mem_singleton.1 hj]
      exact ⟨frame, hnew, h.free _ hfree, fun hf => (hrest _ hf).2 rfl⟩
  · rw [List.mem_append, List.mem_singleton] at hj hk
    rcases hj with hj | rfl <;> rcases hk with hk | rfl
    · exact h.distinct j hj k hk (by rw [← hold j hj, ← hold k hk, heq])
    · exact absurd (heq.trans hnew) (ha j hj)
    · exact absurd (heq.symm.trans hnew) (ha k hk)
    · rfl

theorem allocateBacking_backs (h : PageTables (fun _ => True) s p4) :
    Ends (r.allocateBacking p4) s (fun _ s' => PagesBacked r p4 s (List.range r.numPages) s') fun _ _ => True := by
  refine Ends.bind (ends_foldlM_done (E := fun _ _ => True) (List.range r.numPages)
    (fun done _ s' => PagesBacked r p4 s done s') ?_ ⟨h, fun _ hf => hf, by simp, by simp⟩)
    (fun _ _ hb => ends_pure hb)
  intro done i rest frames s1 _ hb
  exact Ends.bind (hb.snoc i) (fun _ _ h => ends_pure h)

theorem toNat_page : (BitVec.ofNat 64 pageSize).toNat = 4096 := by decide

theorem toNat_add_page (size : BitVec 64) :
    (size + BitVec.ofNat 64 pageSize - 1).toNat = (size.toNat + 4095) % 2 ^ 64 := by
  grind [toNat_page]

theorem PagesBacked.backed (h : PagesBacked r p4 s (List.range r.numPages) s') (hbase : r.baseAddr.toNat % pageSize = 0)
    (hsize : r.size.toNat % pageSize = 0) : Backed r p4 s s' := by
  have hp : pageSize = 4096 := rfl
  rw [hp] at hbase hsize
  have hnum : r.numPages = r.size.toNat / 4096 := by
    unfold FractalRegion.numPages
    rw [toNat_udiv, toNat_add_page, toNat_page]
    omega
  have hpage : ∀ a, (a - r.baseAddr).toNat < r.size.toNat →
      (a - r.baseAddr).toNat / 4096 ∈ List.range r.numPages ∧
      translate s' p4 a = translate s' p4 (r.page ((a - r.baseAddr).toNat / 4096)) := by
    intro a ha
    refine ⟨List.mem_range.2 (by rw [hnum]; omega), translate_congr ?_ s' p4⟩
    rw [toNat_sub] at ha ⊢
    unfold pageOf FractalRegion.page
    rw [toNat_add, toNat_ofNat, hp]
    omega
  refine ⟨fun a ha => ?_, fun a b ha hb heq => ?_⟩
  · obtain ⟨hmem, htrans⟩ := hpage a ha
    rw [htrans]
    exact h.mapped _ hmem
  · obtain ⟨hmema, htransa⟩ := hpage a ha
    obtain ⟨hmemb, htransb⟩ := hpage b hb
    have hsame := h.distinct _ hmema _ hmemb (htransa.symm.trans (heq.trans htransb))
    rw [toNat_sub, toNat_sub] at hsame
    rw [hp]
    omega

/-! ### The size -/

theorem toNat_alignedSize (size : BitVec 64) :
    ((size + BitVec.ofNat 64 pageSize - 1) &&& ~~~(BitVec.ofNat 64 pageSize - 1)).toNat =
      (size.toNat + 4095) % 2 ^ 64 / 4096 * 4096 := by
  have hmask : BitVec.ofNat 64 pageSize = BitVec.twoPow 64 12 := by decide
  rw [hmask, and_not_lowMask (by decide), ← hmask, toNat_add_page]
  rfl

def Reachable (a : FractalAllocator) : Prop := ∃ phys calls, (run step ⟨phys, .new⟩ calls).alloc = a

theorem Reachable.base {a : FractalAllocator} (h : Reachable a) : a.nextVirtBase.toNat % pageSize = 0 := by
  obtain ⟨phys, calls, rfl⟩ := h
  refine run_invariant (P := fun s : FractalState => s.alloc.nextVirtBase.toNat % pageSize = 0) (Q := fun _ => True)
    (fun s c h _ => ?_) (show FractalAllocator.new.nextVirtBase.toNat % pageSize = 0 by decide) fun _ _ => trivial
  cases c with
  | allocateRegion p4 size =>
    have hbase : (s.step (.allocateRegion p4 size)).alloc.nextVirtBase = s.alloc.nextVirtBase +
        ((size + BitVec.ofNat 64 pageSize - 1) &&& ~~~(BitVec.ofNat 64 pageSize - 1)) := by
      unfold step exec allocateRegion
      dsimp only
      split <;> rfl
    have hp : pageSize = 4096 := rfl
    grind [toNat_alignedSize]
  | subdivide place =>
    have hbase : (s.step (.subdivide place)).alloc.nextVirtBase = s.alloc.nextVirtBase := by
      unfold step exec subdivide
      dsimp only
      split
      · rfl
      · split <;> rfl
    rw [hbase]
    exact h

/-- The region returned has the size asked for and frames of its own exactly if the size can be rounded up. -/
theorem allocateRegion_suffices_iff (s s' : FractalState) (p4 : PhysAddr) (size : BitVec 64) (place : Place)
    (r : FractalRegion) (halloc : Reachable s.alloc) (htables : PageTables (fun _ => True) s.phys p4)
    (hok : s.allocateRegion p4 size = (.ok place, s')) (hr : s'.alloc.region place = some r) :
    size.toNat ≤ r.size.toNat ∧ Backed r p4 s.phys s'.phys ↔ size.toNat + (pageSize - 1) < 2 ^ 64 := by
  have hp : pageSize - 1 = 4095 := rfl
  have hali := toNat_alignedSize size
  unfold allocateRegion at hok
  dsimp only at hok
  generalize (size + BitVec.ofNat 64 pageSize - 1) &&& ~~~(BitVec.ofNat 64 pageSize - 1) = alignedSize at hali hok
  split at hok
  case h_1 => cases hok
  case h_2 region phys hexec =>
    cases hok
    have hre : region = r := by
      simpa [FractalAllocator.region] using hr
    have heq := (allocateBacking_ends _ p4 s.phys).ok hexec
    have hsize : region.size = alignedSize := by rw [heq]; rfl
    have hb : Backed region p4 s.phys phys := by
      have hpa := (allocateBacking_backs htables).ok hexec
      have := hpa.backed halloc.base (by
        show alignedSize.toNat % 4096 = 0
        omega)
      rw [heq]
      exact ⟨this.mapped, this.distinct⟩
    grind

theorem allocateRegion_suffices_eight :
    ∃ (s s' : FractalState) (p4 : PhysAddr) (r : FractalRegion), s.allocateRegion p4 0x8000 = (.ok ⟨0, []⟩, s') ∧
      0x8000 ≤ r.size.toNat ∧ Backed r p4 s.phys s'.phys := by
  obtain ⟨phys, phys', p4, root, ht, hf, -⟩ := exists_firstRoot
  refine ⟨_, _, p4, root, hf, ?_⟩
  exact (allocateRegion_suffices_iff ⟨phys, .new⟩ _ p4 0x8000 _ root ⟨phys, [], rfl⟩ ht hf rfl).2 (by decide)

/-- The largest request there is gets a region of no bytes. -/
theorem allocateRegion_empty :
    ∃ (s s' : FractalState) (p4 : PhysAddr) (r : FractalRegion), Reachable s.alloc ∧ PageTables (fun _ => True) s.phys p4 ∧
      s.allocateRegion p4 0xFFFFFFFFFFFFFFFF = (.ok ⟨0, []⟩, s') ∧ s'.alloc.region ⟨0, []⟩ = some r ∧ r.size = 0 := by
  obtain ⟨phys, p4, ht, -⟩ := Mapping.exists_newTables
  let root : FractalRegion := .new (.ofRoot 0) 0xFFFF900000000000 0
  have hsize : ((0xFFFFFFFFFFFFFFFF : BitVec 64) + BitVec.ofNat 64 pageSize - 1) &&& ~~~(BitVec.ofNat 64 pageSize - 1) = 0 := by
    decide
  have hexec : (root.allocateBacking p4).exec phys = (.ok root, phys) := by
    have hnum : root.numPages = 0 := by decide
    unfold FractalRegion.allocateBacking
    rw [hnum]
    rfl
  refine ⟨⟨phys, .new⟩, ⟨phys, ⟨[root], 0xFFFF900000000000⟩⟩, p4, root, ⟨phys, [], rfl⟩, ht, ?_, rfl, rfl⟩
  unfold allocateRegion
  dsimp only
  rfl

end AstralOS.Memory.Fractal.FractalState
