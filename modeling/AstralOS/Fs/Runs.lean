import AstralOS.Fs.Inode

/-!
# The runs behind an inode

An inode whose extents were built by `addExtent` is described by the list of its runs `(start, count)`
(`Inode.HasRuns`): the extents are the runs laid out one after the other, the unused slots are empty.  Over such an
inode `getPhysicalBlock` is lookup in the concatenation of the runs (`HasRuns.getPhysicalBlock_eq`), and
`addExtent` appends a run to it or fails with all four slots in use (`HasRuns.addExtent_eq`).
-/

namespace AstralOS.Fs

def total (runs : List (Nat × Nat)) : Nat := (runs.map Prod.snd).sum

def blocksOf (runs : List (Nat × Nat)) : List Nat := runs.flatMap fun r => List.range' r.1 r.2

def layout : Nat → List (Nat × Nat) → List Extent
  | _, [] => []
  | l, (s, c) :: runs => ⟨BitVec.ofNat 16 l, BitVec.ofNat 32 s, BitVec.ofNat 16 c⟩ :: layout (l + c) runs

/-- The extents of the inode are `runs`: laid out from logical block `0` on in the first slots, with the
bookkeeping fields to match. -/
structure Inode.HasRuns (inode : Inode) (runs : List (Nat × Nat)) : Prop where
  length_le : runs.length ≤ 4
  pos : ∀ r ∈ runs, 0 < r.2
  phys : ∀ r ∈ runs, r.1 + r.2 < 2 ^ 32
  total_lt : total runs < 2 ^ 16
  extents_eq : inode.extents.toList = layout 0 runs ++ List.replicate (4 - runs.length) Extent.empty
  count_eq : inode.extentCount = BitVec.ofNat 16 runs.length
  last_eq : runs ≠ [] → inode.lastExtentIdx = BitVec.ofNat 16 (runs.length - 1)
  indirect_eq : inode.extentIndirect = 0

def Inode.blocks (inode : Inode) : List Nat :=
  inode.extents.toList.flatMap fun e => List.range' e.physicalBlock.toNat e.count.toNat

/-- Append a run to a list of runs: extend the last one if the new one continues it. -/
def addRun (runs : List (Nat × Nat)) (start count : Nat) : List (Nat × Nat) :=
  match runs.getLast? with
  | some (s, c) => if s + c = start then runs.dropLast ++ [(s, c + count)] else runs ++ [(start, count)]
  | none => [(start, count)]

/-! ### Lists of runs -/

@[simp] theorem total_nil : total [] = 0 := rfl

@[simp] theorem total_cons (r : Nat × Nat) (runs : List (Nat × Nat)) : total (r :: runs) = r.2 + total runs := by
  simp [total]

@[simp] theorem total_append (a b : List (Nat × Nat)) : total (a ++ b) = total a + total b := by
  simp [total]

@[simp] theorem blocksOf_nil : blocksOf [] = [] := rfl

@[simp] theorem blocksOf_cons (r : Nat × Nat) (runs : List (Nat × Nat)) :
    blocksOf (r :: runs) = List.range' r.1 r.2 ++ blocksOf runs := by
  simp [blocksOf]

@[simp] theorem blocksOf_append (a b : List (Nat × Nat)) : blocksOf (a ++ b) = blocksOf a ++ blocksOf b := by
  simp [blocksOf]

@[simp] theorem length_blocksOf (runs : List (Nat × Nat)) : (blocksOf runs).length = total runs := by
  induction runs with
  | nil => rfl
  | cons r runs ih => simp [ih]

@[simp] theorem length_layout (l : Nat) (runs : List (Nat × Nat)) : (layout l runs).length = runs.length := by
  induction runs generalizing l with
  | nil => rfl
  | cons r runs ih => simp [layout, ih]

theorem layout_append (l : Nat) (a b : List (Nat × Nat)) :
    layout l (a ++ b) = layout l a ++ layout (l + total a) b := by
  induction a generalizing l with
  | nil => rfl
  | cons r a ih => simp [layout, ih, Nat.add_assoc]

theorem eq_nil_or_append_singleton (runs : List (Nat × Nat)) : runs = [] ∨ ∃ init s c, runs = init ++ [(s, c)] := by
  rcases List.eq_nil_or_concat runs with h | ⟨init, ⟨s, c⟩, h⟩
  · exact Or.inl h
  · exact Or.inr ⟨init, s, c, by simpa using h⟩

theorem addRun_append (init : List (Nat × Nat)) (s c start count : Nat) :
    addRun (init ++ [(s, c)]) start count =
      if s + c = start then init ++ [(s, c + count)] else init ++ [(s, c)] ++ [(start, count)] := by
  simp [addRun]

theorem blocksOf_addRun (runs : List (Nat × Nat)) (start count : Nat) :
    blocksOf (addRun runs start count) = blocksOf runs ++ List.range' start count := by
  rcases eq_nil_or_append_singleton runs with rfl | ⟨init, s, c, rfl⟩
  · simp [addRun]
  · rw [addRun_append]
    split
    · rename_i h
      subst h
      simp [← List.range'_append_1]
    · simp

/-! ### Lookup -/

variable {c : Nat}

theorem ofNat_beq_zero (hc : 0 < c) (hlt : c < 2 ^ 16) : (BitVec.ofNat 16 c == 0) = false := by
  rw [beq_eq_false_iff_ne]
  intro h
  have := congrArg BitVec.toNat h
  simp at this
  omega

variable {s x : Nat}

theorem translate_mk {l : Nat} (hc : 0 < c) (hl : l + c < 2 ^ 16) (hx : x < 2 ^ 16) :
    (Extent.mk (BitVec.ofNat 16 l) (BitVec.ofNat 32 s) (BitVec.ofNat 16 c)).translate (BitVec.ofNat 16 x) =
      if l ≤ x ∧ x < l + c then some (BitVec.ofNat 32 (s + (x - l))) else none := by
  have hne := ofNat_beq_zero hc (by omega)
  have hle : decide (BitVec.ofNat 16 l ≤ BitVec.ofNat 16 x) = decide (l ≤ x) := by
    simp only [BitVec.le_def, BitVec.toNat_ofNat, decide_eq_decide]
    omega
  have hlt : decide (BitVec.ofNat 16 x < BitVec.ofNat 16 l + BitVec.ofNat 16 c) = decide (x < l + c) := by
    simp only [BitVec.lt_def, BitVec.toNat_add, BitVec.toNat_ofNat, decide_eq_decide]
    omega
  unfold Extent.translate Extent.contains Extent.isEmpty
  simp only [hne, hle, hlt, Bool.not_false, Bool.true_and, Bool.and_eq_true, decide_eq_true_eq]
  split
  · congr 1
    apply BitVec.eq_of_toNat_eq
    simp only [BitVec.toNat_add, BitVec.toNat_setWidth, BitVec.toNat_sub, BitVec.toNat_ofNat]
    omega
  · rfl

theorem translate_empty (logical : BitVec 16) : Extent.empty.translate logical = none := by
  simp [Extent.translate, Extent.contains, Extent.isEmpty, Extent.empty]

variable {runs : List (Nat × Nat)}

theorem findSome?_layout {l k : Nat} (hpos : ∀ r ∈ runs, 0 < r.2)
    (ht : l + total runs < 2 ^ 16) (hl : l ≤ x) (hx : x < 2 ^ 16) :
    (layout l runs ++ List.replicate k Extent.empty).findSome? (·.translate (BitVec.ofNat 16 x)) =
      (blocksOf runs)[x - l]?.map (BitVec.ofNat 32) := by
  induction runs generalizing l with
  | nil =>
    grind [layout, blocksOf_nil, translate_empty]
  | cons r runs ih =>
    obtain ⟨s, c⟩ := r
    have hc : 0 < c := hpos (s, c) (by simp)
    simp only [total_cons] at ht
    simp only [layout, List.cons_append, List.findSome?_cons, blocksOf_cons]
    rw [translate_mk hc (by omega) hx]
    by_cases h : x < l + c
    · grind
    · grind

variable {inode : Inode}

theorem Inode.HasRuns.getPhysicalBlock_eq (h : inode.HasRuns runs) (hx : x < 2 ^ 16) :
    inode.getPhysicalBlock (BitVec.ofNat 16 x) = (blocksOf runs)[x]?.map (BitVec.ofNat 32) := by
  unfold Inode.getPhysicalBlock
  rw [h.extents_eq, findSome?_layout h.pos (by simpa using h.total_lt) (Nat.zero_le x) hx, Nat.sub_zero]

theorem blocks_layout (l k : Nat) (hphys : ∀ r ∈ runs, r.1 + r.2 < 2 ^ 32) (ht : total runs < 2 ^ 16) :
    ((layout l runs ++ List.replicate k Extent.empty).flatMap fun e =>
      List.range' e.physicalBlock.toNat e.count.toNat) = blocksOf runs := by
  induction runs generalizing l with
  | nil => simp [layout, Extent.empty]
  | cons r runs ih =>
    obtain ⟨st, c⟩ := r
    have hp := hphys (st, c) (by simp)
    simp only [total_cons] at ht
    have e1 : (BitVec.ofNat 32 st).toNat = st := by simp; omega
    have e2 : (BitVec.ofNat 16 c).toNat = c := by simp; omega
    rw [layout, List.cons_append, List.flatMap_cons, ih _ (fun r hr => hphys r (by simp [hr])) (by omega), e1, e2,
      blocksOf_cons]

theorem Inode.HasRuns.blocks_eq (h : inode.HasRuns runs) : inode.blocks = blocksOf runs := by
  unfold Inode.blocks
  rw [h.extents_eq, blocks_layout 0 _ h.phys h.total_lt]

/-! ### Appending -/

theorem getD_toList {α : Type} {n : Nat} (v : Vector α n) (i : Nat) (d : α) :
    v.getD i d = v.toList.getD i d := by
  simp [Vector.getD, List.getD_eq_getElem?_getD]

theorem findIdx?_isEmpty (l k : Nat) (hpos : ∀ r ∈ runs, 0 < r.2) (ht : total runs < 2 ^ 16) :
    (layout l runs ++ List.replicate k Extent.empty).findIdx? Extent.isEmpty =
      if k = 0 then none else some runs.length := by
  induction runs generalizing l with
  | nil =>
    grind [layout, Extent.isEmpty, Extent.empty]
  | cons r runs ih =>
    obtain ⟨s, c⟩ := r
    have hc : 0 < c := hpos (s, c) (by simp)
    simp only [total_cons] at ht
    have hne := ofNat_beq_zero hc (by omega)
    simp only [layout, List.cons_append, List.findIdx?_cons, Extent.isEmpty, hne]
    grind

theorem Inode.hasRuns_clearExtents (inode : Inode) : inode.clearExtents.HasRuns [] where
  length_le := by simp
  pos := by simp
  phys := by simp
  total_lt := by simp
  extents_eq := by simp [clearExtents, layout]
  count_eq := rfl
  last_eq := by simp
  indirect_eq := rfl

theorem Inode.hasRuns_new : Inode.new.HasRuns [] where
  length_le := by simp
  pos := by simp
  phys := by simp
  total_lt := by simp
  extents_eq := by simp [new, layout]
  count_eq := rfl
  last_eq := by simp
  indirect_eq := rfl

theorem Inode.HasRuns.congr {inode' : Inode} (h : inode.HasRuns runs)
    (he : inode'.extents = inode.extents) (hc : inode'.extentCount = inode.extentCount)
    (hl : inode'.lastExtentIdx = inode.lastExtentIdx) (hi : inode'.extentIndirect = inode.extentIndirect) :
    inode'.HasRuns runs where
  length_le := h.length_le
  pos := h.pos
  phys := h.phys
  total_lt := h.total_lt
  extents_eq := by rw [he]; exact h.extents_eq
  count_eq := by rw [hc]; exact h.count_eq
  last_eq := by rw [hl]; exact h.last_eq
  indirect_eq := by rw [hi]; exact h.indirect_eq

theorem layout_last (init : List (Nat × Nat)) (s c k : Nat) :
    layout 0 (init ++ [(s, c)]) ++ List.replicate k Extent.empty =
      layout 0 init ++ ⟨BitVec.ofNat 16 (total init), BitVec.ofNat 32 s, BitVec.ofNat 16 c⟩ ::
        List.replicate k Extent.empty := by
  simp [layout_append, layout]

theorem extentCount_ne_zero (h : inode.HasRuns runs) (hne : runs ≠ []) : inode.extentCount ≠ 0 := by
  have hlen := List.length_pos_iff.2 hne
  have hle := h.length_le
  rw [h.count_eq]
  intro h0
  have := congrArg BitVec.toNat h0
  simp at this
  omega

theorem last_slot {init : List (Nat × Nat)} (h : inode.HasRuns (init ++ [(s, c)])) :
    inode.lastExtentIdx.toNat = init.length ∧ inode.extents.getD init.length Extent.empty =
      ⟨BitVec.ofNat 16 (total init), BitVec.ofNat 32 s, BitVec.ofNat 16 c⟩ := by
  have hlen : init.length + 1 ≤ 4 := by simpa using h.length_le
  constructor
  · rw [h.last_eq (by simp)]
    simp
    omega
  · simp [getD_toList, h.extents_eq, layout_last]

variable {count : Nat}

theorem addExtent_merge {init : List (Nat × Nat)}
    (h : inode.HasRuns (init ++ [(s, c)])) (hlt : s + c + count < 2 ^ 32)
    (ht : total init + c + count < 2 ^ 16) :
    ∃ inode', inode.addExtent (BitVec.ofNat 32 (s + c)) (BitVec.ofNat 16 count) = (true, inode') ∧
      inode'.HasRuns (init ++ [(s, c + count)]) ∧
      inode' = { inode with extents := inode'.extents, lastExtentIdx := inode'.lastExtentIdx,
                            extentCount := inode'.extentCount } := by
  have hne : inode.extentCount ≠ 0 := extentCount_ne_zero h (by simp)
  have hlen : init.length + 1 ≤ 4 := by simpa using h.length_le
  obtain ⟨hidx, hlast⟩ := last_slot h
  have hlist := h.extents_eq
  rw [layout_last] at hlist
  have hc : 0 < c := h.pos (s, c) (by simp)
  have hphys : BitVec.ofNat 32 s + (BitVec.ofNat 16 c).setWidth 32 = BitVec.ofNat 32 (s + c) := by
    apply BitVec.eq_of_toNat_eq
    simp only [BitVec.toNat_add, BitVec.toNat_setWidth, BitVec.toNat_ofNat]
    omega
  unfold Inode.addExtent
  simp only [hidx, hlast, hphys]
  rw [if_neg (by omega), if_pos ⟨hne, trivial⟩]
  refine ⟨_, rfl, ?_, rfl⟩
  refine ⟨by simpa using hlen, ?_, ?_, ?_, ?_, ?_, ?_, h.indirect_eq⟩
  · intro r hr
    simp only [List.mem_append, List.mem_singleton] at hr
    rcases hr with hr | rfl
    · exact h.pos r (by simp [hr])
    · omega
  · intro r hr
    simp only [List.mem_append, List.mem_singleton] at hr
    rcases hr with hr | rfl
    · exact h.phys r (by simp [hr])
    · omega
  · simp only [total_append, total_cons, total_nil]
    omega
  · rw [Vector.toList_setIfInBounds, hlist, layout_last, List.set_append_right _ _ (by simp)]
    simp only [length_layout, Nat.sub_self, List.set_cons_zero, List.length_append, List.length_cons,
      List.length_nil]
    have hadd : BitVec.ofNat 16 c + BitVec.ofNat 16 count = BitVec.ofNat 16 (c + count) :=
      (BitVec.ofNat_add c count).symm
    rw [hadd]
  · simpa using h.count_eq
  · intro _
    simpa using h.last_eq (by simp)

variable {start : Nat}

theorem last_extent (h : inode.HasRuns runs)
    (hlt : start + count < 2 ^ 32) (ht : total runs + count < 2 ^ 16)
    (hnew : ∀ init s c, runs = init ++ [(s, c)] → s + c ≠ start) :
    ¬ (inode.extentCount ≠ 0 ∧
        (inode.extents.getD inode.lastExtentIdx.toNat Extent.empty).physicalBlock +
          ((inode.extents.getD inode.lastExtentIdx.toNat Extent.empty).count).setWidth 32 =
            BitVec.ofNat 32 start) ∧
      (if inode.extentCount = 0 then 0 else
        (inode.extents.getD inode.lastExtentIdx.toNat Extent.empty).logicalBlock +
          (inode.extents.getD inode.lastExtentIdx.toNat Extent.empty).count) = BitVec.ofNat 16 (total runs) ∧
      ¬ (inode.extentCount ≠ 0 ∧ ¬ inode.lastExtentIdx.toNat < 4) := by
  have hle := h.length_le
  rcases eq_nil_or_append_singleton runs with rfl | ⟨init, s, c, rfl⟩
  · have h0 : inode.extentCount = 0 := by simpa using h.count_eq
    simp [h0]
  · have hne : inode.extentCount ≠ 0 := extentCount_ne_zero h (by simp)
    obtain ⟨hidx, hget⟩ := last_slot h
    have hphys := h.phys (s, c) (by simp)
    simp only [total_append, total_cons, total_nil] at ht ⊢
    simp only [hidx, hget, hne, ne_eq, not_false_eq_true, true_and, ↓reduceIte]
    refine ⟨?_, ?_, ?_⟩
    · grind [BitVec.toNat_setWidth, BitVec.toNat_ofNat]
    · rw [← BitVec.ofNat_add]
      simp
    · grind

theorem addExtent_slot (h : inode.HasRuns runs)
    (hc : 0 < count) (hlt : start + count < 2 ^ 32) (ht : total runs + count < 2 ^ 16)
    (hnew : ∀ init s c, runs = init ++ [(s, c)] → s + c ≠ start) :
    (runs.length = 4 → inode.addExtent (BitVec.ofNat 32 start) (BitVec.ofNat 16 count) = (false, inode)) ∧
    (runs.length < 4 →
      ∃ inode', inode.addExtent (BitVec.ofNat 32 start) (BitVec.ofNat 16 count) = (true, inode') ∧
        inode'.HasRuns (runs ++ [(start, count)]) ∧
        inode' = { inode with extents := inode'.extents, lastExtentIdx := inode'.lastExtentIdx,
                              extentCount := inode'.extentCount }) := by
  obtain ⟨hm, hlog, hind⟩ := last_extent h hlt ht hnew
  have hfind := findIdx?_isEmpty (k := 4 - runs.length) 0 h.pos h.total_lt
  rw [← h.extents_eq] at hfind
  constructor
  · intro h4
    unfold Inode.addExtent
    simp only [hfind, h4]
    rw [if_neg hind, if_neg hm]
    rfl
  · intro h4
    unfold Inode.addExtent
    simp only [hfind, if_neg (show ¬ 4 - runs.length = 0 by omega), hlog]
    rw [if_neg hind, if_neg hm]
    refine ⟨_, rfl, ?_, rfl⟩
    refine ⟨by simp; omega, ?_, ?_, ?_, ?_, ?_, ?_, h.indirect_eq⟩
    · intro r hr
      simp only [List.mem_append, List.mem_singleton] at hr
      rcases hr with hr | rfl
      · exact h.pos r hr
      · exact hc
    · intro r hr
      simp only [List.mem_append, List.mem_singleton] at hr
      rcases hr with hr | rfl
      · exact h.phys r hr
      · exact hlt
    · simp only [total_append, total_cons, total_nil]
      omega
    · rw [Vector.toList_setIfInBounds, h.extents_eq, layout_last, List.set_append_right _ _ (by simp)]
      obtain ⟨k, hk⟩ : ∃ k, 4 - runs.length = k + 1 := ⟨4 - runs.length - 1, by omega⟩
      have hk' : 4 - (runs ++ [(start, count)]).length = k := by simp; omega
      rw [hk', hk]
      simp [List.replicate_succ]
    · simp only [h.count_eq, List.length_append, List.length_cons, List.length_nil]
      exact (BitVec.ofNat_add runs.length 1).symm
    · intro _
      simp

theorem Inode.HasRuns.addExtent_eq (h : inode.HasRuns runs) (hc : 0 < count) (hlt : start + count < 2 ^ 32)
    (ht : total runs + count < 2 ^ 16) :
    ((addRun runs start count).length = 5 ∧
      inode.addExtent (BitVec.ofNat 32 start) (BitVec.ofNat 16 count) = (false, inode)) ∨
    ((addRun runs start count).length ≤ 4 ∧
      ∃ inode', inode.addExtent (BitVec.ofNat 32 start) (BitVec.ofNat 16 count) = (true, inode') ∧
        inode'.HasRuns (addRun runs start count) ∧
        inode' = { inode with extents := inode'.extents, lastExtentIdx := inode'.lastExtentIdx,
                              extentCount := inode'.extentCount }) := by
  have hle := h.length_le
  by_cases hnew : ∀ init s c, runs = init ++ [(s, c)] → s + c ≠ start
  · have hadd : addRun runs start count = runs ++ [(start, count)] := by
      rcases eq_nil_or_append_singleton runs with rfl | ⟨init, s, c, rfl⟩
      · rfl
      · rw [addRun_append, if_neg (hnew init s c rfl)]
    rw [hadd]
    obtain ⟨hfull, hroom⟩ := addExtent_slot h hc hlt ht hnew
    rcases Nat.lt_or_ge runs.length 4 with h4 | h4
    · exact Or.inr ⟨by simp; omega, hroom h4⟩
    · exact Or.inl ⟨by simp; omega, hfull (by omega)⟩
  · simp only [ne_eq, not_forall, not_not, exists_prop] at hnew
    obtain ⟨init, s, c, rfl, rfl⟩ := hnew
    right
    rw [addRun_append, if_pos rfl]
    simp only [total_append, total_cons, total_nil] at ht
    exact ⟨by simpa using hle, addExtent_merge h hlt (by omega)⟩

/-! ### Calls -/

/-- A call of `add_extent`, with the runs of the calls so far that returned `true`. -/
def recordExtent (st : Inode × List (Nat × Nat)) (call : BitVec 32 × BitVec 16) : Inode × List (Nat × Nat) :=
  let result := st.1.addExtent call.1 call.2
  (result.2, if result.1 then st.2 ++ [(call.1.toNat, call.2.toNat)] else st.2)

theorem addExtent_of_false {start : BitVec 32} {count : BitVec 16} (h : (inode.addExtent start count).1 = false) :
    (inode.addExtent start count).2 = inode := by
  unfold Inode.addExtent at h ⊢
  dsimp only at h ⊢
  split at h
  · rw [if_pos ‹_›]
  · rw [if_neg ‹_›]
    split at h
    · cases h
    · rw [if_neg ‹_›]
      split at h
      · cases h
      · simp_all

/-- The runs of the inode have the blocks of the recorded runs, also where some of these were merged. -/
theorem hasRuns_recordExtent {st : Inode × List (Nat × Nat)} {call : BitVec 32 × BitVec 16}
    (h : ∃ rs, st.1.HasRuns rs ∧ blocksOf rs = blocksOf st.2) (hc : 1 ≤ call.2.toNat)
    (hlt : call.1.toNat + call.2.toNat < 2 ^ 32) (ht : total (recordExtent st call).2 ≤ 65535) :
    ∃ rs, (recordExtent st call).1.HasRuns rs ∧ blocksOf rs = blocksOf (recordExtent st call).2 := by
  obtain ⟨rs, hr, hb⟩ := h
  unfold recordExtent at ht ⊢
  dsimp only at ht ⊢
  cases hok : (st.1.addExtent call.1 call.2).1 with
  | false =>
    rw [addExtent_of_false hok]
    exact ⟨rs, hr, hb⟩
  | true =>
    have hlen : total rs = total st.2 := by
      rw [← length_blocksOf, hb, length_blocksOf]
    simp only [hok, if_true, total_append, total_cons, total_nil] at ht
    rcases hr.addExtent_eq hc hlt (by omega) with ⟨-, he⟩ | ⟨-, inode', he, hr', -⟩
    · simp_all
    · simp only [BitVec.ofNat_toNat, BitVec.setWidth_eq] at he
      rw [he]
      exact ⟨_, hr', by simp [blocksOf_addRun, hb]⟩

/-- Over the calls of `add_extent` on an inode without extents, blocks are looked up in the concatenation of the runs
added; a call that fails changes nothing. -/
theorem extents_concatenate (inode : Inode) (calls : List (BitVec 32 × BitVec 16))
    (hcalls : ∀ c ∈ calls, 1 ≤ c.2.toNat ∧ c.1.toNat + c.2.toNat < 2 ^ 32)
    (ht : total (calls.foldl recordExtent (inode.clearExtents, [])).2 ≤ 65535) :
    (∀ l : BitVec 16, (calls.foldl recordExtent (inode.clearExtents, [])).1.getPhysicalBlock l =
      (blocksOf (calls.foldl recordExtent (inode.clearExtents, [])).2)[l.toNat]?.map (BitVec.ofNat 32)) ∧
    ∀ (inode : Inode) (start : BitVec 32) (count : BitVec 16),
      (inode.addExtent start count).1 = false → (inode.addExtent start count).2 = inode := by
  refine ⟨fun l => ?_, fun _ _ _ => addExtent_of_false⟩
  have hruns : ∃ rs, (calls.foldl recordExtent (inode.clearExtents, [])).1.HasRuns rs ∧
      blocksOf rs = blocksOf (calls.foldl recordExtent (inode.clearExtents, [])).2 := by
    induction calls using List.reverseRecOn with
    | nil => exact ⟨[], inode.hasRuns_clearExtents, rfl⟩
    | append_singleton calls c ih =>
      rw [List.foldl_append, List.foldl_cons, List.foldl_nil] at ht ⊢
      obtain ⟨hc, hlt⟩ := hcalls c (by simp)
      refine hasRuns_recordExtent (ih (fun d hd => hcalls d (by simp [hd])) (Nat.le_trans ?_ ht)) hc hlt ht
      unfold recordExtent
      dsimp only
      split <;> simp
  obtain ⟨rs, hr, hb⟩ := hruns
  have hget := hr.getPhysicalBlock_eq l.isLt
  rwa [BitVec.ofNat_toNat, BitVec.setWidth_eq, hb] at hget

/-- The second run continues the first. -/
theorem extents_concatenate_merged :
    (Inode.new.clearExtents.addExtent 200 2).1 = true ∧ ∀ l : BitVec 16,
      ([(200, 2), (202, 1), (300, 1)].foldl recordExtent (Inode.new.clearExtents, [])).1.getPhysicalBlock l =
        ([200, 201, 202, 300] : List Nat)[l.toNat]?.map (BitVec.ofNat 32) :=
  ⟨by decide, (extents_concatenate Inode.new [(200, 2), (202, 1), (300, 1)] (by simp) (by decide)).1⟩

end AstralOS.Fs
