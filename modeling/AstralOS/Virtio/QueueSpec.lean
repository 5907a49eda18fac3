import AstralOS.Virtio.Virtqueue
import Mathlib.Tactic.IntervalCases

/-!
# What the calls of a queue do

One lemma for each read after each write of the page, and the specification of the calls of the driver: which descriptors
`alloc_desc` and `free_desc` mark, what `add_buf` writes, and what `get_used` frees.
-/

namespace AstralOS.Virtio

open ByteBlock
open Memory (Stop)

/-! ### Descriptors in a page -/

variable {m m' : ByteBlock} {i j lo hi : Nat}

theorem readDesc_congr (h : SameOn (16 * i) (16 * i + 16) m m') : readDesc m' i = readDesc m i := by
  have hpart : ∀ off w, off + w ≤ 16 → m'.load (16 * i + off) w = m.load (16 * i + off) w := by
    intro off w hle
    apply load_congr
    intro x h1 h2
    exact h x (by omega) (by omega)
  unfold readDesc
  rw [hpart 8 4 (by decide), hpart 12 2 (by decide), hpart 14 2 (by decide)]
  rw [show 16 * i = 16 * i + 0 from rfl, hpart 0 8 (by decide)]

theorem sameOn_writeDesc (d : VirtqDesc) (h : 16 * i + 16 ≤ lo ∨ hi ≤ 16 * i) : SameOn lo hi m (writeDesc m i d) := by
  refine SameOn.trans (SameOn.trans (SameOn.trans (sameOn_store ?_) (sameOn_store ?_)) (sameOn_store ?_)) (sameOn_store ?_)
  all_goals omega

theorem readDesc_writeDesc_of_ne (d : VirtqDesc) (h : i ≠ j) : readDesc (writeDesc m i d) j = readDesc m j := by
  apply readDesc_congr
  apply sameOn_writeDesc
  omega

theorem ofNat_mod (w : Nat) (v : BitVec w) (b : Nat) (h : 256 ^ b = 2 ^ w) :
    BitVec.ofNat w (v.toNat % 256 ^ b) = v := by
  rw [h, Nat.mod_eq_of_lt v.isLt, BitVec.ofNat_toNat, BitVec.setWidth_eq]

@[simp] theorem readDesc_writeDesc (m : ByteBlock) (i : Nat) (d : VirtqDesc) :
    readDesc (writeDesc m i d) i = d := by
  unfold readDesc writeDesc
  rw [load_store_of_apart (by omega), load_store_of_apart (by omega), load_store_of_apart (by omega), load_store,
    load_store_of_apart (by omega), load_store_of_apart (by omega), load_store, load_store_of_apart (by omega), load_store,
    load_store, ofNat_mod 64 _ 8 (by decide), ofNat_mod 32 _ 4 (by decide), ofNat_mod 16 _ 2 (by decide),
    ofNat_mod 16 _ 2 (by decide)]

namespace Virtqueue

/-! ### The layout of the page -/

theorem layout (q : Virtqueue) :
    0 < q.size ∧ q.size ∣ queueEntries ∧ q.availOffset = 16 * q.size ∧ q.availOffset + 6 + 2 * q.size ≤ q.usedOffset := by
  obtain ⟨⟨k, hk⟩, hle⟩ := q.sizePow
  have hoff := q.offsets
  have hk7 : k ≤ 7 := by
    by_contra hgt
    have : 2 ^ 8 ≤ 2 ^ k := Nat.pow_le_pow_right (by decide) (by omega)
    have h128 : queueEntries = 128 := rfl
    omega
  have hsize : q.size = 2 ^ k := hk
  rw [Prod.mk.injEq, Prod.mk.injEq] at hoff
  obtain ⟨-, ha, hused⟩ := hoff
  refine ⟨?_, ?_, ha.symm, ?_⟩
  · rw [hsize]
    exact Nat.two_pow_pos k
  · rw [hsize]
    exact Nat.pow_dvd_pow 2 hk7
  · rw [← ha, ← hused]
    unfold sizeRequirements size
    rw [hk]
    interval_cases k <;> decide

theorem size_le (q : Virtqueue) : q.size ≤ queueEntries := q.sizePow.2

/-! ### Marks -/

/-- The queues differ in their marks only. -/
def SameBut (q q' : Virtqueue) : Prop := ∃ f, q' = { q with free := f }

variable {q q' q'' : Virtqueue}

theorem SameBut.refl (q : Virtqueue) : SameBut q q := ⟨q.free, rfl⟩

theorem SameBut.trans (h : SameBut q q') (h' : SameBut q' q'') : SameBut q q'' := by
  obtain ⟨f, rfl⟩ := h
  obtain ⟨g, rfl⟩ := h'
  exact ⟨g, rfl⟩

theorem SameBut.page (h : SameBut q q') : q'.page = q.page := by
  obtain ⟨f, rfl⟩ := h
  rfl

theorem SameBut.size (h : SameBut q q') : q'.size = q.size := by
  obtain ⟨f, rfl⟩ := h
  rfl

theorem isFree_set {i : Nat} (hi : i < queueEntries) (b : Bool) (j : Nat) :
    isFree { q with free := q.free.setIfInBounds i b } j = if i = j then b else q.isFree j := by
  unfold isFree
  by_cases hij : i = j
  · subst hij
    simp [Vector.getD, hi]
  · by_cases hj : j < queueEntries
    · simp [Vector.getD, hj, hij]
    · simp [Vector.getD, hj, hij]

theorem toNat_index {i : Nat} (hi : i < q.size) : (BitVec.ofNat 16 i).toNat = i := by
  have := q.size_le
  have h128 : queueEntries = 128 := rfl
  rw [BitVec.toNat_ofNat]
  omega

theorem allocDesc_spec (q : Virtqueue) :
    (∃ idx q', q.allocDesc = (some idx, q') ∧ SameBut q q' ∧ idx.toNat < q.size ∧ q.isFree idx.toNat = true ∧
      ∀ j, q'.isFree j = (q.isFree j && decide (idx.toNat ≠ j))) ∨
    (q.allocDesc = (none, q) ∧ ∀ i, i < q.size → q.isFree i = false) := by
  unfold allocDesc
  cases hfind : (List.range q.size).find? q.isFree with
  | none =>
    simp_all
  | some i =>
    have hi := List.mem_range.1 (List.mem_of_find?_eq_some hfind)
    have hfree := List.find?_some hfind
    have hidx := toNat_index hi
    refine Or.inl ⟨_, _, rfl, ⟨_, rfl⟩, by rwa [hidx], by rwa [hidx], fun j => ?_⟩
    rw [isFree_set (Nat.lt_of_lt_of_le hi q.size_le), hidx]
    by_cases hij : i = j
    · simp [hij]
    · simp [hij]

theorem sameBut_freeDesc (q : Virtqueue) (idx : BitVec 16) : SameBut q (q.freeDesc idx) := by
  unfold freeDesc
  by_cases h : idx < q.queueSize
  · rw [if_pos h]
    exact ⟨_, rfl⟩
  · rw [if_neg h]
    exact SameBut.refl q

variable {idx : BitVec 16}

theorem isFree_freeDesc (h : idx.toNat < q.size) (j : Nat) :
    (q.freeDesc idx).isFree j = (q.isFree j || decide (idx.toNat = j)) := by
  have hlt : idx < q.queueSize := h
  unfold freeDesc
  rw [if_pos hlt, isFree_set (Nat.lt_of_lt_of_le h q.size_le)]
  by_cases hij : idx.toNat = j
  · simp [hij]
  · simp [hij]

def numbers (l : List (BitVec 16)) : List Nat := l.map BitVec.toNat

@[simp] theorem numbers_nil : numbers [] = [] := rfl

@[simp] theorem numbers_cons (idx : BitVec 16) (l : List (BitVec 16)) : numbers (idx :: l) = idx.toNat :: numbers l := rfl

@[simp] theorem numbers_append (l l' : List (BitVec 16)) : numbers (l ++ l') = numbers l ++ numbers l' :=
  List.map_append

theorem sameBut_foldl_freeDesc (l : List (BitVec 16)) (q : Virtqueue) : SameBut q (l.foldl freeDesc q) := by
  induction l generalizing q with
  | nil => exact SameBut.refl q
  | cons idx l ih => exact (sameBut_freeDesc q idx).trans (ih _)

theorem isFree_foldl_freeDesc {l : List (BitVec 16)} (h : ∀ i ∈ numbers l, i < q.size) (j : Nat) :
    (l.foldl freeDesc q).isFree j = (q.isFree j || decide (j ∈ numbers l)) := by
  induction l generalizing q with
  | nil => simp
  | cons idx l ih =>
    have hidx := h idx.toNat (by simp)
    rw [List.foldl_cons, ih, isFree_freeDesc hidx]
    · simp only [numbers_cons, List.mem_cons, Bool.decide_or, eq_comm, Bool.or_assoc]
    · intro i hi
      rw [(sameBut_freeDesc q idx).size]
      exact h i (by simp [hi])

/-- The loop of `add_buf` takes so many different free descriptors, or leaves the marks as they were but for those it is
to free. -/
theorem allocChain_spec (k : Nat) (q : Virtqueue) {indices : List (BitVec 16)} (h : ∀ i ∈ numbers indices, i < q.size) :
    (∃ rest q', allocChain k q indices = (some (indices ++ rest), q') ∧ SameBut q q' ∧ rest.length = k ∧
      (numbers rest).Nodup ∧ (∀ i ∈ numbers rest, i < q.size ∧ q.isFree i = true) ∧
      ∀ j, q'.isFree j = (q.isFree j && decide (j ∉ numbers rest))) ∨
    ∃ q', allocChain k q indices = (none, q') ∧ SameBut q q' ∧
      ∀ j, q'.isFree j = (q.isFree j || decide (j ∈ numbers indices)) := by
  induction k generalizing q indices with
  | zero => exact Or.inl ⟨[], q, by simp [allocChain], SameBut.refl q, rfl, by simp, by simp, by simp⟩
  | succ k ih =>
    unfold allocChain
    rcases q.allocDesc_spec with ⟨idx, q1, heq, hsame, hlt, hfree, hm⟩ | ⟨heq, -⟩
    · rw [heq]
      dsimp only
      have hs : ∀ i ∈ numbers (indices ++ [idx]), i < q1.size := by
        intro i hi
        rw [hsame.size]
        rw [numbers_append, List.mem_append] at hi
        rcases hi with hi | hi
        · exact h i hi
        · rw [List.mem_singleton.1 hi]
          exact hlt
      rcases ih q1 hs with ⟨rest, q', heq', hsame', hlen, hnd, hall, hm'⟩ | ⟨q', heq', hsame', hm'⟩
      · refine Or.inl ⟨idx :: rest, q', ?_, hsame.trans hsame', by simp [hlen], ?_, ?_, ?_⟩
        · rw [heq', List.append_assoc]
          rfl
        · grind [numbers_cons, List.nodup_cons]
        · intro i hi
          rw [numbers_cons, List.mem_cons] at hi
          rcases hi with rfl | hi
          · exact ⟨hlt, hfree⟩
          · obtain ⟨h1, h2⟩ := hall i hi
            rw [hm, Bool.and_eq_true] at h2
            exact ⟨hsame.size ▸ h1, h2.1⟩
        · simp [hm', hm, numbers_cons, List.mem_cons, not_or, Bool.decide_and, Bool.and_assoc, ne_eq, eq_comm]
      · refine Or.inr ⟨q', heq', hsame.trans hsame', fun j => ?_⟩
        rw [hm', hm, numbers_append]
        by_cases hj : idx.toNat = j
        · subst hj
          simp [hfree]
        · simp [hj, Ne.symm hj]
    · rw [heq]
      exact Or.inr ⟨_, rfl, sameBut_foldl_freeDesc indices q, isFree_foldl_freeDesc h⟩

/-! ### Chains in the table -/

theorem hasNext_descOf (b : Buffer) (next : Option (BitVec 16)) : (descOf b next).hasNext = next.isSome := by
  unfold descOf VirtqDesc.hasNext
  dsimp only
  cases b.writable <;> cases next.isSome <;> decide

variable {bs : List Buffer} {is : List (BitVec 16)} {n : Nat}

theorem sameOn_writeChain {hi : Nat} (h : ∀ i ∈ numbers is, i < n) : SameOn (16 * n) hi m (writeChain m is bs) := by
  induction is generalizing m bs with
  | nil => exact fun _ _ _ => rfl
  | cons idx is ih =>
    cases bs with
    | nil => exact fun _ _ _ => rfl
    | cons b bs =>
      have hidx := h idx.toNat (by simp)
      exact (sameOn_writeDesc _ (by omega)).trans (ih fun i hi => h i (by simp [hi]))

theorem readDesc_writeChain (h : j ∉ numbers is) : readDesc (writeChain m is bs) j = readDesc m j := by
  induction is generalizing m bs with
  | nil => rfl
  | cons idx is ih =>
    cases bs with
    | nil => rfl
    | cons b bs =>
      rw [numbers_cons, List.mem_cons, not_or] at h
      rw [writeChain, ih h.2, readDesc_writeDesc_of_ne _ (Ne.symm h.1)]

def Spells (m : ByteBlock) : List (BitVec 16) → List Buffer → Prop
  | [], [] => True
  | idx :: is, b :: bs => readDesc m idx.toNat = descOf b is.head? ∧ Spells m is bs
  | _, _ => False

theorem Spells.congr (h : Spells m is bs)
    (hsame : ∀ i ∈ numbers is, readDesc m' i = readDesc m i) : Spells m' is bs := by
  induction is generalizing bs with
  | nil =>
    cases bs with
    | nil => trivial
    | cons b bs => exact h.elim
  | cons idx is ih =>
    cases bs with
    | nil => exact h.elim
    | cons b bs =>
      refine ⟨?_, ih h.2 fun i hi => hsame i (by simp [hi])⟩
      rw [hsame idx.toNat (by simp)]
      exact h.1

theorem spells_writeChain (hnd : (numbers is).Nodup)
    (hlen : is.length = bs.length) : Spells (writeChain m is bs) is bs := by
  induction is generalizing m bs with
  | nil =>
    cases bs with
    | nil => trivial
    | cons b bs => simp at hlen
  | cons idx is ih =>
    cases bs with
    | nil => simp at hlen
    | cons b bs =>
      rw [numbers_cons, List.nodup_cons] at hnd
      refine ⟨?_, ih hnd.2 (by simpa using hlen)⟩
      rw [writeChain, readDesc_writeChain hnd.1, readDesc_writeDesc]

def Follows (m : ByteBlock) : List (BitVec 16) → Prop
  | [] => True
  | idx :: is =>
    (readDesc m idx.toNat).hasNext = is.head?.isSome ∧ (∀ j ∈ is.head?, (readDesc m idx.toNat).next = j) ∧
      Follows m is

theorem Spells.follows (h : Spells m is bs) : Follows m is := by
  induction is generalizing bs with
  | nil => trivial
  | cons idx is ih =>
    cases bs with
    | nil => exact h.elim
    | cons b bs =>
      refine ⟨?_, ?_, ih h.2⟩
      · rw [h.1, hasNext_descOf]
      · intro j hj
        rw [h.1, Option.mem_def.1 hj]
        rfl

theorem freeChain_of_follows {fuel : Nat}
    (h : Follows q.page (idx :: is)) (hlt : ∀ i ∈ numbers (idx :: is), i < queueEntries) (hfuel : is.length < fuel) :
    freeChain fuel q idx = some ((idx :: is).foldl freeDesc q) := by
  induction is generalizing q idx fuel with
  | nil =>
    obtain ⟨fuel, rfl⟩ : ∃ k, fuel = k + 1 := ⟨fuel - 1, by omega⟩
    obtain ⟨hnext, -, -⟩ := h
    simp_all [freeChain]
  | cons j is ih =>
    obtain ⟨fuel, rfl⟩ : ∃ k, fuel = k + 1 := ⟨fuel - 1, by omega⟩
    obtain ⟨hnext, hj, hrest⟩ := h
    simp_all [freeChain, hj j rfl, Option.isSome_some, List.foldl_cons, numbers_cons,
      (sameBut_freeDesc q idx).page]

/-! ### Chains end -/

/-- Following the links from a descriptor of the table stays in it and comes to an end. -/
def Ends (n : Nat) (m : ByteBlock) (idx : BitVec 16) : Prop :=
  ∃ is, Follows m (idx :: is) ∧ ∀ i ∈ numbers (idx :: is), i < n

theorem follows_unique {js : List (BitVec 16)} (hi : Follows m (idx :: is)) (hj : Follows m (idx :: js)) : is = js := by
  induction is generalizing idx js with
  | nil =>
    cases js with
    | nil => rfl
    | cons j js =>
      have := hi.1.symm.trans hj.1
      simp at this
  | cons i is ih =>
    cases js with
    | nil =>
      have := hi.1.symm.trans hj.1
      simp at this
    | cons j js =>
      have hij : i = j := (hi.2.1 i rfl).symm.trans (hj.2.1 j rfl)
      subst hij
      rw [ih hi.2.2 hj.2.2]

theorem follows_append {js : List (BitVec 16)} (h : Follows m (is ++ js)) : Follows m js := by
  induction is with
  | nil => exact h
  | cons i is ih => exact ih h.2.2

theorem nodup_of_follows (h : Follows m is) : is.Nodup := by
  induction is with
  | nil => exact List.nodup_nil
  | cons idx is ih =>
    refine List.nodup_cons.2 ⟨fun hmem => ?_, ih h.2.2⟩
    obtain ⟨pre, post, rfl⟩ := List.append_of_mem hmem
    have hloop : pre ++ idx :: post = post := follows_unique h (@follows_append m (idx :: pre) _ h)
    have := congrArg List.length hloop
    simp at this
    omega

theorem nodup_numbers (h : is.Nodup) : (numbers is).Nodup :=
  h.map fun _ _ hxy => BitVec.eq_of_toNat_eq hxy

theorem length_le_of_nodup {l : List Nat} (h : l.Nodup) (hlt : ∀ i ∈ l, i < n) : l.length ≤ n := by
  have hsub : l ⊆ List.range n := fun i hi => List.mem_range.2 (hlt i hi)
  simpa using (List.subperm_of_subset h hsub).length_le

theorem mem_numbers : idx.toNat ∈ numbers is ↔ idx ∈ is := by
  constructor
  · intro h
    obtain ⟨k, hk, hkn⟩ := List.mem_map.1 h
    exact BitVec.eq_of_toNat_eq hkn ▸ hk
  · exact List.mem_map_of_mem

theorem ends_of_last (hlt : idx.toNat < n) (hnext : (readDesc m idx.toNat).hasNext = false) : Ends n m idx :=
  ⟨[], ⟨hnext, by simp, trivial⟩, by simpa using hlt⟩

theorem ends_of_next (hlt : idx.toNat < n) (hnext : (readDesc m idx.toNat).hasNext = true)
    (h : Ends n m (readDesc m idx.toNat).next) : Ends n m idx := by
  obtain ⟨is, his, hislt⟩ := h
  refine ⟨_ :: is, ⟨hnext, ?_, his⟩, ?_⟩
  · intro j hj
    exact Option.some.inj hj
  · intro i hi
    rw [numbers_cons, List.mem_cons] at hi
    rcases hi with rfl | hi
    · exact hlt
    · exact hislt i hi

theorem ends_of_mem (hlen : is.length = bs.length)
    (hlt : ∀ i ∈ numbers is, i < n) (hidx : idx ∈ is) : Ends n (writeChain m is bs) idx := by
  induction is generalizing m bs idx with
  | nil => cases hidx
  | cons i is ih =>
    cases bs with
    | nil => simp at hlen
    | cons b bs =>
      have hrest : ∀ {j}, j ∈ is → Ends n (writeChain m (i :: is) (b :: bs)) j :=
        ih (by simpa using hlen) fun k hk => hlt k (by simp [hk])
      by_cases hmem : idx ∈ is
      · exact hrest hmem
      · obtain rfl : idx = i := by simpa [hmem] using hidx
        have hdesc : readDesc (writeChain m (idx :: is) (b :: bs)) idx.toNat = descOf b is.head? := by
          rw [writeChain, readDesc_writeChain fun hin => hmem (mem_numbers.1 hin), readDesc_writeDesc]
        have hid : idx.toNat < n := hlt _ (by simp)
        cases is with
        | nil =>
          apply ends_of_last hid
          rw [hdesc, hasNext_descOf]
          rfl
        | cons j is =>
          apply ends_of_next hid
          · rw [hdesc, hasNext_descOf]
            rfl
          · rw [hdesc]
            exact hrest List.mem_cons_self

theorem ends_writeChain (hlen : is.length = bs.length)
    (hlt : ∀ i ∈ numbers is, i < n) (h : Ends n m idx) : Ends n (writeChain m is bs) idx := by
  obtain ⟨js, hjs, hjslt⟩ := h
  induction js generalizing idx with
  | nil =>
    by_cases hmem : idx ∈ is
    · exact ends_of_mem hlen hlt hmem
    · apply ends_of_last (hjslt _ (by simp))
      rw [readDesc_writeChain fun hin => hmem (mem_numbers.1 hin)]
      exact hjs.1
  | cons j js ih =>
    by_cases hmem : idx ∈ is
    · exact ends_of_mem hlen hlt hmem
    · have hdesc : readDesc (writeChain m is bs) idx.toNat = readDesc m idx.toNat :=
        readDesc_writeChain fun hin => hmem (mem_numbers.1 hin)
      apply ends_of_next (hjslt _ (by simp))
      · rw [hdesc]
        exact hjs.1
      · rw [hdesc, hjs.2.1 j rfl]
        exact ih hjs.2.2 fun i hi => hjslt i (by rw [numbers_cons]; exact List.mem_cons_of_mem _ hi)

theorem Ends.congr (h : Ends n m idx) (hsame : ∀ i, i < n → readDesc m' i = readDesc m i) : Ends n m' idx := by
  obtain ⟨js, hjs, hjslt⟩ := h
  induction js generalizing idx with
  | nil =>
    have hlt := hjslt idx.toNat (by simp)
    apply ends_of_last hlt
    rw [hsame _ hlt]
    exact hjs.1
  | cons j js ih =>
    have hlt := hjslt idx.toNat (by simp)
    apply ends_of_next hlt
    · rw [hsame _ hlt]
      exact hjs.1
    · rw [hsame _ hlt, hjs.2.1 j rfl]
      exact ih hjs.2.2 fun i hi => hjslt i (by rw [numbers_cons]; exact List.mem_cons_of_mem _ hi)

theorem exists_freeChain (h : Ends q.size q.page idx) :
    ∃ is, Follows q.page (idx :: is) ∧ (∀ i ∈ numbers (idx :: is), i < q.size) ∧
      freeChain walkFuel q idx = some ((idx :: is).foldl freeDesc q) := by
  obtain ⟨is, his, hlt⟩ := h
  have hle := q.size_le
  have hlen : (numbers (idx :: is)).length ≤ q.size := length_le_of_nodup (nodup_numbers (nodup_of_follows his)) hlt
  have hfuel : is.length < walkFuel := by
    have h128 : queueEntries = 128 := rfl
    have hw : walkFuel = 65536 := rfl
    grind [numbers_cons, List.length_cons, numbers, List.length_map]
  exact ⟨is, his, hlt, freeChain_of_follows his (fun i hi => Nat.lt_of_lt_of_le (hlt i hi) hle) hfuel⟩

/-! ### The rings -/

def availSlot (q : Virtqueue) : Nat := q.nextAvailIdx.toNat % queueEntries

theorem sameOn_publish (head : BitVec 16)
    (h : hi ≤ q.availOffset + 2 ∨ q.availOffset + 4 + 2 * q.availSlot + 2 ≤ lo) :
    SameOn lo hi q.page (q.publish head).page := by
  unfold publish availSlot at *
  exact (sameOn_store (by omega)).trans (sameOn_store (by omega))

@[simp] theorem availIdx_publish (q : Virtqueue) (head : BitVec 16) : (q.publish head).availIdx = q.availIdx + 1 := by
  unfold publish availIdx
  rw [load_store, ofNat_mod 16 _ 2 (by decide), load_store_of_apart (by omega)]

theorem availRing_publish (q : Virtqueue) (head : BitVec 16) (slot : Nat) :
    (q.publish head).availRing slot = if slot = q.availSlot then head else q.availRing slot := by
  unfold publish availRing
  dsimp only
  rw [load_store_of_apart (by omega)]
  by_cases h : slot = q.availSlot
  · rw [if_pos h, h]
    unfold availSlot
    rw [load_store, ofNat_mod 16 _ 2 (by decide)]
  · rw [if_neg h]
    unfold availSlot at h
    rw [load_store_of_apart (by omega)]

theorem usedIdx_congr (hoff : q'.usedOffset = q.usedOffset) (h : ∀ hi, SameOn q.usedOffset hi q.page q'.page) :
    q'.usedIdx = q.usedIdx := by
  unfold usedIdx
  rw [hoff, load_congr fun x h1 h2 => h (x + 1) x (by omega) (by omega)]

theorem usedRing_congr (hoff : q'.usedOffset = q.usedOffset) (h : ∀ hi, SameOn q.usedOffset hi q.page q'.page)
    (slot : Nat) : q'.usedRing slot = q.usedRing slot := by
  unfold usedRing
  rw [hoff, load_congr fun x h1 h2 => h (x + 1) x (by omega) (by omega),
    load_congr fun x h1 h2 => h (x + 1) x (by omega) (by omega)]

theorem availIdx_congr (hoff : q'.availOffset = q.availOffset)
    (h : SameOn q.availOffset (q.availOffset + 4) q.page q'.page) : q'.availIdx = q.availIdx := by
  unfold availIdx
  rw [hoff, load_congr fun x h1 h2 => h x (by omega) (by omega)]

theorem availRing_congr (hoff : q'.availOffset = q.availOffset) {slot : Nat} (hslot : slot < q.size)
    (h : SameOn q.availOffset (q.availOffset + 4 + 2 * q.size) q.page q'.page) :
    q'.availRing slot = q.availRing slot := by
  unfold availRing
  rw [hoff, load_congr fun x h1 h2 => h x (by omega) (by omega)]

/-! ### `add_buf` -/

/-- `add_buf` takes as many different free descriptors as it needs behind the head, writes the chain and publishes it; or
it fails and leaves the page and all marks as they were. -/
theorem addBuf_spec (q : Virtqueue) {head : BitVec 16} (hhead : head.toNat < q.size) (buffers : List Buffer) :
    (∃ rest q1, q.addBuf head buffers =
        (.ok (), publish { q1 with page := writeChain q1.page (head :: rest) buffers } head) ∧ SameBut q q1 ∧
      (head :: rest).length = buffers.length ∧ (numbers rest).Nodup ∧
      (∀ i ∈ numbers rest, i < q.size ∧ q.isFree i = true) ∧
      ∀ j, q1.isFree j = (q.isFree j && decide (j ∉ numbers rest))) ∨
    ∃ msg q1, q.addBuf head buffers = (.error (.err msg), q1) ∧ SameBut q q1 ∧ ∀ j, q1.isFree j = q.isFree j := by
  unfold addBuf
  by_cases hnil : buffers = []
  · rw [if_pos hnil]
    exact Or.inr ⟨_, q, rfl, SameBut.refl q, fun _ => rfl⟩
  · rw [if_neg hnil]
    by_cases hv : ∀ b ∈ buffers, Buffer.Valid b
    · rw [if_neg (not_not.2 hv)]
      have hpos := List.length_pos_iff.2 hnil
      rcases allocChain_spec (buffers.length - 1) q (show ∀ i ∈ numbers [], i < q.size by simp) with
        ⟨rest, q1, heq, hsame, hlen, hnd, hall, hm⟩ | ⟨q1, heq, hsame, hm⟩
      · rw [heq, List.nil_append]
        dsimp only
        have hlt : (head :: rest).all fun idx => idx.toNat < queueEntries := by
          rw [List.all_eq_true]
          intro idx hidx
          rw [decide_eq_true_eq]
          have hle := q.size_le
          rcases List.mem_cons.1 hidx with rfl | hidx
          · omega
          · have := (hall idx.toNat (mem_numbers.2 hidx)).1
            omega
        rw [if_pos hlt]
        exact Or.inl ⟨rest, q1, rfl, hsame, by simp [hlen]; omega, hnd, hall, hm⟩
      · rw [heq]
        exact Or.inr ⟨_, q1, rfl, hsame, fun j => by simp [hm]⟩
    · rw [if_pos hv]
      exact Or.inr ⟨_, q, rfl, SameBut.refl q, fun _ => rfl⟩

/-- What `add_buf` does with the head that `alloc_desc` has just given: it publishes a chain of different descriptors that
were free; or it fails, and with the head freed again all marks are as they were. -/
theorem request_spec {head : BitVec 16} {q1 : Virtqueue} (ha : q.allocDesc = (some head, q1)) (buffers : List Buffer) :
    (∃ rest q2, q1.addBuf head buffers =
        (.ok (), publish { q2 with page := writeChain q.page (head :: rest) buffers } head) ∧ SameBut q q2 ∧
      (head :: rest).length = buffers.length ∧ (head :: rest).Nodup ∧
      (∀ idx ∈ head :: rest, idx.toNat < q.size ∧ q.isFree idx.toNat = true) ∧
      ∀ idx : BitVec 16, q2.isFree idx.toNat = (q.isFree idx.toNat && decide (idx ∉ head :: rest))) ∨
    ∃ msg q2, q1.addBuf head buffers = (.error (.err msg), q2) ∧ SameBut q q2 ∧ (∀ j, q2.isFree j = q1.isFree j) ∧
      ∀ j, (q2.freeDesc head).isFree j = q.isFree j := by
  rcases q.allocDesc_spec with ⟨idx, q', heq, hsame1, hlt, hfree, hm1⟩ | ⟨heq, -⟩
  · rw [ha, Prod.mk.injEq, Option.some.injEq] at heq
    obtain ⟨rfl, rfl⟩ := heq
    have hlt1 : head.toNat < q1.size := hsame1.size.symm ▸ hlt
    rcases q1.addBuf_spec hlt1 buffers with
      ⟨rest, q2, hadd, hsame2, hlen, hnd, hrest, hm2⟩ | ⟨msg, q2, hadd, hsame2, hm2⟩
    · have hall : ∀ idx ∈ rest, idx.toNat < q.size ∧ q.isFree idx.toNat = true ∧ head ≠ idx := by
        intro idx hidx
        obtain ⟨h1, h2⟩ := hrest _ (mem_numbers.2 hidx)
        rw [hm1, Bool.and_eq_true, decide_eq_true_eq] at h2
        exact ⟨hsame1.size ▸ h1, h2.1, fun heq => h2.2 (congrArg BitVec.toNat heq)⟩
      refine Or.inl ⟨rest, q2, ?_, hsame1.trans hsame2, hlen, ?_, ?_, ?_⟩
      · rw [hadd, hsame2.page, hsame1.page]
      · exact List.nodup_cons.2 ⟨fun hmem => (hall head hmem).2.2 rfl, List.Nodup.of_map _ hnd⟩
      · intro idx hidx
        rcases List.mem_cons.1 hidx with rfl | hidx
        · exact ⟨hlt, hfree⟩
        · exact ⟨(hall idx hidx).1, (hall idx hidx).2.1⟩
      · intro idx
        rw [hm2, hm1, Bool.and_assoc, ← Bool.decide_and]
        congr 2
        rw [mem_numbers, List.mem_cons, not_or, ne_eq, BitVec.toNat_inj, @eq_comm _ head idx]
    · refine Or.inr ⟨msg, q2, hadd, hsame1.trans hsame2, hm2, fun j => ?_⟩
      rw [isFree_freeDesc (hsame2.size.symm ▸ hlt1), hm2, hm1]
      by_cases hj : head.toNat = j
      · subst hj
        simp [hfree]
      · simp [hj]
  · rw [ha] at heq
    cases heq

theorem readDesc_publish (head : BitVec 16) (hi : i < q.size) :
    readDesc (q.publish head).page i = readDesc q.page i := by
  obtain ⟨-, -, ha, -⟩ := q.layout
  exact readDesc_congr (sameOn_publish head (Or.inl (by omega)))

/-! ### `new` -/

theorem load_newPage (page : ByteBlock) {a u off w v : Nat} (hn : n ≤ queueEntries) (ha : a = 16 * n)
    (hu : a + 6 + 2 * n ≤ u)
    (h : off + w ≤ 16 * n ∨ a + 2 ≤ off ∧ off + w ≤ a + 6 ∨ u ≤ off ∧ off + w ≤ u + 8) :
    ByteBlock.load ((((page.zero 0 (16 * queueEntries)).zero a (6 + 2 * queueEntries)).zero u
      (8 + 8 * queueEntries)).store a 2 v) off w = 0 := by
  apply load_eq_zero
  intro x h1 h2
  rw [sameOn_store (show a + 2 ≤ x ∨ x + 1 ≤ a by omega) x (Nat.le_refl x) (by omega)]
  simp [ByteBlock.zero]
  omega

theorem new_spec {page : ByteBlock} {queueSize : BitVec 16} (h : new page queueSize = .ok q) :
    q.queueSize = queueSize ∧ q.lastUsedIdx = 0 ∧ q.nextAvailIdx = 0 ∧ q.availIdx = 0 ∧ q.usedIdx = 0 ∧
      (∀ i, i < q.size → (readDesc q.page i).flags = 0) ∧ ∀ j, q.isFree j = decide (j < q.size) := by
  obtain ⟨-, -, ha, hu⟩ := q.layout
  have hn := q.size_le
  unfold new at h
  split at h
  case isFalse => cases h
  case isTrue hsize =>
    dsimp only at h
    split at h
    · cases h
    · cases h
      change queueSize.toNat ≤ queueEntries at hn
      change (sizeRequirements queueSize).2.1 = 16 * queueSize.toNat at ha
      change (sizeRequirements queueSize).2.1 + 6 + 2 * queueSize.toNat ≤ (sizeRequirements queueSize).2.2 at hu
      have hload := fun off w => @load_newPage _ page _ _ off w availFNoInterrupt.toNat hn ha hu
      refine ⟨rfl, rfl, rfl, ?_, ?_, ?_, ?_⟩
      · exact congrArg (BitVec.ofNat 16) (hload ((sizeRequirements queueSize).2.1 + 2) 2 (by omega))
      · exact congrArg (BitVec.ofNat 16) (hload ((sizeRequirements queueSize).2.2 + 2) 2 (by omega))
      · intro i hi
        change i < queueSize.toNat at hi
        exact congrArg (BitVec.ofNat 16) (hload (16 * i + 12) 2 (by omega))
      · intro j
        unfold isFree size
        by_cases hj : j < queueEntries
        · simp [Vector.getD, hj]
        · grind [Vector.getD]

/-! ### `get_used` -/

def usedEntry (q : Virtqueue) (slot : Nat) : BitVec 16 × BitVec 32 :=
  ((q.usedRing slot).id.setWidth 16, (q.usedRing slot).len)

theorem getUsed_of_eq (h : q.lastUsedIdx = q.usedIdx) : q.getUsed = some (none, q) := if_pos h

theorem getUsed_spec (hne : q.lastUsedIdx ≠ q.usedIdx) {r : BitVec 16 × BitVec 32}
    (hr : q.usedEntry (q.lastUsedIdx.toNat % queueEntries) = r) (h : Ends q.size q.page r.1) :
    ∃ is q', q.getUsed = some (some r, q') ∧ SameBut { q with lastUsedIdx := q.lastUsedIdx + 1 } q' ∧
      Follows q.page (r.1 :: is) ∧ (∀ i ∈ numbers (r.1 :: is), i < q.size) ∧
      ∀ j, q'.isFree j = (q.isFree j || decide (j ∈ numbers (r.1 :: is))) := by
  subst hr
  obtain ⟨is, hf, hlt, hwalk⟩ := exists_freeChain (q := { q with lastUsedIdx := q.lastUsedIdx + 1 }) h
  refine ⟨is, _, ?_, sameBut_foldl_freeDesc _ _, hf, hlt, isFree_foldl_freeDesc hlt⟩
  unfold getUsed
  rw [if_neg hne]
  change (freeChain walkFuel _ (q.usedEntry _).1).map _ = _
  rw [hwalk]
  rfl

end Virtqueue

end AstralOS.Virtio
