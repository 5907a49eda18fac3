import AstralOS.Memory.Paging

/-!
# Address spaces

What the page table functions do to the tables of an address space.  `Space` says that the labelled frames form a tree of
tables and that none of them is free; `Grown` relates the states before and after a call: labels are kept, new labels go
to frames that were free, and only labelled frames are written.  The specifications hold for every outcome of a call:
`nextTable_spec` for one level, `map_spec` and `mapExecutable_spec` for the two ways to map a page, and
`allocateZeroed_spec` for a frame of data.
-/

namespace AstralOS.Memory

open X86 (Role Tree lookup frameOf indices)
open PageTableEntry (isPresent physicalAddress setAddress)
open Function Fallible

variable {dom : Fin 512 → Prop} {role role' role'' : Nat → Option Role} {s s' s'' : Phys} {p : PhysAddr}

theorem ends_okOr_bind {α β : Type} {msg : String} {o : Option α} {f : α → PhysM β} {Q : β → Phys → Prop}
    {E : Stop → Phys → Prop} (hsome : ∀ a, o = some a → Ends (f a) s Q E) (hnone : o = none → E (.err msg) s) :
    Ends (okOr msg o >>= f) s Q E := by
  cases o with
  | none => exact ends_bind (ends_throw (hnone rfl))
  | some a => exact ends_bind (ends_pure (hsome a rfl))

/-! ### New frames -/

theorem fill_frame (m : ByteMem) (p : PhysAddr) (a : BitVec 64) :
    m.fill p.addr pageSize 0 a = if frameOf a = p.frame then 0 else m a := by
  have hp := p.toNat_eq
  have hsize : pageSize = 4096 := rfl
  rw [hsize] at hp
  have hiff : (a - p.addr).toNat < pageSize ↔ frameOf a = p.frame := by
    unfold frameOf
    rw [BitVec.toNat_sub, hp, hsize]
    omega
  unfold ByteMem.fill
  by_cases h : frameOf a = p.frame
  · rw [if_pos (hiff.2 h), if_pos h]
  · rw [if_neg (fun hlt => h (hiff.1 hlt)), if_neg h]

theorem entry_fill_self (m : ByteMem) (p : PhysAddr) (i : Fin 512) :
    X86.entry (m.fill p.addr pageSize 0) p.frame i = 0 := by
  have hzero : X86.entry (m.fill p.addr pageSize 0) p.frame i = X86.entry (fun _ => 0) p.frame i :=
    X86.entry_congr p.frame_lt (fun a ha => by rw [fill_frame, if_pos ha]) i
  simp_all [X86.entry, ByteMem.read64, hzero]

theorem entry_fill_of_ne (m : ByteMem) {f : Nat} (hf : f < 2 ^ 40) (hne : f ≠ p.frame) (i : Fin 512) :
    X86.entry (m.fill p.addr pageSize 0) f i = X86.entry m f i :=
  X86.entry_congr hf (fun a ha => by rw [fill_frame, if_neg (by rw [ha]; exact hne)]) i

/-- The frame `p` was free and is now taken; no other frame is. -/
structure Took (s : Phys) (p : PhysAddr) (s' : Phys) : Prop where
  free : s.frames.Free p.frame
  rest : ∀ f, s'.frames.Free f ↔ s.frames.Free f ∧ f ≠ p.frame
  avail : s.frames.avail = s'.frames.avail + 1

/-- The new frame is full of zeros, and nothing else is written. -/
structure Taken (s : Phys) (p : PhysAddr) (s' : Phys) : Prop extends Took s p s' where
  mem : s'.mem = s.mem.fill p.addr pageSize 0

/-- There was no free frame, and nothing has changed. -/
structure Exhausted (s s' : Phys) : Prop where
  mem : s'.mem = s.mem
  rest : ∀ f, s'.frames.Free f ↔ s.frames.Free f
  avail : s.frames.avail = 0
  avail' : s'.frames.avail = 0

theorem allocateFrame_ends (s : Phys) :
    Ends allocateFrame s (fun r s' => r = s.frames.allocate.1 ∧ s' = { s with frames := s.frames.allocate.2 })
      (fun _ _ => False) :=
  ⟨rfl, rfl⟩

theorem allocateZeroed_ends (msg : String) (s : Phys) :
    Ends (allocateZeroed msg) s (fun p s' => Taken s p s') (fun e s' => e = .err msg ∧ Exhausted s s') := by
  refine ends_bind_of (allocateFrame_ends s) ?_ fun _ _ h => h.elim
  rintro r s1 ⟨rfl, rfl⟩
  rcases s.frames.allocate_spec with ⟨p, hp, hfree, hrest, ha⟩ | ⟨hnone, hrest, ha, ha'⟩
  · rw [hp]
    exact ⟨⟨hfree, hrest, ha⟩, rfl⟩
  · rw [hnone]
    exact ⟨rfl, rfl, hrest, ha, ha'⟩

/-! ### Labelled frames -/

/-- The labelled frames form the tables of an address space, and none of them is free. -/
structure Space (dom : Fin 512 → Prop) (role : Nat → Option Role) (s : Phys) : Prop where
  tree : Tree dom role s.mem
  taken : ∀ {f r}, role f = some r → ¬s.frames.Free f

/-- From `s` with its labels to `s'` with more: only frames that were free get a label, and only labelled frames are
written. -/
structure Grown (dom : Fin 512 → Prop) (role : Nat → Option Role) (s : Phys) (role' : Nat → Option Role) (s' : Phys) :
    Prop extends Space dom role' s' where
  le : ∀ {f r}, role f = some r → role' f = some r
  fresh : ∀ {f r}, role f = none → role' f = some r → s.frames.Free f
  free : ∀ {f}, s'.frames.Free f → s.frames.Free f
  same : ∀ {a}, role' (frameOf a) = none → s'.mem a = s.mem a

theorem Grown.refl (h : Space dom role s) : Grown dom role s role s where
  toSpace := h
  le := id
  fresh := by
    intro f r hnone hsome
    rw [hnone] at hsome
    cases hsome
  free := id
  same := fun _ => rfl

theorem Grown.trans (h : Grown dom role s role' s') (h' : Grown dom role' s' role'' s'') :
    Grown dom role s role'' s'' where
  toSpace := h'.toSpace
  le := fun hf => h'.le (h.le hf)
  fresh := by
    intro f r hnone hsome
    cases hr : role' f with
    | none => exact h.free (h'.fresh hr hsome)
    | some r' => exact h.fresh hnone hr
  free := fun hf => h.free (h'.free hf)
  same := by
    intro a ha
    have hr : role' (frameOf a) = none := by
      cases hr : role' (frameOf a) with
      | none => rfl
      | some r =>
        rw [h'.le hr] at ha
        cases ha
    rw [h'.same ha, h.same hr]

def SameView (dom : Fin 512 → Prop) (role : Nat → Option Role) (s s' : Phys) : Prop :=
  ∀ {t is}, role t = some (.table []) → is.length = 4 → (∀ i ∈ is.head?, dom i) → lookup s'.mem t is = lookup s.mem t is

theorem SameView.trans (h : SameView dom role s s') (hg : Grown dom role s role' s')
    (h' : SameView dom role' s' s'') : SameView dom role s s'' := by
  intro t is ht hlen hd
  rw [h' (hg.le ht) hlen hd, h ht hlen hd]

theorem Space.grown_write (h : Space dom role s) {m : ByteMem} (hs : Tree.SameLinks role s.mem m)
    (hmem : ∀ a, role (frameOf a) = none → m a = s.mem a) : Grown dom role s role { s with mem := m } where
  tree := h.tree.congr hs
  taken := h.taken
  le := id
  fresh := by
    intro f r hnone hsome
    rw [hnone] at hsome
    cases hsome
  free := id
  same := fun ha => hmem _ ha

theorem Space.of_same (h : Space dom role s) (hmem : ∀ a r, role (frameOf a) = some r → s'.mem a = s.mem a)
    (hfree : ∀ f, s'.frames.Free f → s.frames.Free f) : Space dom role s' ∧ SameView dom role s s' := by
  have hen : ∀ {f r} (i : Fin 512), role f = some r → X86.entry s'.mem f i = X86.entry s.mem f i := by
    intro f r i hf
    exact X86.entry_congr (h.tree.lt hf) (fun a ha => hmem a r (by rw [ha]; exact hf)) i
  have hl : Tree.SameLinks role s.mem s'.mem := by
    intro f π i hf _
    simp [hen i hf]
  refine ⟨⟨h.tree.congr hl, fun hf hfr => h.taken hf (hfree _ hfr)⟩, ?_⟩
  intro t is htop hlen hd
  exact h.tree.lookup_congr hl htop (by simpa using hlen) (fun _ => hd) fun f ρ i hf _ _ => hen i hf

theorem Exhausted.grown (h : Space dom role s) (he : Exhausted s s') : Grown dom role s role s' where
  tree := by
    rw [he.mem]
    exact h.tree
  taken := fun hf hfree => h.taken hf ((he.rest _).1 hfree)
  le := id
  fresh := by
    intro f r hnone hsome
    rw [hnone] at hsome
    cases hsome
  free := fun hf => (he.rest _).1 hf
  same := fun _ => by rw [he.mem]

theorem Exhausted.sameView (he : Exhausted s s') : SameView dom role s s' := by
  intro t is _ _ _
  rw [he.mem]

theorem Space.role_eq_none (h : Space dom role s) {f : Nat} (hf : s.frames.Free f) : role f = none := by
  cases hr : role f with
  | none => rfl
  | some r => exact absurd hf (h.taken hr)

theorem Took.ne_of_role (ht : Took s p s') (hrole : ∀ {f r}, role f = some r → ¬s.frames.Free f) {f : Nat} {r : Role}
    (hf : role f = some r) : f ≠ p.frame := by
  intro hfp
  rw [hfp] at hf
  exact hrole hf ht.free

theorem Took.grown (ht : Took s p s') (hrole : ∀ {f r}, role f = some r → ¬s.frames.Free f) {r : Role}
    (htree : Tree dom (update role p.frame (some r)) s'.mem)
    (hsame : ∀ a, frameOf a ≠ p.frame → role (frameOf a) = none → s'.mem a = s.mem a) :
    Grown dom role s (update role p.frame (some r)) s' := by
  refine { tree := htree, taken := ?_, le := ?_, fresh := ?_, free := ?_, same := ?_ }
  · intro f r hf hfree
    obtain ⟨hfree, hfp⟩ := (ht.rest f).1 hfree
    rcases X86.update_eq_some_iff.1 hf with ⟨heq, -⟩ | ⟨-, hf'⟩
    · exact hfp heq
    · exact hrole hf' hfree
  · intro f r hf
    exact X86.update_eq_some_iff.2 (Or.inr ⟨ht.ne_of_role hrole hf, hf⟩)
  · intro f r hf hsome
    rcases X86.update_eq_some_iff.1 hsome with ⟨rfl, -⟩ | ⟨-, hf'⟩
    · exact ht.free
    · rw [hf] at hf'
      cases hf'
  · intro f hf
    exact ((ht.rest f).1 hf).1
  · grind

theorem Taken.mem_of_ne (ht : Taken s p s') {a : BitVec 64} (ha : frameOf a ≠ p.frame) : s'.mem a = s.mem a := by
  rw [ht.mem, fill_frame, if_neg ha]

theorem Taken.grown_data (h : Space dom role s) (ht : Taken s p s') :
    Grown dom role s (update role p.frame (some .data)) s' ∧ SameView dom role s s' := by
  obtain ⟨hs, hview⟩ := h.of_same (fun a r hr => ht.mem_of_ne (ht.ne_of_role h.taken hr))
    fun f hf => ((ht.rest f).1 hf).1
  refine ⟨ht.grown h.taken (hs.tree.label_data (h.role_eq_none ht.free) p.frame_lt) ?_, hview⟩
  exact fun a hap _ => ht.mem_of_ne hap

theorem allocateZeroed_spec (h : Space dom role s) (msg : String) :
    Ends (allocateZeroed msg) s
      (fun p s' => ∃ role', Grown dom role s role' s' ∧ SameView dom role s s' ∧ role' p.frame = some .data ∧
        s.frames.avail ≤ s'.frames.avail + 1)
      (fun e s' => e = .err msg ∧ Grown dom role s role s' ∧ SameView dom role s s' ∧ s.frames.avail = 0) := by
  refine (allocateZeroed_ends msg s).mono ?_ ?_
  · intro p s' ht
    obtain ⟨hg, hv⟩ := ht.grown_data h
    exact ⟨_, hg, hv, update_self .., ht.avail.le⟩
  · rintro e s' ⟨he, hex⟩
    exact ⟨he, hex.grown h, hex.sameView, hex.avail⟩

/-! ### One level down -/

variable {table : PhysAddr} {π : List (Fin 512)} {i : Fin 512}

theorem interFlags_bits : interFlags.getLsbD 0 = true ∧ interFlags.getLsbD 7 = false := by decide

section

variable (h : Space dom role s)
include h

theorem Taken.links (ht : Taken s p s') (hta : role table.frame = some (.table π))
    (habs : ¬X86.present (s.entry table i)) :
    Tree.Links role s.mem (s'.write table i (setAddress p.addr interFlags)).mem table.frame i p.frame := by
  have hne := ht.ne_of_role h.taken hta
  unfold Phys.write
  refine { absent := habs, present := ?_, target := ?_, huge := ?_, empty := ?_, same := ?_ }
  · rw [X86.entry_write_self, present_setAddress]
    exact interFlags_bits.1
  · rw [X86.entry_write_self, target_setAddress]
  · rw [X86.entry_write_self, huge_setAddress]
    exact interFlags_bits.2
  · intro j
    rw [X86.entry_write_of_ne table.frame_lt p.frame_lt (fun hp => hne hp.1), ht.mem, entry_fill_self]
    decide
  · intro f j hf hfj
    obtain ⟨r, hr⟩ := Option.ne_none_iff_exists'.1 hf
    rw [X86.entry_write_of_ne table.frame_lt (h.tree.lt hr) (fun hp => hfj ⟨hp.1.symm, hp.2.symm⟩), ht.mem,
      entry_fill_of_ne _ (h.tree.lt hr) (ht.ne_of_role h.taken hr)]

theorem Taken.grown_link (ht : Taken s p s') (hta : role table.frame = some (.table π))
    (hπ : π.length < 3) (habs : ¬X86.present (s.entry table i)) :
    Grown dom role s (update role p.frame (some (.table (π ++ [i]))))
        (s'.write table i (setAddress p.addr interFlags)) ∧
      SameView dom role s (s'.write table i (setAddress p.addr interFlags)) := by
  have hl := ht.links h hta habs
  constructor
  · have htook : Took s p (s'.write table i (setAddress p.addr interFlags)) := ⟨ht.free, ht.rest, ht.avail⟩
    refine htook.grown h.taken (h.tree.link hl hta hπ (h.role_eq_none ht.free) p.frame_lt) ?_
    intro a hap ha
    have hat : frameOf a ≠ table.frame := by
      grind
    unfold Phys.write
    dsimp only
    rw [X86.write_entry_of_frame_ne table.frame_lt hat, ht.mem, fill_frame, if_neg hap]
  · intro t is htop hlen hd
    exact h.tree.lookup_link hl hta hπ htop (by simpa using hlen) fun _ => hd

theorem Space.relink (ht : role table.frame = some (.table π)) (hπ : π.length < 3)
    (hp : X86.present (s.entry table i)) :
    Grown dom role s role (s.write table i (setAddress (physicalAddress (s.entry table i)).addr interFlags)) ∧
      SameView dom role s (s.write table i (setAddress (physicalAddress (s.entry table i)).addr interFlags)) := by
  have hl : Tree.SameLinks role s.mem
      (s.write table i (setAddress (physicalAddress (s.entry table i)).addr interFlags)).mem := by
    intro f ρ j hf _
    unfold Phys.write
    by_cases heq : table.frame = f ∧ i = j
    · obtain ⟨rfl, rfl⟩ := heq
      rw [X86.entry_write_self, present_setAddress, target_setAddress, huge_setAddress, frame_physicalAddress]
      refine ⟨?_, rfl, fun _ => interFlags_bits.2⟩
      exact hp.symm
    · simp [X86.entry_write_of_ne table.frame_lt (h.tree.lt hf) heq]
  refine ⟨h.grown_write hl ?_, ?_⟩
  · intro a ha
    refine X86.write_entry_of_frame_ne table.frame_lt ?_ _
    grind
  · intro t is htop hlen hd
    refine h.tree.lookup_congr hl htop (by simpa using hlen) (fun _ => hd) fun f ρ j hf h3 _ => ?_
    refine X86.entry_write_of_ne table.frame_lt (h.tree.lt hf) ?_ _
    grind

theorem nextTable_spec (force : Bool) (hta : role table.frame = some (.table π))
    (hπ : π.length < 3) (hd : π = [] → dom i) :
    Ends (nextTable force table i) s
      (fun t s' => ∃ role', Grown dom role s role' s' ∧ SameView dom role s s' ∧
        role' t.frame = some (.table (π ++ [i])) ∧ s.frames.avail ≤ s'.frames.avail + 1)
      (fun e s' => e = .err "Out of memory" ∧ Grown dom role s role s' ∧ SameView dom role s s' ∧
        s.frames.avail = 0) := by
  refine ends_bind (ends_get ?_)
  by_cases hp : isPresent (s.entry table i)
  · rw [if_pos hp]
    have hp' : X86.present (s.entry table i) := by rwa [isPresent_eq] at hp
    have hc : role (physicalAddress (s.entry table i)).frame = some (.table (π ++ [i])) := by
      rw [frame_physicalAddress]
      exact (h.tree.child hta hπ hd hp').1
    cases force with
    | true =>
      obtain ⟨hg, hv⟩ := h.relink hta hπ hp'
      exact ⟨role, hg, hv, hc, Nat.le_succ _⟩
    | false => exact ⟨role, Grown.refl h, fun _ _ _ => rfl, hc, Nat.le_succ _⟩
  · rw [if_neg hp]
    have habs : ¬X86.present (s.entry table i) := by rwa [isPresent_eq] at hp
    refine ends_bind_of (allocateZeroed_ends _ s) ?_ ?_
    · intro p s' ht
      obtain ⟨hg, hv⟩ := ht.grown_link h hta hπ habs
      exact ⟨_, hg, hv, update_self .., ht.avail.le⟩
    · rintro e s' ⟨he, hex⟩
      exact ⟨he, hex.grown h, hex.sameView, hex.avail⟩

end

/-! ### Mapping a page -/

variable {p4 : PhysAddr} {virt : BitVec 64} {phys : PhysAddr} {flags : BitVec 64}

theorem indices_eq (virt : BitVec 64) :
    indices virt 3 = [p4Index virt, p3Index virt, p2Index virt] ++ [p1Index virt] := by
  unfold p4Index p3Index p2Index p1Index
  rw [show (39 : Nat) = 12 + 9 * 3 from rfl, show (30 : Nat) = 12 + 9 * 2 from rfl,
    show (21 : Nat) = 12 + 9 * 1 from rfl, tableIndex_eq_index, tableIndex_eq_index, tableIndex_eq_index,
    tableIndex_eq_index 0]
  rfl

theorem lastTable_spec (h : Space dom role s) (force : Bool) (hp4 : role p4.frame = some (.table []))
    (hd : dom (p4Index virt)) :
    Ends (lastTable force p4 virt) s
      (fun t s' => ∃ role', Grown dom role s role' s' ∧ SameView dom role s s' ∧
        role' t.frame = some (.table [p4Index virt, p3Index virt, p2Index virt]) ∧
        s.frames.avail ≤ s'.frames.avail + 3)
      (fun e s' => ∃ role', e = .err "Out of memory" ∧ Grown dom role s role' s' ∧ SameView dom role s s' ∧
        s.frames.avail < 3) := by
  refine ends_bind_of (nextTable_spec h force hp4 (by decide) fun _ => hd) ?_ ?_
  · rintro p3 s1 ⟨role1, hg1, hv1, hp3, ha1⟩
    refine ends_bind_of (nextTable_spec hg1.toSpace force hp3 (by simp) (by simp)) ?_ ?_
    · rintro p2 s2 ⟨role2, hg2, hv2, hp2, ha2⟩
      refine (nextTable_spec hg2.toSpace force hp2 (by simp) (by simp)).mono ?_ ?_
      · rintro p1 s3 ⟨role3, hg3, hv3, hp1, ha3⟩
        exact ⟨role3, hg1.trans (hg2.trans hg3), hv1.trans hg1 (hv2.trans hg2 hv3), hp1, by omega⟩
      · rintro e s3 ⟨he, hg3, hv3, ha3⟩
        exact ⟨role2, he, hg1.trans (hg2.trans hg3), hv1.trans hg1 (hv2.trans hg2 hv3), by omega⟩
    · rintro e s2 ⟨he, hg2, hv2, ha2⟩
      exact ⟨role1, he, hg1.trans hg2, hv1.trans hg1 hv2, by omega⟩
  · grind

/-- The lookups of the page now give the entry `e`, the others what they gave. -/
def Mapped (dom : Fin 512 → Prop) (role : Nat → Option Role) (s s' : Phys) (virt e : BitVec 64) : Prop :=
  ∀ {t is}, role t = some (.table []) → is.length = 4 → (∀ i ∈ is.head?, dom i) →
    lookup s'.mem t is = if is = indices virt 3 then some e else lookup s.mem t is

theorem SameView.mapped (h : SameView dom role s s') (hg : Grown dom role s role' s') {e : BitVec 64}
    (h' : Mapped dom role' s' s'' virt e) : Mapped dom role s s'' virt e := by
  intro t is ht hlen hd
  rw [h' (hg.le ht) hlen hd, h ht hlen hd]

section

variable (h : Space dom role s)
include h

theorem Space.write_last (e : BitVec 64)
    (ht : role table.frame = some (.table [p4Index virt, p3Index virt, p2Index virt])) :
    Grown dom role s role (s.write table (p1Index virt) e) ∧
      ∀ {t is}, role t = some (.table []) → is.length = 4 → (∀ i ∈ is.head?, dom i) →
        lookup (s.write table (p1Index virt) e).mem t is =
          if is = indices virt 3 then if X86.present e then some e else none else lookup s.mem t is := by
  have ho : ∀ {f ρ j}, role f = some (.table ρ) → ρ ++ [j] ≠ indices virt 3 →
      X86.entry (s.write table (p1Index virt) e).mem f j = X86.entry s.mem f j := by
    intro f ρ j hf hne
    refine X86.entry_write_of_ne table.frame_lt (h.tree.lt hf) ?_ e
    rintro ⟨rfl, rfl⟩
    rw [ht] at hf
    cases hf
    exact hne (indices_eq virt).symm
  have hl : Tree.SameLinks role s.mem (s.write table (p1Index virt) e).mem := by
    intro f ρ j hf hlen
    rw [ho hf]
    · exact ⟨rfl, rfl, id⟩
    · grind [X86.length_indices, List.length_append, List.length_singleton]
  have hg : Grown dom role s role (s.write table (p1Index virt) e) := by
    refine h.grown_write hl ?_
    intro a ha
    refine X86.write_entry_of_frame_ne table.frame_lt ?_ e
    grind
  refine ⟨hg, ?_⟩
  intro t is htop hlen hd
  by_cases his : is = indices virt 3
  · rw [if_pos his, his, indices_eq, hg.tree.lookup_of_label htop ht]
    unfold Phys.write
    rw [X86.entry_write_self]
  · rw [if_neg his]
    refine h.tree.lookup_congr hl htop (by simpa using hlen) (fun _ => hd) fun f ρ j hf _ heq => ho hf ?_
    rw [heq]
    exact his

theorem Space.write_leaf {e : BitVec 64} (he : X86.present e)
    (ht : role table.frame = some (.table [p4Index virt, p3Index virt, p2Index virt])) :
    Grown dom role s role (s.write table (p1Index virt) e) ∧
      Mapped dom role s (s.write table (p1Index virt) e) virt e := by
  obtain ⟨hg, hlook⟩ := h.write_last e ht
  refine ⟨hg, ?_⟩
  intro t is htop hlen hd
  rw [hlook htop hlen hd, if_pos he]

theorem map_spec (hp4 : role p4.frame = some (.table [])) (hd : dom (p4Index virt))
    (hf : flags.getLsbD 0 = true) :
    Ends (map p4 virt phys flags) s
      (fun _ s' => ∃ role', Grown dom role s role' s' ∧ Mapped dom role s s' virt (setAddress phys.addr flags) ∧
        s.frames.avail ≤ s'.frames.avail + 3)
      (fun e s' => ∃ role', Grown dom role s role' s' ∧ SameView dom role s s' ∧
        (e = .err "Out of memory" ∧ s.frames.avail < 3 ∨
          e = .err "Page already mapped" ∧ lookup s.mem p4.frame (indices virt 3) ≠ none)) := by
  refine ends_bind_of (lastTable_spec h false hp4 hd) ?_ ?_
  · rintro p1 s1 ⟨role1, hg1, hv1, hp1, ha1⟩
    refine ends_bind (ends_get ?_)
    by_cases hp : isPresent (s1.entry p1 (p1Index virt))
    · rw [if_pos hp]
      refine ends_throw ⟨role1, hg1, hv1, Or.inr ⟨rfl, ?_⟩⟩
      rw [isPresent_eq] at hp
      rw [← hv1 hp4 (X86.length_indices virt 3) (by rw [indices_eq]; simpa using hd), indices_eq,
        hg1.tree.lookup_of_label (hg1.le hp4) hp1]
      simp_all [Phys.entry, hp]
    · rw [if_neg hp]
      obtain ⟨hg2, hm⟩ := hg1.toSpace.write_leaf (e := setAddress phys.addr flags) (by simpa using hf) hp1
      exact ⟨role1, hg1.trans hg2, hv1.mapped hg1 hm, ha1⟩
  · simp_all

theorem mapExecutable_spec (hp4 : role p4.frame = some (.table [])) (hd : dom (p4Index virt))
    (hf : flags.getLsbD 0 = true) :
    Ends (mapExecutable p4 virt phys flags) s
      (fun _ s' => ∃ role', Grown dom role s role' s' ∧
        Mapped dom role s s' virt (setAddress phys.addr (flags &&& ~~~PageTableEntry.noExecute)) ∧
        s.frames.avail ≤ s'.frames.avail + 3)
      (fun e s' => ∃ role', Grown dom role s role' s' ∧ SameView dom role s s' ∧
        e = .err "Out of memory" ∧ s.frames.avail < 3) := by
  have hbit : (flags &&& ~~~PageTableEntry.noExecute).getLsbD 0 = true := by
    rw [BitVec.getLsbD_and, hf]
    decide
  refine ends_bind_of (lastTable_spec h true hp4 hd) ?_ ?_
  · rintro p1 s1 ⟨role1, hg1, hv1, hp1, ha1⟩
    obtain ⟨hg2, hm⟩ := hg1.toSpace.write_leaf
      (e := setAddress phys.addr (flags &&& ~~~PageTableEntry.noExecute)) (by simpa using hbit) hp1
    exact ⟨role1, hg1.trans hg2, hv1.mapped hg1 hm, ha1⟩
  · simp_all

end

end AstralOS.Memory
