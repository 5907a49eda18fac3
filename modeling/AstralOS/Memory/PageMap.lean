import AstralOS.Lib.Run
import AstralOS.Memory.Translate

/-!
# Page tables as a finite map

A new page table manager and any sequence of `map`, `map_executable` and `unmap`, with the rest of the kernel running in
between.  The tables stay a tree whose lookups are those of a map from pages to frames: the one that the calls that
succeeded have built (`Inv`).  So `translate` is that map, and a call that fails does not change it
(`page_tables_finite_map`).
-/

namespace AstralOS.Memory

open Option

open X86 (Role Tree lookup indices tableAt)
open PageTableEntry (isPresent setPresent physicalAddress setAddress)
open Fallible

variable {dom : Fin 512 → Prop} {role : Nat → Option Role} {s s' : Phys} {p4 table : PhysAddr} {virt : BitVec 64}

/-! ### Unmapping a page -/

theorem unmap_spec (h : Space dom role s) (hp4 : role p4.frame = some (.table [])) (hd : dom (p4Index virt)) :
    Ends (unmap p4 virt) s
      (fun p s' => Grown dom role s role s' ∧ translate s p4 virt = some p ∧
        ∀ {t is}, role t = some (.table []) → is.length = 4 → (∀ i ∈ is.head?, dom i) →
          lookup s'.mem t is = if is = indices virt 3 then none else lookup s.mem t is)
      (fun _ s' => s' = s ∧ translate s p4 virt = none) := by
  -- a step down from a labelled table leads to the table with the longer label
  have hnext : ∀ {t q : PhysAddr} {π i}, role t.frame = some (.table π) → π.length < 3 → (π = [] → dom i) →
      s.next t i = some q → role q.frame = some (.table (π ++ [i])) := by
    intro t q π i ht hlen hdom hq
    rw [s.next_eq] at hq
    by_cases hp : X86.present (X86.entry s.mem t.frame i)
    · rw [if_pos hp, some.injEq] at hq
      rw [← hq, frame_physicalAddress]
      exact (h.tree.child ht hlen hdom hp).1
    · rw [if_neg hp] at hq
      cases hq
  refine ends_bind (ends_get ?_)
  refine ends_okOr_bind (fun p3 h3 => ?_) fun h3 => ⟨rfl, by simp [translate, h3]⟩
  refine ends_okOr_bind (fun p2 h2 => ?_) fun h2 => ⟨rfl, by simp [translate, h3, h2]⟩
  refine ends_okOr_bind (fun p1 h1 => ?_) fun h1 => ⟨rfl, by simp [translate, h3, h2, h1]⟩
  refine ends_okOr_bind (fun phys h0 => ?_) fun h0 => ⟨rfl, by simp [translate, h3, h2, h1, h0]⟩
  have hp1 : role p1.frame = some (.table [p4Index virt, p3Index virt, p2Index virt]) :=
    hnext (hnext (hnext hp4 (by simp) (fun _ => hd) h3) (by simp) (by simp) h2) (by simp) (by simp) h1
  obtain ⟨hg, hlook⟩ := h.write_last (setPresent (s.entry p1 (p1Index virt)) false) hp1
  have hphys : PhysAddr.new phys.addr = phys := PhysAddr.ext phys.masked
  refine ends_bind (ends_modify (ends_pure ⟨hg, ?_, ?_⟩))
  · simp [translate, h3, h2, h1, h0, new_add_pageOffset, hphys]
  · intro t is htop hlen hdom
    rw [hlook htop hlen hdom, present_setPresent_false]
    rfl

theorem nextTable_present {q : PhysAddr} {i : Fin 512} (hq : s.next table i = some q) :
    Ends (nextTable false table i) s (fun t s' => t = q ∧ s' = s) (fun _ _ => False) := by
  unfold Phys.next at hq
  refine ends_bind (ends_get ?_)
  by_cases hp : isPresent (s.entry table i)
  · rw [if_pos hp, some.injEq] at hq
    rw [if_pos hp]
    exact ⟨hq, rfl⟩
  · rw [if_neg hp] at hq
    cases hq

theorem map_of_mapped (hm : translate s p4 virt ≠ none) (phys : PhysAddr) (flags : BitVec 64) :
    (map p4 virt phys flags).exec s = (.error (.err "Page already mapped"), s) := by
  obtain ⟨p, hp⟩ := ne_none_iff_exists'.1 hm
  obtain ⟨p3, h3, hp⟩ := bind_eq_some_iff.1 hp
  obtain ⟨p2, h2, hp⟩ := bind_eq_some_iff.1 hp
  obtain ⟨p1, h1, hp⟩ := bind_eq_some_iff.1 hp
  obtain ⟨page, h0, -⟩ := bind_eq_some_iff.1 hp
  have hends : Ends (map p4 virt phys flags) s (fun _ _ => False)
      (fun e s' => e = .err "Page already mapped" ∧ s' = s) := by
    refine ends_bind (ends_bind_of (nextTable_present h3) ?_ fun _ _ hf => hf.elim)
    rintro q3 s1 ⟨rfl, rfl⟩
    refine ends_bind_of (nextTable_present h2) ?_ fun _ _ hf => hf.elim
    rintro q2 s2 ⟨rfl, rfl⟩
    refine (nextTable_present h1).mono ?_ fun _ _ hf => hf.elim
    rintro q1 s3 ⟨rfl, rfl⟩
    refine ends_bind (ends_get ?_)
    unfold Phys.next at h0
    by_cases hpres : isPresent (s3.entry q1 (p1Index virt))
    · rw [if_pos hpres]
      exact ends_throw ⟨rfl, rfl⟩
    · rw [if_neg hpres] at h0
      cases h0
  cases hexec : (map p4 virt phys flags).exec s with
  | mk r s' =>
    cases r with
    | ok a => exact (hends.ok hexec).elim
    | error e =>
      obtain ⟨rfl, rfl⟩ := hends.error hexec
      rfl

/-! ### Pages -/

def pageOf (v : BitVec 64) : Nat := v.toNat / 4096 % 2 ^ 36

theorem indices_eq_iff (v w : BitVec 64) : indices v 3 = indices w 3 ↔ pageOf v = pageOf w := by
  unfold pageOf
  simp only [indices, X86.index, List.cons.injEq, Fin.mk.injEq, and_true]
  omega

theorem SameView.translate_eq {v : BitVec 64} (h : SameView dom role s s') (hp4 : role p4.frame = some (.table []))
    (hd : dom (p4Index v)) : translate s' p4 v = translate s p4 v := by
  rw [translate_eq_lookup, translate_eq_lookup,
    h hp4 (X86.length_indices v 3) (by rw [indices_eq]; simpa using hd)]

theorem translate_of_lookup {r : Option (BitVec 64)}
    (hlook : ∀ is : List (Fin 512), is.length = 4 → (∀ i ∈ is.head?, dom i) →
      lookup s'.mem p4.frame is = if is = indices virt 3 then r else lookup s.mem p4.frame is) {v : BitVec 64}
    (hv : dom (p4Index v)) :
    translate s' p4 v = if pageOf v = pageOf virt then r.map physicalAddress else translate s p4 v := by
  rw [translate_eq_lookup, translate_eq_lookup,
    hlook _ (X86.length_indices v 3) (by rw [indices_eq]; simpa using hv)]
  by_cases hpage : pageOf v = pageOf virt
  · rw [if_pos hpage, if_pos ((indices_eq_iff v virt).2 hpage)]
  · rw [if_neg hpage, if_neg fun h => hpage ((indices_eq_iff v virt).1 h)]

theorem translate_congr {v w : BitVec 64} (h : pageOf v = pageOf w) (s : Phys) (p4 : PhysAddr) :
    translate s p4 v = translate s p4 w := by
  rw [translate_eq_lookup, translate_eq_lookup, (indices_eq_iff v w).2 h]

/-! ### The tables of a manager -/

/-- The tables below the entries `dom` of `p4` form a tree without large pages, and none of their frames is free. -/
def PageTables (dom : Fin 512 → Prop) (s : Phys) (p4 : PhysAddr) : Prop :=
  ∃ role, Space dom role s ∧ role p4.frame = some (.table [])

theorem PageTables.mono {dom' : Fin 512 → Prop} (h : PageTables dom s p4) (hd : ∀ i, dom' i → dom i) :
    PageTables dom' s p4 := by
  obtain ⟨role, hs, hp4⟩ := h
  exact ⟨role, ⟨hs.tree.mono hd, hs.taken⟩, hp4⟩

def KeepsTables (dom : Fin 512 → Prop) (p4 : PhysAddr) (s s' : Phys) : Prop :=
  ∀ path f, path.length ≤ 3 → (∀ i ∈ path.head?, dom i) → tableAt s.mem p4.frame path = some f →
    (∀ i, X86.entry s'.mem f i = X86.entry s.mem f i) ∧ ¬s'.frames.Free f

theorem PageTables.others (h : PageTables dom s p4) (hk : KeepsTables dom p4 s s') :
    PageTables dom s' p4 ∧ ∀ v, dom (p4Index v) → translate s' p4 v = translate s p4 v := by
  classical
  obtain ⟨role, hs, hp4⟩ := h
  -- frames of data may have been freed or written, so only the labels of these tables are kept
  let role' : Nat → Option Role := fun f => (role f).filter fun r => decide (Tree.InDomain dom r)
  have hrole : ∀ f r, role' f = some r ↔ role f = some r ∧ Tree.InDomain dom r := by
    intro f r
    simp only [role', filter_eq_some_iff, decide_eq_true_eq]
  have htree : Tree dom role' s.mem := hs.tree.tables_only hrole
  have htop : role' p4.frame = some (.table []) := (hrole _ _).2 ⟨hp4, [], rfl, by simp⟩
  have ht : ∀ {f r}, role' f = some r → (∀ i, X86.entry s'.mem f i = X86.entry s.mem f i) ∧ ¬s'.frames.Free f := by
    intro f r hf
    obtain ⟨-, π, rfl, hdom⟩ := (hrole f r).1 hf
    exact hk π f (htree.len hf) hdom (htree.tableAt_of_label htop hf)
  have hl : Tree.SameLinks role' s.mem s'.mem := by
    intro f π i hf _
    simp [(ht hf).1 i]
  refine ⟨⟨role', ⟨htree.congr hl, fun hf => (ht hf).2⟩, htop⟩, fun v hv => ?_⟩
  rw [translate_eq_lookup, translate_eq_lookup]
  rw [htree.lookup_congr hl htop (by simp) (fun _ => by rw [indices_eq]; simpa using hv)
    fun f ρ i hf _ _ => (ht hf).1 i]

theorem PageTables.of_mem (h : PageTables dom s p4) (hmem : s'.mem = s.mem)
    (hfree : ∀ f, s'.frames.Free f → s.frames.Free f) :
    PageTables dom s' p4 ∧ ∀ v, translate s' p4 v = translate s p4 v := by
  obtain ⟨role, hs, hp4⟩ := h
  refine ⟨⟨role, ⟨by rw [hmem]; exact hs.tree, fun hf hf' => hs.taken hf (hfree _ hf')⟩, hp4⟩, fun v => ?_⟩
  rw [translate_eq_lookup, translate_eq_lookup, hmem]

variable {phys : PhysAddr} {flags : BitVec 64}

section

variable (h : PageTables dom s p4)
include h

theorem PageTables.map (hd : dom (p4Index virt)) (hf : isPresent flags = true)
    (hnone : translate s p4 virt = none) :
    Ends (map p4 virt phys flags) s
      (fun _ s' => PageTables dom s' p4 ∧
        (∀ v, dom (p4Index v) → translate s' p4 v = if pageOf v = pageOf virt then some phys else translate s p4 v) ∧
        s.frames.avail ≤ s'.frames.avail + 3 ∧ ∀ f, s'.frames.Free f → s.frames.Free f)
      (fun e s' => PageTables dom s' p4 ∧ (∀ v, dom (p4Index v) → translate s' p4 v = translate s p4 v) ∧
        e = .err "Out of memory" ∧ s.frames.avail < 3) := by
  obtain ⟨role, hs, hp4⟩ := h
  refine (map_spec hs hp4 hd ((isPresent_eq flags).symm.trans hf)).mono ?_ ?_
  · rintro _ s' ⟨role', hg, hm, ha⟩
    refine ⟨⟨role', hg.toSpace, hg.le hp4⟩, fun v hv => ?_, ha, fun _ => hg.free⟩
    rw [translate_of_lookup (fun is hlen hdom => hm hp4 hlen hdom) hv, map_some, physicalAddress_setAddress]
  · rintro e s' ⟨role', hg, hv, hmem | ⟨-, hma⟩⟩
    · exact ⟨⟨role', hg.toSpace, hg.le hp4⟩, fun v hdom => hv.translate_eq hp4 hdom, hmem⟩
    · simp_all [translate_eq_lookup, map_eq_none_iff]

theorem PageTables.allocateZeroed (msg : String) :
    Ends (allocateZeroed msg) s
      (fun _ s' => PageTables dom s' p4 ∧ ∀ v, dom (p4Index v) → translate s' p4 v = translate s p4 v)
      (fun e s' => e = .err msg ∧ PageTables dom s' p4 ∧
        ∀ v, dom (p4Index v) → translate s' p4 v = translate s p4 v) := by
  obtain ⟨role, hs, hp4⟩ := h
  refine (allocateZeroed_spec hs msg).mono ?_ ?_
  · rintro p s' ⟨role', hg, hv, -, -⟩
    exact ⟨⟨role', hg.toSpace, hg.le hp4⟩, fun v hd => hv.translate_eq hp4 hd⟩
  · rintro e s' ⟨he, hg, hv, -⟩
    exact ⟨he, ⟨role, hg.toSpace, hp4⟩, fun v hd => hv.translate_eq hp4 hd⟩

theorem PageTables.isSome_walk {v : BitVec 64} (hd : dom (p4Index v)) :
    (X86.walk s.mem v 3 p4.frame).isSome = (translate s p4 v).isSome := by
  obtain ⟨role, hs, hp4⟩ := h
  have hidx : p4Index v = X86.index 3 v := tableIndex_eq_index 3 v
  rw [hidx] at hd
  have hwalk := congrArg isSome (hs.tree.walk_eq_lookup hp4 (show [].length + 3 = 3 from rfl) fun _ => hd)
  simp_all [isSome_map, translate_eq_lookup]

end

/-! ### Calls -/

/-- The calls on a page table manager.  Between them the rest of the kernel runs and leaves physical memory and the frame
allocator in some state. -/
inductive PageCall
  | map (virt : BitVec 64) (phys : PhysAddr) (flags : BitVec 64)
  | mapExecutable (virt : BitVec 64) (phys : PhysAddr) (flags : BitVec 64)
  | unmap (virt : BitVec 64)
  | others (s : Phys)

namespace PageCall

def exec (p4 : PhysAddr) : PageCall → PhysM PUnit
  | .map virt phys flags => Memory.map p4 virt phys flags
  | .mapExecutable virt phys flags => Memory.mapExecutable p4 virt phys flags
  | .unmap virt => do
    let _ ← Memory.unmap p4 virt
  | .others s => set s

def page : PageCall → Option Nat
  | .map virt _ _ | .mapExecutable virt _ _ | .unmap virt => some (pageOf virt)
  | .others _ => none

def frame : PageCall → Option PhysAddr
  | .map _ phys _ | .mapExecutable _ phys _ => some phys
  | .unmap _ | .others _ => none

end PageCall

/-- Physical memory, and the calls that have succeeded, the last one first. -/
structure Mapping where
  phys : Phys
  done : List PageCall

/-- The frame of a page after the calls that have succeeded: the last one of them on the page decides. -/
def mappedTo (done : List PageCall) (page : Nat) : Option PhysAddr :=
  (done.find? fun c => decide (c.page = some page)).bind PageCall.frame

theorem mappedTo_cons (c : PageCall) (done : List PageCall) (page : Nat) :
    mappedTo (c :: done) page = if c.page = some page then c.frame else mappedTo done page := by
  unfold mappedTo
  by_cases h : c.page = some page
  · simp [h]
  · simp [h]

namespace Mapping

def step (p4 : PhysAddr) (st : Mapping) (c : PageCall) : Mapping :=
  match (c.exec p4).exec st.phys with
  | (.ok _, s) => ⟨s, c :: st.done⟩
  | (.error _, s) => ⟨s, st.done⟩

/-- A page is mapped with the flag PRESENT.  The rest of the kernel does not write the tables of the manager and does not
free them. -/
def Permitted (p4 : PhysAddr) (st : Mapping) : PageCall → Prop
  | .map _ _ flags | .mapExecutable _ _ flags => isPresent flags
  | .unmap _ => True
  | .others s => ∀ path f, path.length ≤ 3 → tableAt st.phys.mem p4.frame path = some f →
      (∀ i, X86.entry s.mem f i = X86.entry st.phys.mem f i) ∧ ¬s.frames.Free f

/-- The tables of the manager form a tree, and translations are those of the calls that have succeeded. -/
structure Inv (p4 : PhysAddr) (st : Mapping) : Prop where
  space : ∃ role, Space (fun _ => True) role st.phys ∧ role p4.frame = some (.table [])
  view : ∀ v, translate st.phys p4 v = mappedTo st.done (pageOf v)

variable {st : Mapping}

theorem step_of_ends {c : PageCall} {P : Mapping → Prop}
    (h : Ends (c.exec p4) st.phys (fun _ s => P ⟨s, c :: st.done⟩) (fun _ s => P ⟨s, st.done⟩)) :
    P (step p4 st c) := by
  unfold step
  cases hexec : (c.exec p4).exec st.phys with
  | mk r s =>
    cases r with
    | ok a => exact h.ok hexec
    | error e => exact h.error hexec

theorem Inv.failed (h : Inv p4 st) {role' : Nat → Option Role} {s' : Phys}
    (hg : Grown (fun _ => True) role st.phys role' s') (hp4 : role p4.frame = some (.table []))
    (hv : SameView (fun _ => True) role st.phys s') : Inv p4 ⟨s', st.done⟩ := by
  refine ⟨⟨role', hg.toSpace, hg.le hp4⟩, fun v => ?_⟩
  rw [← h.view v]
  exact hv.translate_eq hp4 trivial

theorem Inv.succeeded (h : Inv p4 st) {role' : Nat → Option Role} {s' : Phys} {c : PageCall}
    {r : Option (BitVec 64)} (hg : Grown (fun _ => True) role st.phys role' s')
    (hp4 : role p4.frame = some (.table [])) (hpage : c.page = some (pageOf virt))
    (hf : c.frame = r.map physicalAddress)
    (hlook : ∀ is : List (Fin 512), is.length = 4 →
      lookup s'.mem p4.frame is = if is = indices virt 3 then r else lookup st.phys.mem p4.frame is) :
    Inv p4 ⟨s', c :: st.done⟩ := by
  refine ⟨⟨role', hg.toSpace, hg.le hp4⟩, fun v => ?_⟩
  have hlook' : ∀ is : List (Fin 512), is.length = 4 → (∀ i ∈ is.head?, True) →
      lookup s'.mem p4.frame is = if is = indices virt 3 then r else lookup st.phys.mem p4.frame is :=
    fun is hlen _ => hlook is hlen
  rw [translate_of_lookup hlook' trivial, mappedTo_cons, hpage, hf, h.view v]
  simp only [some.injEq, eq_comm]

theorem Inv.others (h : Inv p4 st) {s : Phys} (hs : Permitted p4 st (.others s)) :
    Inv p4 ⟨s, .others s :: st.done⟩ := by
  obtain ⟨hta, htr⟩ := PageTables.others h.space fun path f hlen _ => hs path f hlen
  refine ⟨hta, fun v => ?_⟩
  rw [mappedTo_cons, if_neg (by simp [PageCall.page]), ← h.view v]
  exact htr v trivial

theorem Inv.step {c : PageCall} (h : Inv p4 st) (hc : Permitted p4 st c) : Inv p4 (step p4 st c) := by
  obtain ⟨role, hs, hp4⟩ := h.space
  apply step_of_ends
  cases c with
  | map virt phys flags =>
    have hf : flags.getLsbD 0 = true := (isPresent_eq flags).symm.trans hc
    refine (map_spec hs hp4 trivial hf).mono ?_ ?_
    · rintro _ s' ⟨role', hg, hm, -⟩
      exact h.succeeded (c := .map virt phys flags) (r := some (setAddress phys.addr flags)) hg hp4 rfl
        (congrArg some (physicalAddress_setAddress phys flags).symm) fun is hlen => hm hp4 hlen fun _ _ => trivial
    · rintro e s' ⟨role', hg, hv, -⟩
      exact h.failed hg hp4 hv
  | mapExecutable virt phys flags =>
    have hf : flags.getLsbD 0 = true := (isPresent_eq flags).symm.trans hc
    refine (mapExecutable_spec hs hp4 trivial hf).mono ?_ ?_
    · rintro _ s' ⟨role', hg, hm, -⟩
      exact h.succeeded (c := .mapExecutable virt phys flags)
        (r := some (setAddress phys.addr (flags &&& ~~~PageTableEntry.noExecute))) hg hp4 rfl
        (congrArg some (physicalAddress_setAddress phys _).symm) fun is hlen => hm hp4 hlen fun _ _ => trivial
    · rintro e s' ⟨role', hg, hv, -⟩
      exact h.failed hg hp4 hv
  | unmap virt =>
    refine ends_bind_of (unmap_spec hs hp4 trivial) ?_ ?_
    · rintro p s' ⟨hg, -, hlook⟩
      exact ends_pure (h.succeeded (c := .unmap virt) (r := none) hg hp4 rfl rfl
        fun is hlen => hlook hp4 hlen fun _ _ => trivial)
    · rintro e s' ⟨rfl, -⟩
      exact h
  | others s => exact h.others hc

theorem new_ends (s : Phys) :
    Ends PageTableManager.new s (fun r s' => ∀ p, r = some p → Taken s p s') (fun _ _ => False) := by
  refine Ends.bind (allocateFrame_ends s) ?_
  rintro r s1 ⟨rfl, rfl⟩
  rcases s.frames.allocate_spec with ⟨p, hp, hfree, hrest, ha⟩ | ⟨hnone, -⟩
  · rw [hp]
    refine ends_bind (ends_modify (ends_pure ?_))
    rintro _ ⟨rfl⟩
    exact ⟨⟨hfree, hrest, ha⟩, rfl⟩
  · rw [hnone]
    refine ends_pure ?_
    rintro _ ⟨⟩

section

variable (hnew : PageTableManager.new.exec s = (.ok (some p4), s'))
include hnew

theorem taken_new : Taken s p4 s' := by
  exact (new_ends s).ok hnew p4 rfl

theorem Inv.new : Inv p4 ⟨s', []⟩ := by
  have ht := taken_new hnew
  have habs : ∀ i, ¬X86.present (X86.entry s'.mem p4.frame i) := by
    intro i
    rw [ht.mem, entry_fill_self]
    decide
  let role : Nat → Option Role := Function.update (fun _ => none) p4.frame (some (.table []))
  have hrole : ∀ f r, role f = some r ↔ f = p4.frame ∧ r = .table [] := by
    intro f r
    by_cases hf : f = p4.frame
    · simp [role, hf, eq_comm]
    · simp [role, hf]
  have htree : Tree (fun _ => True) role s'.mem := by
    refine { lt := ?_, len := ?_, child := ?_, parent := ?_, inj := ?_ }
    · intro f r hf
      rw [((hrole f r).1 hf).1]
      exact p4.frame_lt
    · grind
    · grind
    · simp_all
    · grind
  refine ⟨⟨role, ⟨htree, ?_⟩, (hrole _ _).2 ⟨rfl, rfl⟩⟩, fun v => ?_⟩
  · intro f r hf hfree
    exact ((ht.rest f).1 hfree).2 ((hrole f r).1 hf).1
  · rw [translate_eq_lookup, indices_eq]
    simp [lookup, habs, mappedTo]

end

/-- What it means for the tables of a manager to be a finite map. -/
structure FiniteMap (p4 : PhysAddr) (st : Mapping) : Prop where
  translates : ∀ v, translate st.phys p4 v = mappedTo st.done (pageOf v)
  map_mapped : ∀ v phys flags, translate st.phys p4 v ≠ none →
    ((map p4 v phys flags).exec st.phys).1 = .error (.err "Page already mapped")
  other_pages : ∀ c, Permitted p4 st c → ∀ v, c.page ≠ some (pageOf v) →
    translate (step p4 st c).phys p4 v = translate st.phys p4 v
  failure : ∀ c, Permitted p4 st c → ∀ e s, (c.exec p4).exec st.phys = (.error e, s) →
    ∀ v, translate s p4 v = translate st.phys p4 v

theorem Inv.finiteMap (h : Inv p4 st) : FiniteMap p4 st where
  translates := h.view
  map_mapped := by
    intro v phys flags hm
    rw [map_of_mapped hm]
  other_pages := by
    intro c hc v hpage
    have hstep := (h.step hc).view v
    rw [hstep, h.view v]
    unfold Mapping.step
    cases hexec : (c.exec p4).exec st.phys with
    | mk r s =>
      cases r with
      | ok a => exact (mappedTo_cons c st.done (pageOf v)).trans (if_neg hpage)
      | error e => rfl
  failure := by
    intro c hc e s hexec v
    have hstep := (h.step hc).view v
    unfold Mapping.step at hstep
    rw [hexec] at hstep
    rw [h.view v]
    exact hstep

/-- Whatever calls follow the creation of a manager, its tables are the finite map of the calls that succeeded. -/
theorem page_tables_finite_map (s s' : Phys) (p4 : PhysAddr)
    (hnew : PageTableManager.new.exec s = (.ok (some p4), s')) (cs : List PageCall)
    (hcs : Meets (step p4) (Permitted p4) ⟨s', []⟩ cs) : FiniteMap p4 (run (step p4) ⟨s', []⟩ cs) := by
  have hinv : Always (step p4) (Inv p4) ⟨s', []⟩ cs :=
    always_of_meets (R := fun _ => True) (fun _ h => h) (fun _ _ _ h hc => h.step hc) (Inv.new hnew) (fun _ _ => trivial)
      hcs
  exact hinv.run.finiteMap

def emptyPhys : Phys :=
  { mem := fun _ => 0
    frames := { bitmap := Vector.replicate bitmapLen 0, totalFrames := maxFrames, usedFrames := 0, startSearch := 0 } }

theorem free_emptyPhys : emptyPhys.frames.Free 0 := ⟨by decide, Bitmap.test_replicate_zero (by decide) 0⟩

def mapOnce : List PageCall :=
  [.map 0x400000 (PhysAddr.ofFrame 5) PageTableEntry.present, .map 0x400000 (PhysAddr.ofFrame 6) PageTableEntry.present,
    .unmap 0x400000]

theorem new_of_free {s : Phys} {i : Nat} (hfree : s.frames.Free i) :
    ∃ p4 s', PageTableManager.new.exec s = (.ok (some p4), s') := by
  obtain ⟨p, hp⟩ := FrameAllocator.exists_allocate hfree
  have hends : Ends PageTableManager.new s (fun r _ => r = some p) (fun _ _ => False) := by
    refine Ends.bind (allocateFrame_ends s) ?_
    rintro r s1 ⟨rfl, rfl⟩
    rw [hp]
    exact ends_bind (ends_modify (ends_pure rfl))
  obtain ⟨r, s', hexec, rfl⟩ := hends.exists_ok
  exact ⟨p, s', hexec⟩

theorem exists_newTables :
    ∃ (s : Phys) (p4 : PhysAddr), PageTables (fun _ => True) s p4 ∧ (∀ v, translate s p4 v = none) ∧
      maxFrames ≤ s.frames.avail + 1 := by
  obtain ⟨p4, s, hnew⟩ := new_of_free free_emptyPhys
  have hinv := Inv.new hnew
  have ha := (taken_new hnew).avail
  have hall : emptyPhys.frames.avail = maxFrames := by
    unfold FrameAllocator.avail emptyPhys
    rw [Finset.filter_true_of_mem, Finset.card_range]
    intro f _
    exact Bitmap.test_replicate_zero (by decide) f
  exact ⟨s, p4, hinv.space, hinv.view, by omega⟩

theorem page_tables_finite_map_mapOnce :
    ∃ p4 s', PageTableManager.new.exec emptyPhys = (.ok (some p4), s') ∧
      FiniteMap p4 (run (step p4) ⟨s', []⟩ mapOnce) := by
  have hf : isPresent PageTableEntry.present = true := by decide
  obtain ⟨p4, s', hnew⟩ := new_of_free free_emptyPhys
  exact ⟨p4, s', hnew, page_tables_finite_map emptyPhys s' p4 hnew mapOnce ⟨hf, hf, trivial, trivial⟩⟩

end Mapping

end AstralOS.Memory
