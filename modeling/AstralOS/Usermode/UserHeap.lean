import AstralOS.Fs.Clean
import AstralOS.Usermode.Segments
import AstralOS.Usermode.Syscall

/-!
# The heap of a process

`sys_brk` and `sys_sbrk` move the end of the heap of the running process.  Growing maps the new pages one by one and sets the
new end at last, so a call that runs out of frames leaves the end where it was and some pages mapped beyond it; shrinking
leaves the pages mapped.  Over every run of the two calls, with the rest of the kernel running in between, the heap is backed by
pages (`user_heap_backed`).  Since `sys_brk(0)` asks for the end, an increment that leads to the address zero is accepted and
does nothing (`sbrk_moves_iff`).
-/

namespace AstralOS.Syscall

open Memory Fallible BitVec Option
open Proc (Pid Process)
open Usermode (UserHalf)

variable {s s' : SysState} {p4 : PhysAddr} {pid : Pid} {p : Process} {addr : BitVec 64}

def heapLimit : BitVec 64 := 0x0000700000000000

variable {v : BitVec 64}

theorem userHalf_of_lt (h : v < heapLimit) : UserHalf (p4Index v) := by
  have hlt : v.toNat < 0x700000000000 := h
  have hidx : p4Index v = X86.index 3 v := tableIndex_eq_index 3 v
  rw [hidx]
  change v.toNat / 2 ^ (12 + 9 * 3) % 512 < 256
  omega

theorem toNat_alignUp_page {x : BitVec 64} (h : x ≤ heapLimit) :
    (alignUp x (BitVec.ofNat 64 pageSize)).toNat = (x.toNat + 4095) / 4096 * 4096 := by
  have hle : x.toNat ≤ 0x700000000000 := h
  have hpow : BitVec.ofNat 64 pageSize = BitVec.twoPow 64 12 := rfl
  rw [hpow, alignUp_eq (by decide), toNat_ofNat]
  unfold roundUp
  omega

/-! ### Growing -/

def reported : Stop → SysStop
  | .err _ => .err .outOfMemory
  | .panic => .panic

variable {E : SysStop → SysState → Prop}

theorem ends_onPhys {α : Type} {c : PhysM α} {Q : α → SysState → Prop}
    (h : Ends c s.phys (fun a phys => Q a { s with phys }) fun e phys => E (reported e) { s with phys }) :
    Ends (onPhys c) s Q E := by
  refine ends_bind (ends_get ?_)
  cases hexec : c.exec s.phys with
  | mk r phys =>
    refine ends_bind (ends_modify ?_)
    cases r with
    | ok a => exact ends_pure (h.ok hexec)
    | error e =>
      cases e with
      | err _ | panic => exact ends_throw (h.error hexec)

def SamePhys (s s' : SysState) : Prop := ∃ phys, s' = { s with phys }

theorem SamePhys.trans {s'' : SysState} (h : SamePhys s s') (h' : SamePhys s' s'') : SamePhys s s'' := by
  obtain ⟨phys, rfl⟩ := h
  obtain ⟨phys', rfl⟩ := h'
  exact ⟨phys', rfl⟩

/-- The tables are in order, and what was mapped still is. -/
structure Backs (p4 : PhysAddr) (s s' : SysState) : Prop where
  same : SamePhys s s'
  tables : PageTables UserHalf s'.phys p4
  kept : ∀ v, UserHalf (p4Index v) → translate s.phys p4 v ≠ none → translate s'.phys p4 v ≠ none

theorem Backs.trans {s'' : SysState} (h : Backs p4 s s') (h' : Backs p4 s' s'') : Backs p4 s s'' :=
  ⟨h.same.trans h'.same, h'.tables, fun v hv hm => h'.kept v hv (h.kept v hv hm)⟩

theorem growPage_same (s : SysState) (p4 : PhysAddr) (startPage : BitVec 64) (i : Nat) :
    Ends (growPage p4 startPage i) s (fun _ s' => SamePhys s s') fun _ s' => SamePhys s s' := by
  refine ends_bind (ends_get ?_)
  by_cases hm : (translate s.phys p4 (startPage + BitVec.ofNat 64 (i * pageSize))).isSome
  · rw [if_pos hm]
    exact ends_pure ⟨s.phys, rfl⟩
  · rw [if_neg hm]
    exact ends_onPhys ((ends_true _ s.phys).mono (fun _ phys _ => ⟨phys, rfl⟩) fun _ phys _ => ⟨phys, rfl⟩)

theorem growPage_ends (h : PageTables UserHalf s.phys p4) {startPage : BitVec 64} {i : Nat}
    (hv : UserHalf (p4Index (startPage + BitVec.ofNat 64 (i * pageSize)))) :
    Ends (growPage p4 startPage i) s
      (fun _ s' => Backs p4 s s' ∧ translate s'.phys p4 (startPage + BitVec.ofNat 64 (i * pageSize)) ≠ none)
      (fun e s' => e = .err .outOfMemory ∧ Backs p4 s s') := by
  unfold growPage
  generalize startPage + BitVec.ofNat 64 (i * pageSize) = virt at hv ⊢
  refine ends_bind (ends_get ?_)
  cases ht : translate s.phys p4 virt with
  | some q =>
    refine ends_pure ⟨⟨⟨s.phys, rfl⟩, h, fun _ _ hm => hm⟩, ?_⟩
    rw [ht]
    exact some_ne_none q
  | none =>
    refine ends_onPhys (ends_bind_of (h.allocateZeroed "Out of memory") ?_ ?_)
    · rintro frame phys1 ⟨hta1, hsame1⟩
      refine (hta1.map hv (by decide) (by rw [hsame1 _ hv, ht])).mono ?_ ?_
      · rintro _ phys2 ⟨hta2, hmap, -⟩
        refine ⟨⟨⟨phys2, rfl⟩, hta2, fun v hdom hm => ?_⟩, ?_⟩
        · rw [← hsame1 v hdom] at hm
          rw [hmap v hdom]
          split
          · exact some_ne_none _
          · exact hm
        · simp [hmap _ hv]
      · rintro e phys2 ⟨hta2, hsame2, rfl, -⟩
        refine ⟨rfl, ⟨phys2, rfl⟩, hta2, fun v hdom hm => ?_⟩
        rwa [hsame2 v hdom, hsame1 v hdom]
    · rintro e phys1 ⟨rfl, hta1, hsame1⟩
      refine ⟨rfl, ⟨phys1, rfl⟩, hta1, fun v hdom hm => ?_⟩
      rwa [hsame1 v hdom]

theorem growPages_same (s : SysState) (p4 : PhysAddr) (startPage : BitVec 64) (n : Nat) :
    Ends (forM (List.range n) (growPage p4 startPage)) s (fun _ s' => SamePhys s s') fun _ s' => SamePhys s s' :=
  keeps_forM (List.range n)
    (fun i _ s1 h => (growPage_same s1 p4 startPage i).mono (fun _ _ h' => h.trans h') fun _ _ h' => h.trans h')
    s ⟨s.phys, rfl⟩

theorem growPages_ends (h : PageTables UserHalf s.phys p4) {startPage : BitVec 64} {n : Nat}
    (hv : ∀ i < n, UserHalf (p4Index (startPage + BitVec.ofNat 64 (i * pageSize)))) :
    Ends (forM (List.range n) (growPage p4 startPage)) s
      (fun _ s' => Backs p4 s s' ∧ ∀ i < n, translate s'.phys p4 (startPage + BitVec.ofNat 64 (i * pageSize)) ≠ none)
      (fun e s' => e = .err .outOfMemory ∧ Backs p4 s s') := by
  refine (ends_forM_done (List.range n) (fun done s' => Backs p4 s s' ∧
    ∀ i ∈ done, translate s'.phys p4 (startPage + BitVec.ofNat 64 (i * pageSize)) ≠ none) ?_ ?_).imp ?_
  · rintro done i rest s1 hdone ⟨hb, hma⟩
    have hlt : ∀ j ∈ done ++ i :: rest, j < n := by
      simp [hdone]
    refine (growPage_ends hb.tables (hv i (hlt i (by simp)))).mono ?_ ?_
    · rintro _ s2 ⟨hb', hnew⟩
      refine ⟨hb.trans hb', fun j hj => ?_⟩
      rcases List.mem_append.1 hj with hj | hj
      · exact hb'.kept _ (hv j (hlt j (List.mem_append_left _ hj))) (hma j hj)
      · grind
    · rintro e s2 ⟨he, hb'⟩
      exact ⟨he, hb.trans hb'⟩
  · exact ⟨⟨⟨s.phys, rfl⟩, h, fun _ _ hm => hm⟩, by simp⟩
  · simp

/-! ### The calls -/

/-- The process `p` is running. -/
structure Current (pid : Pid) (p : Process) (s : SysState) : Prop where
  running : s.procs.getCurrentPid = some pid
  found : s.procs.table.get pid = some p

theorem Current.samePhys (h : Current pid p s) (hs : SamePhys s s') : Current pid p s' := by
  obtain ⟨phys, rfl⟩ := hs
  exact ⟨h.running, h.found⟩

theorem ends_orInvalid_bind {α β : Type} {o : Option α} {f : α → SyscallM β} {Q : β → SysState → Prop}
    (hsome : ∀ a, o = some a → Ends (f a) s Q E)
    (hnone : o = none → E (.err .invalidArgument) s) : Ends (orInvalid o >>= f) s Q E := by
  cases o with
  | none => exact ends_bind (ends_throw (hnone rfl))
  | some a => exact ends_bind (ends_pure (hsome a rfl))

theorem Current.ends_bind {β : Type} (h : Current pid p s) {f : Pid → Process → SyscallM β} {Q : β → SysState → Prop}
    (hf : Ends (f pid p) s Q E) :
    Ends (do
      let s : SysState ← get
      let pid ← orInvalid s.procs.getCurrentPid
      let proc ← orInvalid (s.procs.table.get pid)
      f pid proc) s Q E := by
  refine Fallible.ends_bind (ends_get (ends_orInvalid_bind (fun pid' hpid => ?_) fun hnone => ?_))
  · rw [h.running, some.injEq] at hpid
    subst hpid
    refine ends_orInvalid_bind (fun p' hp => ?_) fun hnone => ?_
    · simp_all [h.found, some.injEq]
    · rw [h.found] at hnone
      cases hnone
  · rw [h.running] at hnone
    cases hnone

def newEnd (addr : BitVec 64) : BitVec 64 := alignUp addr (BitVec.ofNat 64 pageSize)

def growPages (p : Process) (addr : BitVec 64) : SyscallM PUnit :=
  forM (List.range ((newEnd addr - alignUp p.heapEnd (BitVec.ofNat 64 pageSize) + BitVec.ofNat 64 pageSize - 1).toNat / pageSize))
    (growPage (.new p.pageTable) (alignUp p.heapEnd (BitVec.ofNat 64 pageSize)))

theorem Current.setHeapEnd_ends (h : Current pid p s) (heapEnd : BitVec 64) :
    Ends (setHeapEnd pid heapEnd) s (fun _ s' => Current pid { p with heapEnd } s' ∧ s'.phys = s.phys) fun _ _ => False := by
  have hf : (s.procs.table.modify pid fun p => { p with heapEnd }).get pid = some { p with heapEnd } := by
    simp [Proc.ProcessTable.get_modify, h.found]
  exact ends_modify ⟨⟨h.running, hf⟩, rfl⟩

theorem sysBrk_ends (h : Current pid p s) (addr : BitVec 64) {L : SysState → Prop} {F : SysStop → SysState → Prop}
    (hloop : p.heapStart ≤ addr → addr < heapLimit → p.heapEnd < newEnd addr → Ends (growPages p addr) s (fun _ => L) F)
    (hL : ∀ s1, L s1 → Current pid p s1) :
    Ends (sysBrk addr) s
      (fun r s' => addr = 0 ∧ r = p.heapEnd ∧ s' = s ∨
        addr ≠ 0 ∧ p.heapStart ≤ addr ∧ addr < heapLimit ∧ r = newEnd addr ∧ Current pid { p with heapEnd := newEnd addr } s' ∧
          ∃ s1, s'.phys = s1.phys ∧ (p.heapEnd < newEnd addr ∧ L s1 ∨ newEnd addr ≤ p.heapEnd ∧ s1 = s))
      (fun e s' => addr ≠ 0 ∧ (addr < p.heapStart ∨ heapLimit ≤ addr) ∧ e = .err .invalidArgument ∧ s' = s ∨
        p.heapStart ≤ addr ∧ addr < heapLimit ∧ p.heapEnd < newEnd addr ∧ F e s') := by
  refine h.ends_bind ?_
  by_cases hzero : addr = 0
  · rw [if_pos hzero]
    exact ends_pure (Or.inl ⟨hzero, rfl, rfl⟩)
  rw [if_neg hzero]
  by_cases hr : addr < p.heapStart ∨ addr ≥ 0x0000700000000000
  · rw [if_pos hr]
    exact ends_throw (Or.inl ⟨hzero, hr, rfl, rfl⟩)
  rw [if_neg hr]
  obtain ⟨hst, hl⟩ := not_or.1 hr
  replace hst : p.heapStart ≤ addr := BitVec.not_lt.1 hst
  replace hl : addr < heapLimit := BitVec.not_le.1 hl
  have hnew : alignUp addr (BitVec.ofNat 64 pageSize) = newEnd addr := rfl
  rw [hnew]
  by_cases hgrow : newEnd addr > p.heapEnd
  · rw [if_pos hgrow]
    refine ends_bind_of (hloop hst hl hgrow) (fun _ s1 hs1 => ?_) fun e s1 he => Or.inr ⟨hst, hl, hgrow, he⟩
    refine ends_bind_of ((hL s1 hs1).setHeapEnd_ends (newEnd addr)) (fun _ s2 hs2 => ?_) fun _ _ hf => hf.elim
    exact ends_pure (Or.inr ⟨hzero, hst, hl, rfl, hs2.1, s1, hs2.2, Or.inl ⟨hgrow, hs1⟩⟩)
  · rw [if_neg hgrow]
    have hle : newEnd addr ≤ p.heapEnd := BitVec.not_lt.1 hgrow
    by_cases hsh : newEnd addr < p.heapEnd
    · refine ends_bind_of (R := fun _ s2 => Current pid { p with heapEnd := newEnd addr } s2 ∧ s2.phys = s.phys) ?_
        (fun _ s2 hs2 => ?_) fun _ _ hf => hf
      · rw [if_pos hsh]
        exact (h.setHeapEnd_ends (newEnd addr)).mono (fun _ _ hq => hq) fun _ _ hf => hf.elim
      · exact ends_pure (Or.inr ⟨hzero, hst, hl, rfl, hs2.1, s, hs2.2, Or.inr ⟨hle, rfl⟩⟩)
    · have heq : newEnd addr = p.heapEnd := BitVec.le_antisymm hle (BitVec.not_lt.1 hsh)
      refine ends_bind ?_
      rw [if_neg hsh]
      refine ends_pure (ends_pure (Or.inr ⟨hzero, hst, hl, rfl, ?_, s, rfl, Or.inr ⟨hle, rfl⟩⟩))
      rw [heq]
      exact h

variable {increment : BitVec 64}

theorem sysSbrk_ends (h : Current pid p s) {Q : BitVec 64 → SysState → Prop} (hzero : increment = 0 → Q p.heapEnd s)
    (hnone : moveBreak p.heapEnd increment = none → E (.err .invalidArgument) s)
    (hbrk : ∀ addr, increment ≠ 0 → moveBreak p.heapEnd increment = some addr →
      Ends (sysBrk addr) s (fun _ => Q p.heapEnd) E) :
    Ends (sysSbrk increment) s Q E := by
  refine h.ends_bind (ends_orInvalid_bind (fun addr haddr => ?_) hnone)
  by_cases hk : increment ≠ 0
  · rw [if_pos hk]
    exact Ends.bind (hbrk addr hk haddr) (fun _ _ hq => ends_pure hq)
  · rw [if_neg hk]
    exact ends_pure (hzero (not_not.1 hk))

theorem toNat_of_moveBreak {old addr : BitVec 64} (h : moveBreak old increment = some addr) :
    (addr.toNat : Int) = old.toNat + increment.toInt := by
  have hold := old.isLt
  have hinc := increment.isLt
  unfold moveBreak at h
  rw [toInt_eq_msb_cond]
  by_cases hneg : increment.msb
  · rw [if_pos hneg] at h
    by_cases hle : -increment ≤ old
    · grind [some.injEq, le_def, toNat_neg]
    · rw [if_neg hle] at h
      cases h
  · rw [if_neg hneg] at h
    by_cases hlt : old.toNat + increment.toNat < 2 ^ 64
    · grind
    · rw [if_neg hlt] at h
      cases h

/-! ### The heap stays backed -/

/-- The heap of the running process ends on a page boundary, below the limit if it is not empty, and each of its addresses has a
page. -/
structure HeapBacked (pid : Pid) (p : Process) (s : SysState) : Prop where
  current : Current pid p s
  aligned : p.heapEnd.toNat % 4096 = 0
  start_le : p.heapStart ≤ p.heapEnd
  limit : p.heapEnd = p.heapStart ∨ p.heapEnd ≤ heapLimit
  mapped : ∀ v, p.heapStart ≤ v → v < p.heapEnd → (X86.walk s.phys.mem v 3 (PhysAddr.new p.pageTable).frame).isSome

/-- The same with the tables of user addresses in order. -/
structure HeapInv (pid : Pid) (p : Process) (s : SysState) : Prop extends HeapBacked pid p s where
  tables : PageTables UserHalf s.phys (.new p.pageTable)

theorem HeapBacked.lt_limit (h : HeapBacked pid p s) (hs : p.heapStart ≤ v) (hend : v < p.heapEnd) :
    v < heapLimit := by
  rcases h.limit with heq | hle
  · grind
  · exact lt_def.2 (Nat.lt_of_lt_of_le hend hle)

section

variable (h : HeapInv pid p s)
include h

theorem HeapInv.translated (hs : p.heapStart ≤ v) (hend : v < p.heapEnd) :
    translate s.phys (.new p.pageTable) v ≠ none := by
  have hm := h.mapped v hs hend
  simp_all [h.tables.isSome_walk (userHalf_of_lt (h.lt_limit hs hend)), isSome_iff_ne_none]

theorem HeapInv.growPages_ends (hl : addr < heapLimit) (hgrow : p.heapEnd < newEnd addr) :
    Ends (growPages p addr) s
      (fun _ s' => Backs (.new p.pageTable) s s' ∧
        ∀ v, p.heapEnd ≤ v → v < newEnd addr → translate s'.phys (.new p.pageTable) v ≠ none)
      (fun _ s' => Backs (.new p.pageTable) s s') := by
  have hlt : addr.toNat < 0x700000000000 := hl
  have hpage : pageSize = 4096 := rfl
  have hnew := toNat_alignUp_page (BitVec.le_of_lt hl)
  have hgrow' : p.heapEnd.toNat < (newEnd addr).toNat := hgrow
  change (newEnd addr).toNat = _ at hnew
  have ha := h.aligned
  have hs : alignUp p.heapEnd (BitVec.ofNat 64 pageSize) = p.heapEnd := by
    apply eq_of_toNat_eq
    rw [toNat_alignUp_page (BitVec.le_def.2 (by change _ ≤ 0x700000000000; omega))]
    omega
  have hc : (newEnd addr - p.heapEnd + BitVec.ofNat 64 pageSize - 1).toNat / pageSize =
      ((newEnd addr).toNat - p.heapEnd.toNat) / 4096 := by
    change (2 ^ 64 - 1 + ((2 ^ 64 - p.heapEnd.toNat + (newEnd addr).toNat) % 2 ^ 64 + 4096) % 2 ^ 64) % 2 ^ 64 / 4096 = _
    omega
  have hvirt : ∀ i < ((newEnd addr).toNat - p.heapEnd.toNat) / 4096,
      (p.heapEnd + BitVec.ofNat 64 (i * pageSize)).toNat = p.heapEnd.toNat + i * 4096 := by
    intro i hi
    rw [toNat_add, toNat_ofNat, hpage]
    omega
  unfold growPages
  rw [hs, hc]
  refine (Syscall.growPages_ends h.tables fun i hi => ?_).mono ?_ fun _ _ he => he.2
  · refine userHalf_of_lt (lt_def.2 ?_)
    rw [hvirt i hi]
    change _ < 0x700000000000
    omega
  · rintro _ s' ⟨hb, hm⟩
    refine ⟨hb, fun v hlo hhi => ?_⟩
    have hlo' : p.heapEnd.toNat ≤ v.toNat := hlo
    have hhi' : v.toNat < (newEnd addr).toNat := hhi
    have hi : (v.toNat - p.heapEnd.toNat) / 4096 < ((newEnd addr).toNat - p.heapEnd.toNat) / 4096 := by omega
    have hsame : pageOf v = pageOf (p.heapEnd + BitVec.ofNat 64 ((v.toNat - p.heapEnd.toNat) / 4096 * pageSize)) := by
      grind [pageOf]
    rw [translate_congr hsame]
    exact hm _ hi

theorem HeapInv.sysBrk (addr : BitVec 64) :
    Ends (sysBrk addr) s
      (fun _ s' => ∃ q, HeapInv pid q s' ∧ q.heapStart = p.heapStart ∧ q.pageTable = p.pageTable)
      (fun _ s' => HeapInv pid p s') := by
  have hba : ∀ {s'}, Backs (.new p.pageTable) s s' → HeapInv pid p s' := by
    intro s' hb
    refine ⟨⟨h.current.samePhys hb.same, h.aligned, h.start_le, h.limit, fun v hlo hhi => ?_⟩, hb.tables⟩
    have hhalf := userHalf_of_lt (h.lt_limit hlo hhi)
    rw [hb.tables.isSome_walk hhalf, isSome_iff_ne_none]
    exact hb.kept v hhalf (h.translated hlo hhi)
  refine (sysBrk_ends h.current addr (fun _ hl hgrow => h.growPages_ends hl hgrow)
    fun s1 hs1 => (hba hs1.1).current).mono ?_ ?_
  · rintro r s' (⟨-, -, rfl⟩ | ⟨-, hst, hl, -, hcur, s1, hphys, hcase⟩)
    · exact ⟨p, h, rfl, rfl⟩
    · have hlt : addr.toNat < 0x700000000000 := hl
      have hnew := toNat_alignUp_page (BitVec.le_of_lt hl)
      change (newEnd addr).toNat = _ at hnew
      have hle : addr ≤ newEnd addr := le_def.2 (by omega)
      have htop : newEnd addr ≤ heapLimit := le_def.2 (by change _ ≤ 0x700000000000; omega)
      have ht : PageTables UserHalf s'.phys (.new p.pageTable) := by
        rw [hphys]
        rcases hcase with ⟨-, hb, -⟩ | ⟨-, rfl⟩
        · exact hb.tables
        · exact h.tables
      have hm : ∀ v, p.heapStart ≤ v → v < newEnd addr → translate s'.phys (.new p.pageTable) v ≠ none := by
        intro v hlo hhi
        rw [hphys]
        rcases hcase with ⟨-, hb, hloop⟩ | ⟨hsh, rfl⟩
        · by_cases hold : v < p.heapEnd
          · exact hb.kept v (userHalf_of_lt (h.lt_limit hlo hold)) (h.translated hlo hold)
          · exact hloop v (BitVec.not_lt.1 hold) hhi
        · exact h.translated hlo (lt_def.2 (Nat.lt_of_lt_of_le hhi hsh))
      refine ⟨{ p with heapEnd := newEnd addr }, ⟨⟨hcur, ?_, ?_, Or.inr htop, fun v hlo hhi => ?_⟩, ht⟩, rfl, rfl⟩
      · simp_all
      · exact BitVec.le_trans hst hle
      · rw [ht.isSome_walk (userHalf_of_lt (lt_def.2 (Nat.lt_of_lt_of_le hhi htop))), isSome_iff_ne_none]
        exact hm v hlo hhi
  · rintro e s' (⟨-, -, -, rfl⟩ | ⟨-, -, -, hb⟩)
    · exact h
    · exact hba hb

theorem HeapInv.sysSbrk (increment : BitVec 64) :
    Ends (sysSbrk increment) s
      (fun _ s' => ∃ q, HeapInv pid q s' ∧ q.heapStart = p.heapStart ∧ q.pageTable = p.pageTable)
      (fun _ s' => HeapInv pid p s') :=
  sysSbrk_ends h.current (fun _ => ⟨p, h, rfl, rfl⟩) (fun _ => h) fun addr _ _ => h.sysBrk addr

end

/-! ### Runs -/

/-- The calls on the heap.  Between them the rest of the kernel runs and leaves some state. -/
inductive HeapCall
  | brk (addr : BitVec 64)
  | sbrk (increment : BitVec 64)
  | others (s : SysState)

namespace HeapCall

def call : HeapCall → SyscallM (BitVec 64)
  | .brk addr => sysBrk addr
  | .sbrk increment => sysSbrk increment
  | .others s => do
    set s
    return 0

def exec (s : SysState) (c : HeapCall) : SysState := (c.call.exec s).2

/-- When the process runs again, the rest of the kernel has not changed its heap region and its page table, and has neither
written nor freed the tables of its user addresses.  Frames may have been taken, up to the last one. -/
def Permitted (pid : Pid) (s : SysState) : HeapCall → Prop
  | .brk _ | .sbrk _ => True
  | .others s' => ∀ p, Current pid p s → KeepsTables UserHalf (.new p.pageTable) s.phys s'.phys ∧
      ∃ q, Current pid q s' ∧ q.heapStart = p.heapStart ∧ q.heapEnd = p.heapEnd ∧ q.pageTable = p.pageTable

end HeapCall

theorem HeapInv.others (h : HeapInv pid p s) (hc : HeapCall.Permitted pid s (.others s')) :
    ∃ q, HeapInv pid q s' ∧ q.heapStart = p.heapStart ∧ q.pageTable = p.pageTable := by
  obtain ⟨hk, q, hcur, hs, hend, htable⟩ := hc p h.current
  obtain ⟨htables, htr⟩ := h.tables.others hk
  refine ⟨q, ⟨⟨hcur, ?_, ?_, ?_, fun v hlo hhi => ?_⟩, ?_⟩, hs, htable⟩
  · rw [hend]
    exact h.aligned
  · rw [hs, hend]
    exact h.start_le
  · rw [hs, hend]
    exact h.limit
  · rw [hs] at hlo
    rw [hend] at hhi
    have hhalf := userHalf_of_lt (h.lt_limit hlo hhi)
    rw [htable, htables.isSome_walk hhalf, htr v hhalf, ← h.tables.isSome_walk hhalf]
    exact h.mapped v hlo hhi
  · rw [htable]
    exact htables

theorem HeapInv.call (h : HeapInv pid p s) {c : HeapCall} (hc : c.Permitted pid s) :
    Ends c.call s
      (fun _ s' => ∃ q, HeapInv pid q s' ∧ q.heapStart = p.heapStart ∧ q.pageTable = p.pageTable)
      (fun _ s' => HeapInv pid p s') := by
  cases c with
  | brk addr => exact h.sysBrk addr
  | sbrk increment => exact h.sysSbrk increment
  | others s' => exact ends_bind (h.others hc)

/-- For every process whose heap starts empty on a page boundary, and every run of the two calls: the heap is backed, and a call
that fails leaves its end where it is. -/
theorem user_heap_backed (pid : Pid) (p : Process) (s : SysState) (hp : Current pid p s)
    (htables : PageTables UserHalf s.phys (.new p.pageTable)) (haligned : p.heapStart.toNat % 4096 = 0)
    (hempty : p.heapEnd = p.heapStart) (cs : List HeapCall) (hcs : Meets HeapCall.exec (HeapCall.Permitted pid) s cs) :
    ∃ q, HeapBacked pid q (run HeapCall.exec s cs) ∧ q.heapStart = p.heapStart ∧ q.pageTable = p.pageTable ∧
      ∀ (c : HeapCall) (e : SysStop) (s' : SysState), c.Permitted pid (run HeapCall.exec s cs) →
        c.call.exec (run HeapCall.exec s cs) = (.error e, s') → ∃ q', Current pid q' s' ∧ q'.heapEnd = q.heapEnd := by
  let I : SysState → Prop := fun s => ∃ q, HeapInv pid q s ∧ q.heapStart = p.heapStart ∧ q.pageTable = p.pageTable
  have hs : I s := by
    refine ⟨p, ⟨⟨hp, ?_, ?_, Or.inl hempty, fun v hlo hhi => ?_⟩, htables⟩, rfl, rfl⟩
    · rw [hempty]
      exact haligned
    · rw [hempty]
      exact BitVec.le_refl _
    · grind
  have hstep : ∀ s c, I s → c.Permitted pid s → I (HeapCall.exec s c) := by
    rintro s c ⟨q, hq, hqs, hqt⟩ hc
    refine ((hq.call hc).mono ?_ ?_).state
    · grind
    · exact fun _ s' hq' => ⟨q, hq', hqs, hqt⟩
  have hrun : Always HeapCall.exec I s cs :=
    always_of_meets (R := fun _ => True) (fun _ h => h) (fun s c _ h hc => hstep s c h hc) hs (fun _ _ => trivial) hcs
  obtain ⟨q, hq, hqs, hqt⟩ := hrun.run
  exact ⟨q, hq.toHeapBacked, hqs, hqt, fun c e s' hc hexec => ⟨q, ((hq.call hc).error hexec).current, rfl⟩⟩

def heapState (phys : Phys) (pageTable heapStart heapEnd : BitVec 64) : SysState where
  phys := phys
  cr3 := pageTable
  touched := []
  keys := []
  fs := Fs.blankState
  graphics := none
  procs :=
    { Proc.Sys.boot ⟨some { Process.new 1 with pageTable, heapStart, heapEnd } :: List.replicate 255 none, 1, by
        rw [List.length_cons, List.length_replicate]; rfl⟩ 1 with currentPid := 1 }
  cpu := 0
  realityCounter := 0
  currentReality := 0
  shellExitRequested := false
  output := []

theorem current_heapState (phys : Phys) (pageTable heapStart heapEnd : BitVec 64) :
    Current 1 { Process.new 1 with pageTable, heapStart, heapEnd } (heapState phys pageTable heapStart heapEnd) := ⟨rfl, rfl⟩

/-- Grow by a byte, grow by a page, shrink below the start of the heap. -/
def growAndShrink : List HeapCall := [.brk 0x400001, .sbrk 0x1000, .sbrk (-0x400000)]

theorem user_heap_backed_growAndShrink :
    ∃ s, Meets HeapCall.exec (HeapCall.Permitted 1) s growAndShrink ∧
      ∃ q, HeapBacked 1 q (run HeapCall.exec s growAndShrink) ∧ q.heapStart = 0x400000 := by
  obtain ⟨phys, p4, ht, -, -⟩ := Mapping.exists_newTables
  have hp4 : PhysAddr.new p4.addr = p4 := PhysAddr.ext p4.masked
  have hm : Meets HeapCall.exec (HeapCall.Permitted 1) (heapState phys p4.addr 0x400000 0x400000) growAndShrink :=
    ⟨trivial, trivial, trivial, trivial⟩
  have ha : (0x400000 : BitVec 64).toNat % 4096 = 0 := by decide
  obtain ⟨q, hq, hs, -, -⟩ := user_heap_backed 1 _ _ (current_heapState phys p4.addr 0x400000 0x400000)
    (by rw [hp4]; exact ht.mono fun _ _ => trivial) ha rfl growAndShrink hm
  exact ⟨_, hm, q, hq, hs⟩

/-! ### The increment -/

/-- What `sys_sbrk` is to do when it returns `r`: the old break is returned, the new one is in range, and the heap ends at the
page boundary after it. -/
structure BreakMoved (pid : Pid) (p : Process) (increment r : BitVec 64) (s' : SysState) : Prop where
  old : r = p.heapEnd
  start_le : (p.heapStart.toNat : Int) ≤ p.heapEnd.toNat + increment.toInt
  lt_limit : p.heapEnd.toNat + increment.toInt < heapLimit.toNat
  moved : ∃ q, Current pid q s' ∧ (q.heapEnd.toNat : Int) = (p.heapEnd.toNat + increment.toInt + 4095) / 4096 * 4096

/-- `sys_sbrk`, whenever it returns `Ok` for an increment other than zero: the address it gives to `sys_brk` is the break plus the
increment, and either that is zero and nothing happens, or the break moves there. -/
theorem sysSbrk_moves (h : Current pid p s) (hk : increment ≠ 0) : Ends (sysSbrk increment) s
      (fun r s' => (p.heapEnd.toNat : Int) + increment.toInt = 0 ∧ s' = s ∨
        (p.heapEnd.toNat : Int) + increment.toInt ≠ 0 ∧ BreakMoved pid p increment r s')
      (fun _ _ => True) := by
  refine sysSbrk_ends h (fun hzero => absurd hzero hk) (fun _ => trivial) fun addr _ haddr => ?_
  have hint := toNat_of_moveBreak haddr
  refine (sysBrk_ends h addr (fun _ _ _ => growPages_same s (.new p.pageTable) _ _) fun _ hs1 => h.samePhys hs1).mono ?_
    fun _ _ _ => trivial
  rintro r s' (⟨rfl, -, rfl⟩ | ⟨hne, hs, hl, -, hcur, -⟩)
  · exact Or.inl ⟨hint.symm, rfl⟩
  · have hs' : p.heapStart.toNat ≤ addr.toNat := hs
    have hl' : addr.toNat < heapLimit.toNat := hl
    have hnz : addr.toNat ≠ 0 := fun hz => hne (eq_of_toNat_eq hz)
    refine Or.inr ⟨by omega, rfl, by omega, by omega, _, hcur, ?_⟩
    have hnew := toNat_alignUp_page (BitVec.le_of_lt hl)
    change (newEnd addr).toNat = _ at hnew
    rw [hnew]
    omega

/-- When `sys_sbrk` returns `Ok` for an increment other than zero, the break has moved exactly if it does not lead to the address
zero. -/
theorem sbrk_moves_iff (pid : Pid) (p : Process) (s s' : SysState) (hp : Current pid p s) (increment r : BitVec 64)
    (hk : increment ≠ 0) (hok : (sysSbrk increment).exec s = (.ok r, s')) :
    BreakMoved pid p increment r s' ↔ (p.heapEnd.toNat : Int) + increment.toInt ≠ 0 := by
  rcases (sysSbrk_moves hp hk).ok hok with ⟨hzero, rfl⟩ | ⟨hne, hmo⟩
  · refine ⟨fun hm => ?_, fun hne => absurd hzero hne⟩
    -- the heap ends where it did, and that is not zero
    obtain ⟨q, hq, hend⟩ := hm.moved
    have hqp : q = p := some.inj (hq.found.symm.trans hp.found)
    rw [hqp, hzero] at hend
    intro _
    have hpz : p.heapEnd.toNat = 0 := by omega
    refine hk (eq_of_toInt_eq ?_)
    change increment.toInt = 0
    omega
  · exact ⟨fun _ => hne, fun _ => hmo⟩

theorem exists_sysSbrk (h : Current pid p s) (increment addr : BitVec 64)
    (haddr : moveBreak p.heapEnd increment = some addr)
    (hr : addr = 0 ∨ p.heapStart ≤ addr ∧ addr < heapLimit) (hle : newEnd addr ≤ p.heapEnd) :
    ∃ r s', (sysSbrk increment).exec s = (.ok r, s') := by
  have hends : Ends (sysSbrk increment) s (fun _ _ => True) fun _ _ => False := by
    refine sysSbrk_ends h (fun _ => trivial) (fun hnone => ?_) fun addr' _ haddr' => ?_
    · rw [haddr] at hnone
      cases hnone
    · rw [haddr, some.injEq] at haddr'
      subst haddr'
      refine (sysBrk_ends h addr (L := fun _ => False) (F := fun _ _ => False)
        (fun _ _ hgrow => absurd hle (BitVec.not_le.2 hgrow)) fun _ hf => hf.elim).mono (fun _ _ _ => trivial) ?_
      rintro e s' (⟨hne, hout, -, -⟩ | ⟨-, -, -, hf⟩)
      · grind
      · exact hf
  obtain ⟨r, s', hok, -⟩ := hends.exists_ok
  exact ⟨r, s', hok⟩

def threePages : SysState := heapState Mapping.emptyPhys 0 0x400000 0x403000

theorem sbrk_moves_back :
    ∃ r s', (sysSbrk (-0x1000)).exec threePages = (.ok r, s') ∧
      BreakMoved 1 { Process.new 1 with heapStart := 0x400000, heapEnd := 0x403000 } (-0x1000) r s' := by
  have hcur := current_heapState Mapping.emptyPhys 0 0x400000 0x403000
  obtain ⟨r, s', hok⟩ := exists_sysSbrk hcur (-0x1000) 0x402000 (by decide) (by decide) (by decide)
  exact ⟨r, s', hok, (sbrk_moves_iff 1 _ _ s' hcur (-0x1000) r (by decide) hok).2 (by decide)⟩

/-- Taking all three pages and everything below them away is accepted, and nothing happens. -/
theorem sbrk_to_zero_accepted :
    ¬ ∀ (pid : Pid) (p : Process) (s s' : SysState) (increment r : BitVec 64), Current pid p s → increment ≠ 0 →
      (sysSbrk increment).exec s = (.ok r, s') → BreakMoved pid p increment r s' := by
  intro hall
  have hcur := current_heapState Mapping.emptyPhys 0 0x400000 0x403000
  obtain ⟨r, s', hok⟩ := exists_sysSbrk hcur (-0x403000) 0 (by decide) (by decide) (by decide)
  have hs := (hall 1 _ _ s' (-0x403000) r hcur (by decide) hok).start_le
  revert hs
  decide

end AstralOS.Syscall
