import AstralOS.Memory.PageSpace

/-!
# Translation in software

`translate` reads four tables and looks at the present bits alone, so it is the lookup of the address in memory
(`translate_eq_lookup`).  The CPU stops at an entry with the large page bit and adds the offset in the page, which
`PhysAddr::new` masks away.  `translate_eq_walk_iff` says for which memories and addresses the two agree.
-/

namespace AstralOS.Memory

open Option

open X86 (lookup indices entry index present huge target walk)
open PageTableEntry (isPresent physicalAddress)

theorem Phys.next_eq (s : Phys) (table : PhysAddr) (i : Fin 512) :
    s.next table i =
      if present (X86.entry s.mem table.frame i) then some (physicalAddress (X86.entry s.mem table.frame i)) else none := by
  unfold Phys.next Phys.entry
  rw [isPresent_eq]

theorem lookup_cons_eq_next {is : List (Fin 512)} (h : is ≠ []) (s : Phys) (table : PhysAddr) (i : Fin 512) :
    lookup s.mem table.frame (i :: is) = (s.next table i).bind fun p => lookup s.mem p.frame is := by
  rw [X86.lookup_cons h, s.next_eq]
  by_cases hp : present (entry s.mem table.frame i)
  · rw [if_pos hp, if_pos hp, bind_some, frame_physicalAddress]
  · rw [if_neg hp, if_neg hp, bind_none]

theorem lookup_singleton_map (s : Phys) (table : PhysAddr) (i : Fin 512) :
    (lookup s.mem table.frame [i]).map physicalAddress = s.next table i := by
  rw [X86.lookup_singleton, s.next_eq]
  by_cases hp : present (entry s.mem table.frame i)
  · rw [if_pos hp, if_pos hp, map_some]
  · rw [if_neg hp, if_neg hp, map_none]

theorem new_add_pageOffset (p : PhysAddr) (virt : BitVec 64) : PhysAddr.new (p.addr + pageOffset virt) = p := by
  have hlt := p.frame_lt
  have hsize : pageSize = 4096 := rfl
  apply PhysAddr.eq_of_frame_eq
  rw [PhysAddr.frame, PhysAddr.new_toNat, p.toNat_add_pageOffset, hsize]
  omega

theorem translate_eq_lookup (s : Phys) (p4 : PhysAddr) (virt : BitVec 64) :
    translate s p4 virt = (lookup s.mem p4.frame (indices virt 3)).map physicalAddress := by
  have hlast : ∀ p1 : PhysAddr, (do let page ← s.next p1 (p1Index virt); return PhysAddr.new (page.addr + pageOffset virt)) =
      (lookup s.mem p1.frame [p1Index virt]).map physicalAddress := by
    intro p1
    rw [lookup_singleton_map]
    cases s.next p1 (p1Index virt) with
    | none => rfl
    | some page => exact congrArg some (new_add_pageOffset page virt)
  rw [indices_eq, List.cons_append, List.cons_append, List.cons_append, List.nil_append,
    lookup_cons_eq_next (by simp), map_bind]
  refine bind_congr fun p3 _ => ?_
  rw [Function.comp_apply, lookup_cons_eq_next (by simp), map_bind]
  refine bind_congr fun p2 _ => ?_
  rw [Function.comp_apply, lookup_cons_eq_next (by simp), map_bind]
  simp_all

/-! ### The CPU -/

/-- The frame of `v` in the large page that an entry of the level maps. -/
def frameInPage (level : Nat) (e v : BitVec 64) : Nat :=
  target e / 512 ^ level * 512 ^ level + v.toNat / 4096 % 512 ^ level

/-- Where a lookup that knows no large pages agrees with the CPU, from a table of the level down.  An address with a page
is on a page boundary.  Behind an entry with the large page bit, the bytes of the large page read as tables of the levels
below lead to the frame of the address in that page; in the top table, where the bit is reserved, they lead nowhere. -/
def Agrees (m : ByteMem) (v : BitVec 64) : Nat → Nat → Prop
  | 0, t => present (entry m t (index 0 v)) → v.toNat % 4096 = 0
  | level + 1, t =>
    let e := entry m t (index (level + 1) v)
    present e →
      if huge e then
        if level + 1 ≤ 2 then
          v.toNat % 4096 = 0 ∧ ∃ e', lookup m (target e) (indices v level) = some e' ∧ target e' = frameInPage (level + 1) e v
        else lookup m (target e) (indices v level) = none
      else Agrees m v level (target e)

theorem large_eq (e v : BitVec 64) {level : Nat} (h : level ≤ 2) :
    4096 * target e / 2 ^ (12 + 9 * level) * 2 ^ (12 + 9 * level) + v.toNat % 2 ^ (12 + 9 * level) =
      4096 * frameInPage level e v + v.toNat % 4096 := by
  unfold frameInPage
  rcases (by omega : level = 0 ∨ level = 1 ∨ level = 2) with rfl | rfl | rfl <;> omega

theorem lookup_eq_walk_iff (m : ByteMem) (v : BitVec 64) (level t : Nat) :
    (lookup m t (indices v level)).map (fun e => 4096 * target e) = (walk m v level t).map Prod.fst ↔
      Agrees m v level t := by
  induction level generalizing t with
  | zero =>
    unfold indices walk Agrees
    by_cases hp : present (entry m t (index 0 v))
    · simp [hp]
    · simp [hp]
  | succ level ih =>
    unfold indices Agrees
    rw [X86.lookup_cons (X86.indices_ne_nil v level)]
    dsimp only
    by_cases hp : present (entry m t (index (level + 1) v))
    · rw [if_pos hp]
      by_cases hh : huge (entry m t (index (level + 1) v))
      · unfold walk
        dsimp only
        rw [if_pos hp, if_pos hh, if_pos hh]
        by_cases hl : level + 1 ≤ 2
        · rw [if_pos hl, if_pos hl, large_eq _ _ hl]
          cases hlook : lookup m (target (entry m t (index (level + 1) v))) (indices v level) with
          | none => simp [hp]
          | some e' =>
            grind
        · simp [hl, hp]
      · have hh' : huge (entry m t (index (level + 1) v)) = false := by simpa using hh
        rw [X86.walk_of_table hp hh', if_neg hh, ← ih, map_map]
        simp [hp, Function.comp_def]
    · simp [hp, X86.walk_of_absent hp]

/-- `translate` gives the address the CPU gives exactly where the tables and the address are as `Agrees` says. -/
theorem translate_eq_walk_iff (s : Phys) (p4 : PhysAddr) (virt : BitVec 64) :
    (translate s p4 virt).map (fun p => p.addr.toNat) = (walk s.mem virt 3 p4.frame).map Prod.fst ↔
      Agrees s.mem virt 3 p4.frame := by
  have haddr : ∀ e, (physicalAddress e).addr.toNat = 4096 * target e := by
    intro e
    rw [PhysAddr.toNat_eq, frame_physicalAddress]
    exact Nat.mul_comm _ _
  rw [← lookup_eq_walk_iff, translate_eq_lookup, map_map]
  simp only [Function.comp_def, haddr]

/-- Tables in the frames 1 to 4 that map the first page to the frame 5. -/
def onePage : ByteMem :=
  ((((ByteMem.write64 (fun _ => 0) (X86.entryAddr 1 0) 0x2003).write64 (X86.entryAddr 2 0) 0x3003).write64
    (X86.entryAddr 3 0) 0x4003).write64 (X86.entryAddr 4 0) 0x5003)

/-- The second byte of that page is at 0x5001 for the CPU and at 0x5000 for `translate`. -/
theorem translate_ne_walk_offset :
    ¬ ∀ (s : Phys) (p4 : PhysAddr) (virt : BitVec 64),
      (translate s p4 virt).map (fun p => p.addr.toNat) = (walk s.mem virt 3 p4.frame).map Prod.fst := by
  intro hall
  have h := hall ⟨onePage, FrameAllocator.new⟩ (PhysAddr.ofFrame 1) 1
  exact absurd h (by decide)

end AstralOS.Memory
