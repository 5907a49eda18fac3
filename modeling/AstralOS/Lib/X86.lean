import AstralOS.Lib.Memory

/-!
# A fragment of x86-64

The general registers, the flags, the code and stack segment selectors and a byte memory, with the instructions a
context switch is made of.  Only `iretq` loads a segment selector, and it faults on one that the descriptor table does
not allow; every other instruction leaves the segments alone (`execAll_of_not_mem_iretq`).
-/

namespace AstralOS.X86

/-- The general registers. -/
inductive Reg
  | rax
  | rbx
  | rcx
  | rdx
  | rsi
  | rdi
  | rbp
  | rsp
  | r8
  | r9
  | r10
  | r11
  | r12
  | r13
  | r14
  | r15
  deriving DecidableEq

/-- The state of a CPU and the memory. -/
structure Machine where
  regs : Reg → BitVec 64
  rip : BitVec 64
  rflags : BitVec 64
  cs : BitVec 16
  ss : BitVec 16
  cr3 : BitVec 64
  mem : ByteMem

abbrev DescriptorTable := Nat → Option (BitVec 8)

def level (selector : BitVec 16) : BitVec 2 := selector.extractLsb' 0 2

def descriptorLevel (access : BitVec 8) : BitVec 2 := access.extractLsb' 5 2

section

variable (gdt : DescriptorTable)

/-- The access byte of a selector into the global table, if the descriptor is a present code or data segment. -/
def segment (selector : BitVec 16) : Option (BitVec 8) :=
  if selector.getLsbD 2 then none
  else
    (gdt (selector.toNat / 8)).bind fun access =>
      if access.getLsbD 7 ∧ access.getLsbD 4 then some access else none

/-- A return to level `cpl` or an outer one may load the code segment. -/
def codeLoadable (cpl : BitVec 2) (selector : BitVec 16) : Bool :=
  match segment gdt selector with
  | some access =>
    access.getLsbD 3 && decide (cpl ≤ level selector) &&
      if access.getLsbD 2 then decide (descriptorLevel access ≤ level selector)
      else descriptorLevel access == level selector
  | none => false

/-- A return to level `cpl` may load the stack segment: writable data of that level, or null below ring 3. -/
def stackLoadable (cpl : BitVec 2) (selector : BitVec 16) : Bool :=
  if selector.toNat / 4 = 0 ∧ cpl ≠ 3 then selector.extractLsb' 0 2 == cpl
  else
    match segment gdt selector with
    | some access =>
      !access.getLsbD 3 && access.getLsbD 1 && level selector == cpl && descriptorLevel access == cpl
    | none => false

end

/-- The instructions.  An operand that a compiler puts into a register of its choice is given by its value. -/
inductive Instr
  | store (base : Reg) (offset : BitVec 64) (src : Reg)
  | load (dst base : Reg) (offset : BitVec 64)
  | lea (dst base : Reg) (offset : BitVec 64)
  | movValue (dst : Reg) (value : BitVec 64)
  | pushValue (value : BitVec 64)
  | pushMem (base : Reg) (offset : BitVec 64)
  | pop (dst : Reg)
  | pushfq
  | popfq
  | ret
  | iretq
  deriving DecidableEq

namespace Machine

section

variable (m : Machine)

def setReg (r : Reg) (v : BitVec 64) : Machine :=
  { m with regs := fun r' => if r' = r then v else m.regs r' }

def push (v : BitVec 64) : Machine :=
  { m.setReg .rsp (m.regs .rsp - 8) with mem := m.mem.write64 (m.regs .rsp - 8) v }

def word (k : Nat) : BitVec 64 := m.mem.read64 (m.regs .rsp + BitVec.ofNat 64 (8 * k))

def drop : Machine := m.setReg .rsp (m.regs .rsp + 8)

end

end Machine

/-- The flags `pushfq` stores: all but the virtual-mode and resume flags. -/
def pushfMask : BitVec 64 := 0xFCFFFF

/-- One instruction; `none` for a fault. -/
def exec (gdt : DescriptorTable) (m : Machine) : Instr → Option Machine
  | .store base offset src => some { m with mem := m.mem.write64 (m.regs base + offset) (m.regs src) }
  | .load dst base offset => some (m.setReg dst (m.mem.read64 (m.regs base + offset)))
  | .lea dst base offset => some (m.setReg dst (m.regs base + offset))
  | .movValue dst value => some (m.setReg dst value)
  | .pushValue value => some (m.push value)
  | .pushMem base offset => some (m.push (m.mem.read64 (m.regs base + offset)))
  | .pop dst => some (m.drop.setReg dst (m.word 0))
  | .pushfq => some (m.push (m.rflags &&& pushfMask))
  | .popfq => some { m.drop with rflags := m.word 0 }
  | .ret => some { m.drop with rip := m.word 0 }
  | .iretq =>
    let cs := (m.word 1).setWidth 16
    let ss := (m.word 4).setWidth 16
    if codeLoadable gdt (level m.cs) cs && stackLoadable gdt (level cs) ss then
      some { m.setReg .rsp (m.word 3) with rip := m.word 0, cs, rflags := m.word 2, ss }
    else none

def execAll (gdt : DescriptorTable) : Machine → List Instr → Option Machine
  | m, [] => some m
  | m, i :: is => (exec gdt m i).bind fun m' => execAll gdt m' is

variable (gdt : DescriptorTable)

theorem exec_of_ne_iretq (m : Machine) {i : Instr} (h : i ≠ .iretq) : ∃ m', exec gdt m i = some m' ∧ m'.cs = m.cs := by
  cases i with
  | iretq => exact (h rfl).elim
  | store _ _ _ | load _ _ _ | lea _ _ _ | movValue _ _ | pushValue _ | pushMem _ _ | pop _ | pushfq | popfq
  | ret => exact ⟨_, rfl, rfl⟩

theorem execAll_of_not_mem_iretq (m : Machine) {is : List Instr} (h : .iretq ∉ is) :
    ∃ m', execAll gdt m is = some m' ∧ m'.cs = m.cs := by
  induction is generalizing m with
  | nil => exact ⟨m, rfl, rfl⟩
  | cons i is ih =>
    obtain ⟨m1, h1, hcs1⟩ := exec_of_ne_iretq gdt m (i := i) fun hi => h (by simp [hi])
    obtain ⟨m2, h2, hcs2⟩ := ih m1 fun hi => h (by simp [hi])
    simp_all [execAll, Option.bind_some]

theorem execAll_append (m : Machine) (is js : List Instr) :
    execAll gdt m (is ++ js) = (execAll gdt m is).bind fun m' => execAll gdt m' js := by
  induction is generalizing m with
  | nil => rfl
  | cons i is ih =>
    rw [List.cons_append, execAll, execAll, Option.bind_assoc]
    simp only [ih]

/-! ### Interrupt frames -/

namespace Machine

theorem word_push_zero (m : Machine) (v : BitVec 64) : (m.push v).word 0 = v := by
  have : (m.push v).regs .rsp + BitVec.ofNat 64 (8 * 0) = m.regs .rsp - 8 := BitVec.add_zero _
  unfold word
  rw [this]
  exact ByteMem.read64_write64 _ _ _

theorem word_push_succ (m : Machine) (v : BitVec 64) {k : Nat} (hk : k < 2 ^ 60) :
    (m.push v).word (k + 1) = m.word k := by
  have hadd : m.regs .rsp - 8 + BitVec.ofNat 64 (8 * (k + 1)) = m.regs .rsp + BitVec.ofNat 64 (8 * k) := by bv_omega
  have ha : ByteMem.Apart (m.regs .rsp - 8) (m.regs .rsp + BitVec.ofNat 64 (8 * k)) := by
    simp [ByteMem.Apart]
    omega
  unfold word
  change (m.mem.write64 (m.regs .rsp - 8) v).read64 (m.regs .rsp - 8 + _) = _
  rw [hadd, ByteMem.read64_write64_of_apart ha]

end Machine

theorem exec_iretq_push (m m' : Machine) (rip cs rflags rsp ss : BitVec 64)
    (hmem : m'.mem = (((((m.push ss).push rsp).push rflags).push cs).push rip).mem)
    (hrsp : m'.regs .rsp = (((((m.push ss).push rsp).push rflags).push cs).push rip).regs .rsp) :
    exec gdt m' .iretq =
      if codeLoadable gdt (level m'.cs) (cs.setWidth 16) && stackLoadable gdt (level (cs.setWidth 16)) (ss.setWidth 16) then
        some { m'.setReg .rsp rsp with rip, cs := cs.setWidth 16, rflags, ss := ss.setWidth 16 }
      else none := by
  have hword : ∀ k, m'.word k = (((((m.push ss).push rsp).push rflags).push cs).push rip).word k := by
    intro k
    unfold Machine.word
    rw [hmem, hrsp]
  have h0 : m'.word 0 = rip := by rw [hword, Machine.word_push_zero]
  have h1 : m'.word 1 = cs := by rw [hword, Machine.word_push_succ _ _ (by decide), Machine.word_push_zero]
  have h2 : m'.word 2 = rflags := by
    rw [hword, Machine.word_push_succ _ _ (by decide), Machine.word_push_succ _ _ (by decide), Machine.word_push_zero]
  have h3 : m'.word 3 = rsp := by
    rw [hword, Machine.word_push_succ _ _ (by decide), Machine.word_push_succ _ _ (by decide),
      Machine.word_push_succ _ _ (by decide), Machine.word_push_zero]
  have h4 : m'.word 4 = ss := by
    rw [hword, Machine.word_push_succ _ _ (by decide), Machine.word_push_succ _ _ (by decide),
      Machine.word_push_succ _ _ (by decide), Machine.word_push_succ _ _ (by decide), Machine.word_push_zero]
  simp only [exec]
  rw [h0, h1, h2, h3, h4]

end AstralOS.X86
