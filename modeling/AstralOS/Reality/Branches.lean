import AstralOS.Lib.Run
import AstralOS.Usermode.Syscall

/-!
# Reality branches

The counter and the current branch of `reality/causality.rs`, and everything that drives them: the system calls of
`usermode/syscall.rs`, the intents of `reality/intent.rs`, and the commands of `shell/commands.rs`.  All of them take their
numbers from one counter that starts at 0, the number of the root.  A fork takes a number and makes it current; so does
`sys_reality_merge`, which does not look at its target.

The numbers of a run are known in advance: the request behind `n` numbers takes the number `n` (`numbered`).  So it can be
read off a run whether its forks and merges do what they promise (`branches_iff`).
-/

namespace AstralOS.Reality

/-- `REALITY_COUNTER` and `CURRENT_REALITY_ID`. -/
structure Realities where
  counter : BitVec 64
  current : BitVec 64
  deriving DecidableEq

namespace Realities

def boot : Realities := ⟨0, 0⟩

def newId (s : Realities) : BitVec 64 × Realities := (s.counter, { s with counter := s.counter + 1 })

def root : BitVec 64 := 0

def setCurrentReality (s : Realities) (id : BitVec 64) : Realities := { s with current := id }

def enter (s : Realities) : BitVec 64 × Realities :=
  let (id, s) := s.newId
  (id, s.setCurrentReality id)

/-! ### The entry points, with what they answer -/

section

variable (s : Realities)

def sysRealityFork : BitVec 64 × Realities := s.enter

def sysRealityMerge (_target : BitVec 64) : BitVec 64 × Realities := (0, s.enter.2)

/-- The result code is an `i32`. -/
def handleForkReality : BitVec 32 × Realities :=
  let (id, s) := s.enter
  (id.setWidth 32, s)

def handleMergeReality : BitVec 32 × Realities := (0, s.setCurrentReality root)

def cmdRealityFork : BitVec 64 × Realities := s.enter

def cmdRealityMerge : Realities := s.setCurrentReality root

def cmdTimelineBranch : BitVec 64 × Realities := s.enter

def cmdTimelineJump (_id : BitVec 64) : Realities := s.enter.2

end

end Realities

/-- A request through one of the entry points. -/
inductive Request
  | sysRealityFork
  | sysRealityMerge (target : BitVec 64)
  | handleForkReality
  | handleMergeReality
  | cmdRealityFork
  | cmdRealityMerge
  | cmdTimelineBranch
  | cmdTimelineJump (id : BitVec 64)
  deriving DecidableEq

def Realities.perform (s : Realities) : Request → Option Int × Realities
  | .sysRealityFork => (some s.sysRealityFork.1.toNat, s.sysRealityFork.2)
  | .sysRealityMerge target => (none, (s.sysRealityMerge target).2)
  | .handleForkReality => (some s.handleForkReality.1.toInt, s.handleForkReality.2)
  | .handleMergeReality => (none, s.handleMergeReality.2)
  | .cmdRealityFork => (some s.cmdRealityFork.1.toNat, s.cmdRealityFork.2)
  | .cmdRealityMerge => (none, s.cmdRealityMerge)
  | .cmdTimelineBranch => (some s.cmdTimelineBranch.1.toNat, s.cmdTimelineBranch.2)
  | .cmdTimelineJump id => (none, s.cmdTimelineJump id)

/-- The branches and the ids that forks have yielded, the last first. -/
structure History where
  realities : Realities
  yielded : List Int
  deriving DecidableEq

namespace History

def start : History := ⟨.boot, []⟩

def exec (h : History) (r : Request) : History :=
  ⟨(h.realities.perform r).2, (h.realities.perform r).1.toList ++ h.yielded⟩

/-- The branch that a merge is to make current: the root, or the target of `sys_reality_merge`. -/
def mergeTarget : Request → Option (BitVec 64)
  | .sysRealityMerge target => some target
  | .handleMergeReality | .cmdRealityMerge => some Realities.root
  | .sysRealityFork | .handleForkReality | .cmdRealityFork | .cmdTimelineBranch | .cmdTimelineJump _ => none

/-- A fork yields an id that is not the root's and was not yielded before, and makes it current; a merge makes its target
current. -/
@[mk_iff lawful_iff_and]
structure Lawful (h : History) (r : Request) : Prop where
  fork : ∀ id, (h.realities.perform r).1 = some id →
    id ≠ 0 ∧ id ∉ h.yielded ∧ ((h.realities.perform r).2.current.toNat : Int) = id
  merge : ∀ target, mergeTarget r = some target → (h.realities.perform r).2.current = target

end History

/-! ### The numbers of a run -/

namespace Request

def takes : Request → BitVec 64
  | .handleMergeReality | .cmdRealityMerge => 0
  | _ => 1

def isFork : Request → Bool
  | .sysRealityFork | .handleForkReality | .cmdRealityFork | .cmdTimelineBranch => true
  | _ => false

/-- The request does what it promises when the counter stands at `c`: a fork does not get the root's number, and an intent
can pass it on in an `i32`; `sys_reality_merge` gets the number of its target. -/
def Suits (c : BitVec 64) : Request → Prop
  | .sysRealityFork | .cmdRealityFork | .cmdTimelineBranch => c ≠ 0
  | .handleForkReality => c ≠ 0 ∧ c.toNat < 2 ^ 31
  | .sysRealityMerge target => target = c
  | .handleMergeReality | .cmdRealityMerge | .cmdTimelineJump _ => True

end Request

def numbered : BitVec 64 → List Request → List (Request × BitVec 64)
  | _, [] => []
  | c, r :: rs => (r, c) :: numbered (c + r.takes) rs

def forkNumbers (ps : List (Request × BitVec 64)) : List (BitVec 64) := (ps.filter (·.1.isFork)).map (·.2)

theorem mem_numbered_cons {c : BitVec 64} {r : Request} {rs : List Request} {p : Request × BitVec 64} :
    p ∈ numbered c (r :: rs) ↔ p = (r, c) ∨ p ∈ numbered (c + r.takes) rs := List.mem_cons

theorem forkNumbers_cons (c : BitVec 64) (r : Request) (rs : List Request) :
    forkNumbers (numbered c (r :: rs)) =
      if r.isFork then c :: forkNumbers (numbered (c + r.takes) rs)
      else forkNumbers (numbered (c + r.takes) rs) := by
  cases hr : r.isFork <;> simp [forkNumbers, numbered, hr]

/-! ### One request -/

section Step

attribute [local simp] Realities.newId Realities.setCurrentReality Realities.enter Realities.sysRealityFork
  Realities.sysRealityMerge Realities.handleForkReality Realities.handleMergeReality Realities.cmdRealityFork
  Realities.cmdRealityMerge Realities.cmdTimelineBranch Realities.cmdTimelineJump Realities.root

theorem counter_exec (h : History) (r : Request) :
    (h.exec r).realities.counter = h.realities.counter + r.takes := by
  cases r <;> simp [History.exec, Realities.perform, Request.takes]

theorem toInt_setWidth_eq_iff (x : BitVec 64) : (x.toNat : Int) = (x.setWidth 32).toInt ↔ x.toNat < 2 ^ 31 := by
  grind

theorem lawful_iff (h : History) (r : Request) :
    h.Lawful r ↔
      r.Suits h.realities.counter ∧ (r.isFork → (h.realities.counter.toNat : Int) ∉ h.yielded) := by
  have hzero : h.realities.counter = 0#64 ↔ h.realities.counter.toNat = 0 := by simp [BitVec.toNat_eq]
  rw [History.lawful_iff_and]
  cases r with
  | handleForkReality =>
    simp [Realities.perform, Request.Suits, Request.isFork, History.mergeTarget, -BitVec.toInt_setWidth]
    constructor
    · grind
    · grind
  | sysRealityMerge target => simp [Realities.perform, Request.Suits, Request.isFork, History.mergeTarget, eq_comm]
  | _ => simp [Realities.perform, Request.Suits, Request.isFork, History.mergeTarget, hzero, and_comm]

theorem yielded_exec {h : History} {r : Request} (hr : r.Suits h.realities.counter) :
    (h.exec r).yielded =
      if r.isFork then (h.realities.counter.toNat : Int) :: h.yielded else h.yielded := by
  cases r with
  | handleForkReality =>
    have hfits := (toInt_setWidth_eq_iff h.realities.counter).2 hr.2
    simp [History.exec, Realities.perform, Request.isFork, ← hfits, -BitVec.toInt_setWidth]
  | _ => simp [History.exec, Realities.perform, Request.isFork]

end Step

/-! ### Whole runs -/

theorem fresh_cons {cs : List (BitVec 64)} {c : BitVec 64} {ids : List Int} :
    (∀ d ∈ cs, (d.toNat : Int) ∉ (c.toNat : Int) :: ids) ↔ c ∉ cs ∧ ∀ d ∈ cs, (d.toNat : Int) ∉ ids := by
  simp only [List.mem_cons, not_or, Int.natCast_inj, ← BitVec.toNat_eq, forall_and]
  exact and_congr_left' ⟨fun h hc => h c hc rfl, fun h d hd hdc => h (hdc ▸ hd)⟩

theorem meets_lawful_iff (h : History) (rs : List Request) :
    Meets History.exec History.Lawful h rs ↔
      (forkNumbers (numbered h.realities.counter rs)).Nodup ∧
        (∀ c ∈ forkNumbers (numbered h.realities.counter rs), (c.toNat : Int) ∉ h.yielded) ∧
          ∀ p ∈ numbered h.realities.counter rs, p.1.Suits p.2 := by
  induction rs generalizing h with
  | nil => simp [Meets, numbered, forkNumbers]
  | cons r rs ih =>
    simp only [Meets, lawful_iff, ih, counter_exec, mem_numbered_cons, forall_eq_or_imp, forkNumbers_cons]
    by_cases hs : r.Suits h.realities.counter
    · rw [yielded_exec hs]
      cases r.isFork with
      | false => simp [hs]
      | true =>
        simp only [hs, if_true, true_imp_iff, true_and, fresh_cons, List.nodup_cons, List.forall_mem_cons]
        tauto
    · simp [hs]

/-- **Branches over any requests after boot.**  Every fork yields a new id that is not the root's and makes it current, and
every merge makes its target current, exactly if the forks take different numbers, none of them 0 and none above an `i32` in
an intent, and every `sys_reality_merge` happens to take the number of its target. -/
theorem branches_iff (rs : List Request) :
    Meets History.exec History.Lawful History.start rs ↔
      (forkNumbers (numbered 0 rs)).Nodup ∧ ∀ p ∈ numbered 0 rs, p.1.Suits p.2 := by
  rw [meets_lawful_iff]
  simp [History.start, Realities.boot]

/-- The first fork after boot yields the root's id. -/
theorem first_fork_is_root : ¬ Meets History.exec History.Lawful History.start [.sysRealityFork] := fun h =>
  (h.1.fork 0 rfl).1 rfl

/-! ### The system calls -/

def ofSysState (s : Syscall.SysState) : Realities := ⟨s.realityCounter, s.currentReality⟩

open Fallible in
theorem ofSysState_sysRealityFork (s : Syscall.SysState) :
    Ends Syscall.sysRealityFork s (fun id s' => (id, ofSysState s') = (ofSysState s).sysRealityFork) fun _ _ => False :=
  rfl

open Fallible in
theorem ofSysState_sysRealityMerge (s : Syscall.SysState) (target : BitVec 64) :
    Ends Syscall.sysRealityMerge s (fun answer s' => (answer, ofSysState s') = (ofSysState s).sysRealityMerge target)
      fun _ _ => False :=
  rfl

end AstralOS.Reality
