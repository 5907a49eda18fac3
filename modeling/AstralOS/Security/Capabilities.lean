import AstralOS.Lib.Run
import Mathlib

/-!
# Capabilities of a process

`security/capability.rs`, the matching of intents of `security/intent.rs`, and the `SecurityContext` of `security/mod.rs`.

A set of capabilities is a word with one bit for each of them; `has_add` and `has_remove` say that the bits of different
capabilities are different.  A context gains a capability in one way only, a request that `evaluate_capability_request`
grants (`gains_check`); what a whole run can gain follows from the rule for gaining runs.
-/

namespace AstralOS.Security

open BitVec

inductive Capability
  -- File system
  | fileRead | fileWrite | fileExecute | fileCreate | fileDelete
  -- Network
  | netConnect | netBind | netRawSocket
  -- Process
  | processSpawn | processKill | processDebug
  -- Memory
  | memoryAllocate | memoryMap | memoryExecute
  -- Graphics
  | graphicsCreate | graphicsBlit | graphicsPresent
  -- System
  | systemShutdown | systemReboot | systemTime
  -- Reality Engine
  | realityFork | realityMerge | causalityQuery
  deriving DecidableEq

namespace Capability

def shift : Capability → Nat
  | fileRead => 0
  | fileWrite => 1
  | fileExecute => 2
  | fileCreate => 3
  | fileDelete => 4
  | netConnect => 10
  | netBind => 11
  | netRawSocket => 12
  | processSpawn => 20
  | processKill => 21
  | processDebug => 22
  | memoryAllocate => 30
  | memoryMap => 31
  | memoryExecute => 32
  | graphicsCreate => 40
  | graphicsBlit => 41
  | graphicsPresent => 42
  | systemShutdown => 50
  | systemReboot => 51
  | systemTime => 52
  | realityFork => 60
  | realityMerge => 61
  | causalityQuery => 62

def toWord (cap : Capability) : BitVec 64 := 1 <<< cap.shift

def isSensitive : Capability → Bool
  | fileExecute | netRawSocket | processDebug | memoryExecute | systemShutdown | systemReboot => true
  | _ => false

theorem shift_lt (cap : Capability) : cap.shift < 64 := by cases cap <;> decide

theorem shift_injective {c d : Capability} (h : c.shift = d.shift) : c = d := by
  cases c <;> cases d <;> first | rfl | exact absurd h (by decide)

end Capability

structure CapabilitySet where
  bits : BitVec 64
  deriving DecidableEq

namespace CapabilitySet

def new : CapabilitySet := ⟨0⟩

def default : CapabilitySet :=
  ⟨new.bits ||| Capability.fileRead.toWord ||| Capability.memoryAllocate.toWord ||| Capability.graphicsCreate.toWord
    ||| Capability.graphicsBlit.toWord ||| Capability.graphicsPresent.toWord⟩

section

variable (set : CapabilitySet)

def has (cap : Capability) : Bool := set.bits &&& cap.toWord ≠ 0

def add (cap : Capability) : CapabilitySet := ⟨set.bits ||| cap.toWord⟩

def remove (cap : Capability) : CapabilitySet := ⟨set.bits &&& ~~~cap.toWord⟩

end

theorem getLsbD_toWord (c d : Capability) : d.toWord.getLsbD c.shift = decide (c = d) := by
  have hpow : d.toWord = twoPow 64 d.shift := rfl
  have hiff : d.shift = c.shift ↔ c = d := ⟨fun h => Capability.shift_injective h.symm, fun h => h ▸ rfl⟩
  simp [hpow, getLsbD_twoPow, d.shift_lt, hiff]

section

variable (set : CapabilitySet)

theorem has_eq_getLsbD (c : Capability) : set.has c = set.bits.getLsbD c.shift := by
  have hpow : c.toWord = twoPow 64 c.shift := rfl
  have hne : twoPow 64 c.shift ≠ 0#64 := by
    intro hzero
    have hbit := getLsbD_toWord c c
    simp [hpow, hzero] at hbit
  simp [has, hpow, and_twoPow, hne]

@[simp] theorem has_add (c d : Capability) : (set.add d).has c = (set.has c || decide (c = d)) := by
  rw [has_eq_getLsbD, has_eq_getLsbD, add, getLsbD_or, getLsbD_toWord]

@[simp] theorem has_remove (c d : Capability) :
    (set.remove d).has c = (set.has c && !decide (c = d)) := by
  grind [has_eq_getLsbD, remove, getLsbD_and, getLsbD_not, getLsbD_toWord, c.shift_lt]

end

end CapabilitySet

/-! ### Intents -/

inductive IntentAction
  | readFile | writeFile | executeFile | createFile | deleteFile
  | connectNetwork | bindNetwork
  | spawnProcess
  | allocateMemory
  | createGraphics
  | shutdown | reboot
  | forkReality | mergeReality | queryCausality
  | custom
  deriving DecidableEq

inductive IntentPriority
  | low | normal | high | critical
  deriving DecidableEq

structure Intent where
  action : IntentAction
  target : Option String
  parameters : List (String × String)
  priority : IntentPriority
  deriving DecidableEq

namespace Intent

def new (action : IntentAction) : Intent := ⟨action, none, [], .normal⟩

def matchesCapability (intent : Intent) (cap : Capability) : Bool :=
  match intent.action, cap with
  | .readFile, .fileRead => true
  | .writeFile, .fileWrite => true
  | .executeFile, .fileExecute => true
  | .createFile, .fileCreate => true
  | .deleteFile, .fileDelete => true
  | .connectNetwork, .netConnect => true
  | .bindNetwork, .netBind => true
  | .spawnProcess, .processSpawn => true
  | .allocateMemory, .memoryAllocate => true
  | .createGraphics, .graphicsCreate => true
  | .shutdown, .systemShutdown => true
  | .reboot, .systemReboot => true
  | .forkReality, .realityFork => true
  | .mergeReality, .realityMerge => true
  | .queryCausality, .causalityQuery => true
  | _, _ => false

end Intent

/-! ### The context of a process -/

inductive SandboxLevel
  | none | low | medium | high | maximum
  deriving DecidableEq

structure BehaviorPatterns where
  /-- How often each system call was made. -/
  syscallDistribution : List (BitVec 64 × BitVec 32)
  anomalyScore : BitVec 32
  deriving DecidableEq

namespace BehaviorPatterns

def new : BehaviorPatterns := ⟨[], 0⟩

def increment (num : BitVec 64) : List (BitVec 64 × BitVec 32) → List (BitVec 64 × BitVec 32)
  | [] => [(num, 1)]
  | (k, count) :: rest => if k = num then (k, count + 1) :: rest else (k, count) :: increment num rest

def recordSyscall (p : BehaviorPatterns) (num : BitVec 64) : BehaviorPatterns :=
  { p with syscallDistribution := increment num p.syscallDistribution }

def updateAnomalyScore (p : BehaviorPatterns) : BehaviorPatterns :=
  let totalSyscalls := (p.syscallDistribution.map (·.2)).sum
  let score := if 10000 < totalSyscalls then p.anomalyScore + 1 else p.anomalyScore
  { p with anomalyScore := if 100 < score then 100 else score }

end BehaviorPatterns

structure CapabilityRequest where
  capability : Capability
  intent : Intent
  timestamp : BitVec 64
  granted : Bool
  reason : Option String
  deriving DecidableEq

structure SecurityContext where
  pid : BitVec 64
  capabilities : CapabilitySet
  intentHistory : List Intent
  trustScore : BitVec 32
  sandboxLevel : SandboxLevel
  behaviorPatterns : BehaviorPatterns
  capabilityRequests : List CapabilityRequest
  deriving DecidableEq

namespace SecurityContext

def new (pid : BitVec 64) : SecurityContext where
  pid
  capabilities := .default
  intentHistory := []
  trustScore := 50
  sandboxLevel := .medium
  behaviorPatterns := .new
  capabilityRequests := []

section

variable (ctx : SecurityContext)

def checkCapability (cap : Capability) : Bool := ctx.capabilities.has cap

/-- The last request is marked if it is an open one for this capability. -/
def grantCapability (cap : Capability) (reason : String) : SecurityContext :=
  { ctx with
    capabilities := ctx.capabilities.add cap
    capabilityRequests := ctx.capabilityRequests.modifyLast fun lastReq =>
      if lastReq.capability = cap ∧ ¬ lastReq.granted then { lastReq with granted := true, reason := some reason }
      else lastReq }

def revokeCapability (cap : Capability) : SecurityContext :=
  { ctx with capabilities := ctx.capabilities.remove cap }

def evaluateCapabilityRequest (cap : Capability) (intent : Intent) : Bool :=
  if 80 ≤ ctx.trustScore then true
  else if ¬ intent.matchesCapability cap then false
  else if 70 < ctx.behaviorPatterns.anomalyScore then false
  else if cap.isSensitive ∧ ctx.trustScore < 60 then false
  else decide (50 ≤ ctx.trustScore)

/-- The answer to a request that is made at the time `timestamp`, and the context after it. -/
def requestCapability (cap : Capability) (intent : Intent) (timestamp : BitVec 64) :
    Bool × SecurityContext :=
  let ctx :=
    { ctx with capabilityRequests := ctx.capabilityRequests ++ [⟨cap, intent, timestamp, false, none⟩] }
  let shouldGrant := ctx.evaluateCapabilityRequest cap intent
  (shouldGrant, if shouldGrant then ctx.grantCapability cap "Intent-based grant" else ctx)

def recordIntent (intent : Intent) : SecurityContext :=
  let history := ctx.intentHistory ++ [intent]
  { ctx with intentHistory := if 1000 < history.length then history.tail else history }

end

def sandboxLevelOf (trust : BitVec 32) : SandboxLevel :=
  if trust ≤ 20 then .maximum
  else if trust ≤ 40 then .high
  else if trust ≤ 60 then .medium
  else if trust ≤ 80 then .low
  else if trust ≤ 100 then .none
  else .medium

/-- The sum is taken as an `i32`. -/
def adjustTrustScore (ctx : SecurityContext) (delta : BitVec 32) : SecurityContext :=
  let newScore := max 0 (min 100 (ctx.trustScore + delta).toInt)
  let trust := BitVec.ofInt 32 newScore
  { ctx with trustScore := trust, sandboxLevel := sandboxLevelOf trust }

end SecurityContext

/-! ### Runs of a context -/

inductive Call
  | requestCapability (cap : Capability) (intent : Intent) (timestamp : BitVec 64)
  | revokeCapability (cap : Capability)
  | adjustTrustScore (delta : BitVec 32)
  | recordIntent (intent : Intent)
  | recordSyscall (num : BitVec 64)
  | updateAnomalyScore
  deriving DecidableEq

namespace SecurityContext

def exec (ctx : SecurityContext) : Call → SecurityContext
  | .requestCapability cap intent timestamp => (ctx.requestCapability cap intent timestamp).2
  | .revokeCapability cap => ctx.revokeCapability cap
  | .adjustTrustScore delta => ctx.adjustTrustScore delta
  | .recordIntent intent => ctx.recordIntent intent
  | .recordSyscall num => { ctx with behaviorPatterns := ctx.behaviorPatterns.recordSyscall num }
  | .updateAnomalyScore => { ctx with behaviorPatterns := ctx.behaviorPatterns.updateAnomalyScore }

/-- A request is made with a trust below 80, from which on everything is granted. -/
def LowTrust (ctx : SecurityContext) : Call → Prop
  | .requestCapability _ _ _ => ctx.trustScore < 80
  | _ => True

instance (ctx : SecurityContext) (call : Call) : Decidable (ctx.LowTrust call) := by
  cases call <;> unfold LowTrust <;> infer_instance

/-- The context is one in which a request for `cap` with this intent is due. -/
structure Entitled (ctx : SecurityContext) (cap : Capability) (intent : Intent) : Prop where
  matched : intent.matchesCapability cap
  calm : ctx.behaviorPatterns.anomalyScore ≤ 70
  trusted : 50 ≤ ctx.trustScore
  sensitive : cap.isSensitive → 60 ≤ ctx.trustScore

variable {cap : Capability} {ctx : SecurityContext}

theorem entitled_of_grant {intent : Intent} (hlow : ctx.trustScore < 80)
    (h : ctx.evaluateCapabilityRequest cap intent = true) : ctx.Entitled cap intent := by
  unfold evaluateCapabilityRequest at h
  split_ifs at h with ht hm ha hs
  · exact absurd hlow (BitVec.not_lt.2 ht)
  · exact {
      matched := hm
      calm := BitVec.not_lt.1 ha
      trusted := of_decide_eq_true h
      sensitive := fun hcap => BitVec.not_lt.1 fun hlt => hs ⟨hcap, hlt⟩ }

theorem gains_check {call : Call} (hnot : ¬ ctx.checkCapability cap) (h : (ctx.exec call).checkCapability cap) :
    ∃ intent timestamp, call = .requestCapability cap intent timestamp ∧
      (ctx.requestCapability cap intent timestamp).1 = true := by
  cases call with
  | requestCapability other intent timestamp =>
    cases hg : (ctx.requestCapability other intent timestamp).1 with
    | false =>
      have hsame : (ctx.requestCapability other intent timestamp).2.capabilities = ctx.capabilities := by
        simp_all [requestCapability]
      have hcap : ctx.capabilities.has cap = true := hsame ▸ h
      exact absurd hcap hnot
    | true =>
      have hadd : (ctx.requestCapability other intent timestamp).2.capabilities = ctx.capabilities.add other := by
        simp_all [requestCapability, grantCapability]
      have hcap : ((ctx.capabilities.add other).has cap) = true := hadd ▸ h
      simp only [CapabilitySet.has_add, Bool.or_eq_true, decide_eq_true_eq] at hcap
      obtain rfl := hcap.resolve_left hnot
      exact ⟨intent, timestamp, rfl, hg⟩
  | revokeCapability other =>
    have hcap : (ctx.capabilities.remove other).has cap = true := h
    simp only [CapabilitySet.has_remove, Bool.and_eq_true] at hcap
    exact absurd hcap.1 hnot
  | _ => exact absurd h hnot

theorem not_check_revoke (ctx : SecurityContext) (cap : Capability) :
    ¬ (ctx.revokeCapability cap).checkCapability cap := by
  simp [revokeCapability, checkCapability]

theorem exists_grant_of_run {calls : List Call}
    (hnot : ¬ ctx.checkCapability cap) (h : (run exec ctx calls).checkCapability cap) :
    ∃ before intent timestamp after, calls = before ++ .requestCapability cap intent timestamp :: after ∧
      ((run exec ctx before).requestCapability cap intent timestamp).1 = true := by
  obtain ⟨before, call, after, rfl, hb, hcall⟩ :=
    exists_gain_of_run (P := fun c : SecurityContext => c.checkCapability cap) hnot h
  obtain ⟨intent, timestamp, rfl, hg⟩ := gains_check hb hcall
  exact ⟨before, intent, timestamp, after, rfl, hg⟩

/-- **Capabilities are not escalated.**  As long as the trust is below 80 at every request, a context holds the default
capabilities and those that a request got that was entitled to it; and it holds a capability after a revocation only if a
later request for it was granted. -/
theorem capabilities_not_escalated (pid : BitVec 64) (calls : List Call) (hlow : Meets exec LowTrust (new pid) calls) :
    (∀ cap, (run exec (new pid) calls).checkCapability cap → CapabilitySet.default.has cap ∨
      ∃ before intent timestamp after, calls = before ++ .requestCapability cap intent timestamp :: after ∧
        ((run exec (new pid) before).requestCapability cap intent timestamp).1 = true ∧
        (run exec (new pid) before).Entitled cap intent) ∧
    ∀ cap before since, calls = before ++ .revokeCapability cap :: since →
      (run exec (new pid) calls).checkCapability cap →
      ∃ middle intent timestamp after, since = middle ++ .requestCapability cap intent timestamp :: after ∧
        ((run exec (new pid) (before ++ .revokeCapability cap :: middle)).requestCapability cap intent timestamp).1 =
          true := by
  constructor
  · intro cap hcap
    by_cases hd : (new pid).checkCapability cap
    · exact .inl hd
    · obtain ⟨before, intent, timestamp, after, rfl, hg⟩ := exists_grant_of_run hd hcap
      exact .inr ⟨before, intent, timestamp, after, rfl, hg, entitled_of_grant hlow.middle hg⟩
  · rintro cap before since rfl hcap
    rw [run_append, run_cons] at hcap
    obtain ⟨middle, intent, timestamp, after, rfl, hg⟩ := exists_grant_of_run (not_check_revoke _ cap) hcap
    refine ⟨middle, intent, timestamp, after, rfl, ?_⟩
    rw [run_append, run_cons]
    exact hg

def writeAgain : List Call :=
  [.requestCapability .fileWrite (.new .writeFile) 1, .revokeCapability .fileWrite, .adjustTrustScore 20,
    .requestCapability .fileWrite (.new .writeFile) 2]

theorem capabilities_not_escalated_writeAgain :
    Meets exec LowTrust (new 7) writeAgain ∧ (run exec (new 7) writeAgain).checkCapability .fileWrite ∧
      ∃ middle intent timestamp after,
        writeAgain.drop 2 = middle ++ .requestCapability .fileWrite intent timestamp :: after ∧
        ((run exec (new 7) (writeAgain.take 1 ++ .revokeCapability .fileWrite :: middle)).requestCapability .fileWrite
          intent timestamp).1 = true := by
  have hlow : Meets exec LowTrust (new 7) writeAgain := by decide
  have hc : (run exec (new 7) writeAgain).checkCapability .fileWrite := by decide
  exact ⟨hlow, hc, (capabilities_not_escalated 7 writeAgain hlow).2 .fileWrite (writeAgain.take 1)
    (writeAgain.drop 2) rfl hc⟩

end SecurityContext

end AstralOS.Security
