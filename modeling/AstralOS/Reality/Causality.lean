import AstralOS.Lib.Bytes
import AstralOS.Lib.Chase
import AstralOS.Lib.Run
import Mathlib.Data.List.Chain

/-!
# The causal log

The event log of `reality/causality.rs`.  It keeps the last 1024 events, numbered in the order of the calls of `log`; the
cause of an event is whatever number the caller gives.  So an event may name itself, or one that is logged later, as its
cause, and then the loop of `get_causal_chain` goes round for ever: it ends in all states of a run exactly if no call closes
such a circle (`chains_end_iff`).  If each cause was logged before, the chains are the causes as far as the log still has
them (`causal_chains_faithful`), until the numbers wrap (`causal_chain_wraps`).
-/

namespace AstralOS.Reality

open Function Chase BitVec Option
open List hiding Vector

inductive CausalEventType
  | boot | interrupt | syscall | allocation | deallocation | diskRead | diskWrite | fileOpen | fileClose | taskSpawn
  | taskExit | dreamEnter | dreamExit | checkpoint | rollback | userCommand | custom
  deriving DecidableEq

/-- An event; the union of its data is a string of bytes. -/
structure CausalEvent where
  id : BitVec 64
  timestamp : BitVec 64
  eventType : CausalEventType
  causeId : Option (BitVec 64)
  realityId : BitVec 64
  data : Vector Byte 40
  deriving DecidableEq

/-- The arguments of a call of `log`, with the time and the reality it reads. -/
structure LogCall where
  eventType : CausalEventType
  cause : Option (BitVec 64)
  data : Vector Byte 40
  timestamp : BitVec 64
  realityId : BitVec 64

def LogCall.event (call : LogCall) (id : BitVec 64) : CausalEvent :=
  ⟨id, call.timestamp, call.eventType, call.cause, call.realityId, call.data⟩

def maxCausalEvents : Nat := 1024

structure CausalLog where
  events : List CausalEvent
  nextId : BitVec 64

namespace CausalLog

def new : CausalLog := ⟨[], 0⟩

/-- The events that are left when there is room for one more. -/
def evicted (l : CausalLog) : CausalLog :=
  if l.events.length ≥ maxCausalEvents then { l with events := l.events.tail } else l

def log (l : CausalLog) (call : LogCall) : BitVec 64 × CausalLog :=
  (l.nextId, ⟨l.evicted.events ++ [call.event l.nextId], l.nextId + 1⟩)

def getEvent (l : CausalLog) (id : BitVec 64) : Option CausalEvent := l.events.find? (·.id = id)

def getCausalChain (l : CausalLog) : Nat → Option (BitVec 64) → Option (List CausalEvent)
  | 0, _ => none
  | _ + 1, none => some []
  | fuel + 1, some id =>
    match l.getEvent id with
    | some event => (l.getCausalChain fuel event.causeId).map (event :: ·)
    | none => some []

def Ends (l : CausalLog) (id : BitVec 64) : Prop := ∃ fuel, (l.getCausalChain fuel (some id)).isSome

def next (l : CausalLog) (id : BitVec 64) : Option (BitVec 64) := (l.getEvent id).bind (·.causeId)

variable {l : CausalLog} {id : BitVec 64}

theorem getCausalChain_succ {e : CausalEvent} (he : l.getEvent id = some e) (fuel : Nat) :
    l.getCausalChain (fuel + 1) (some id) = (l.getCausalChain fuel e.causeId).map (e :: ·) := by
  rw [getCausalChain, he]

theorem ends_iff : l.Ends id ↔ Stops l.next id := by
  constructor
  · rintro ⟨fuel, h⟩
    induction fuel generalizing id with
    | zero => cases h
    | succ fuel ih =>
      cases he : l.getEvent id with
      | none => exact .last (by rw [next, he]; rfl)
      | some e =>
        have hnext : l.next id = e.causeId := by rw [next, he]; rfl
        rw [getCausalChain_succ he, isSome_map] at h
        cases hc : e.causeId with
        | none => exact .last (hnext.trans hc)
        | some c => exact .more (hnext.trans hc) (ih (by rwa [hc] at h))
  · intro h
    induction h with
    | @last id h =>
      refine ⟨2, ?_⟩
      grind [next, getCausalChain]
    | @more id c h _ ih =>
      obtain ⟨fuel, hfuel⟩ := ih
      obtain ⟨e, he, hc⟩ := bind_eq_some_iff.1 h
      exact ⟨fuel + 1, by rwa [getCausalChain_succ he, hc, isSome_map]⟩

/-- The cause does not lead to the event that is about to be logged, through the events that are left then. -/
def NoCircle (l : CausalLog) (cause : Option (BitVec 64)) : Prop := ∀ c ∈ cause, ¬Leads l.evicted.next c l.nextId

end CausalLog

/-! ### Runs -/

/-- The log, and all events since it was created. -/
structure Logged where
  log : CausalLog
  events : List CausalEvent

namespace Logged

def start : Logged := ⟨.new, []⟩

def exec (h : Logged) (call : LogCall) : Logged := ⟨(h.log.log call).2, h.events ++ [call.event (h.log.log call).1]⟩

/-- The cause is none or the number of an earlier event. -/
def Earlier (h : Logged) (call : LogCall) : Prop := ∀ c ∈ call.cause, c ∈ h.events.map (·.id)

/-- The log has the last events, and they are numbered. -/
structure Inv (h : Logged) : Prop where
  window : h.log.events = h.events.drop (h.events.length - maxCausalEvents)
  nextId : h.log.nextId = BitVec.ofNat 64 h.events.length
  ids : ∀ i e, h.events[i]? = some e → e.id = BitVec.ofNat 64 i

variable {h : Logged}

theorem length_run (calls : List LogCall) : (run exec h calls).events.length = h.events.length + calls.length := by
  induction calls generalizing h with
  | nil => rfl
  | cons c calls ih =>
    simp [run_cons, ih, exec, length_append, length_cons, length_nil]
    omega

theorem getElem?_exec {call : LogCall} {i : Nat} {e : CausalEvent} (hi : (h.exec call).events[i]? = some e) :
    h.events[i]? = some e ∨ i = h.events.length ∧ e = call.event h.log.nextId := by
  change (h.events ++ [call.event h.log.nextId])[i]? = some e at hi
  rcases Nat.lt_trichotomy i h.events.length with hlt | rfl | hgt
  · grind
  · simp_all
  · grind

theorem Inv.evicted (hi : h.Inv) : h.log.evicted.events = h.events.drop (h.events.length + 1 - maxCausalEvents) := by
  unfold CausalLog.evicted
  grind [hi.window, tail_drop]

theorem Inv.exec (hi : h.Inv) (call : LogCall) : (h.exec call).Inv where
  window := by
    change h.log.evicted.events ++ _ = (h.events ++ _).drop ((h.events ++ _).length - maxCausalEvents)
    have hmax : maxCausalEvents = 1024 := rfl
    rw [hi.evicted, length_append, length_singleton, drop_append_of_le_length (by omega)]
    rfl
  nextId := by
    change h.log.nextId + 1 = BitVec.ofNat 64 (h.events ++ _).length
    rw [hi.nextId, length_append, ofNat_add]
    rfl
  ids := by
    intro i e he
    rcases getElem?_exec he with he | ⟨rfl, rfl⟩
    · exact hi.ids i e he
    · exact hi.nextId

theorem inv_run (calls : List LogCall) : (run exec start calls).Inv :=
  run_invariant (Q := fun _ => True) (fun _ call hi _ => hi.exec call) ⟨rfl, rfl, by simp [start]⟩ fun _ _ => trivial

section

variable (hi : h.Inv)
include hi

theorem Inv.exists_index {k : Nat} {e : CausalEvent} (he : e ∈ h.events.drop k) :
    ∃ i, k ≤ i ∧ i < h.events.length ∧ h.events[i]? = some e ∧ e.id = BitVec.ofNat 64 i := by
  obtain ⟨j, hj⟩ := mem_iff_getElem?.1 he
  rw [getElem?_drop] at hj
  exact ⟨k + j, Nat.le_add_right .., (List.getElem?_eq_some_iff.1 hj).1, hj, hi.ids _ e hj⟩

theorem Inv.getEvent_iff {id : BitVec 64} {e : CausalEvent} :
    h.log.getEvent id = some e ↔ e ∈ h.log.events ∧ e.id = id := by
  refine ⟨fun hf => ⟨mem_of_find?_eq_some hf, by simpa using find?_some hf⟩, ?_⟩
  rintro ⟨hmem, rfl⟩
  obtain ⟨e', he'⟩ : ∃ e', h.log.getEvent e.id = some e' :=
    isSome_iff_exists.1 (find?_isSome.2 ⟨e, hmem, by simp⟩)
  have hid : e'.id = e.id := by simpa using find?_some he'
  have hmem' := mem_of_find?_eq_some he'
  rw [hi.window] at hmem hmem'
  obtain ⟨i, hik, hin, hget, hidi⟩ := hi.exists_index hmem
  obtain ⟨j, hjk, hjn, hget', hidj⟩ := hi.exists_index hmem'
  rw [hidi, hidj] at hid
  have hij : j % 2 ^ 64 = i % 2 ^ 64 := congrArg BitVec.toNat hid
  grind [maxCausalEvents]

theorem Inv.next_exec (call : LogCall) :
    h.log.evicted.next h.log.nextId = none ∧
      (h.exec call).log.getEvent h.log.nextId = some (call.event h.log.nextId) ∧
      (h.exec call).log.next = update h.log.evicted.next h.log.nextId call.cause := by
  have hnone : h.log.evicted.getEvent h.log.nextId = none := by
    refine find?_eq_none.2 fun e he => ?_
    rw [hi.evicted] at he
    obtain ⟨i, hik, hin, -, hid⟩ := hi.exists_index he
    rw [decide_eq_true_eq, hid, hi.nextId]
    intro heq
    have hmod : i % 2 ^ 64 = h.events.length % 2 ^ 64 := congrArg BitVec.toNat heq
    rw [maxCausalEvents] at hik
    omega
  have hget : ∀ id, (h.exec call).log.getEvent id =
      (h.log.evicted.getEvent id).or (if h.log.nextId = id then some (call.event h.log.nextId) else none) := by
    intro id
    change (h.log.evicted.events ++ [call.event h.log.nextId]).find? _ = _
    by_cases hid : h.log.nextId = id
    · simp [CausalLog.getEvent, LogCall.event, hid]
    · simp [CausalLog.getEvent, LogCall.event, hid]
  refine ⟨by rw [CausalLog.next, hnone]; rfl, by rw [hget, hnone, if_pos rfl]; rfl, funext fun id => ?_⟩
  by_cases hid : h.log.nextId = id
  · subst hid
    rw [update_self, CausalLog.next, hget, hnone, if_pos rfl]
    rfl
  · grind [CausalLog.next]

theorem Inv.stops_evicted {id : BitVec 64} (hs : Stops h.log.next id) : Stops h.log.evicted.next id := by
  refine hs.of_le fun a b hab => ?_
  obtain ⟨e, he, hb⟩ := bind_eq_some_iff.1 hab
  have hmem : e ∈ h.log.events := by
    have hmem := mem_of_find?_eq_some he
    unfold CausalLog.evicted at hmem
    split at hmem
    · exact mem_of_mem_tail hmem
    · exact hmem
  have hget := hi.getEvent_iff.2 ⟨hmem, by simpa using find?_some he⟩
  exact bind_eq_some_iff.2 ⟨e, hget, hb⟩

theorem Inv.ends_exec_iff (hends : ∀ id, h.log.Ends id) (call : LogCall) :
    (∀ id, (h.exec call).log.Ends id) ↔ h.log.NoCircle call.cause := by
  obtain ⟨hfree, -, hnext⟩ := hi.next_exec call
  have hs : ∀ id, Stops h.log.evicted.next id := fun id => hi.stops_evicted (CausalLog.ends_iff.1 (hends id))
  simp only [CausalLog.ends_iff, hnext, CausalLog.NoCircle]
  cases call.cause with
  | none =>
    grind [update_eq_self]
  | some c => simpa using stops_update_iff hs hfree

end

/-- In every state of a run all chains end, if and only if no call gives a cause that leads to the new event. -/
theorem chains_end_iff (calls : List LogCall) :
    Always exec (fun h => ∀ id, h.log.Ends id) start calls ↔
      Meets exec (fun h call => h.log.NoCircle call.cause) start calls := by
  refine always_iff_meets (I := fun h => h.Inv ∧ ∀ id, h.log.Ends id) (R := fun _ => True) (fun _ hi => hi.2) ?_ ?_
    ⟨inv_run [], fun id => ⟨1, rfl⟩⟩ fun _ _ => trivial
  · intro h call _ hi hq
    exact ⟨hi.1.exec call, (hi.1.ends_exec_iff hi.2 call).2 hq⟩
  · intro h call _ hi hq hends
    exact hq ((hi.1.ends_exec_iff hi.2 call).1 hends)

/-- The first event names itself as its cause. -/
theorem self_cause_never_ends :
    ¬(run exec start [⟨.boot, some 0, Vector.replicate 40 0, 0, 0⟩]).log.Ends 0 := by
  rw [CausalLog.ends_iff]
  exact fun hs => hs.not_circle rfl .refl

/-! ### Chains -/

/-- The chain starts at the event and follows the causes through the log, back to an event without a cause or whose cause is
no longer in the log. -/
structure Traces (h : Logged) (id : BitVec 64) (chain : List CausalEvent) : Prop where
  first : chain.head? = h.log.getEvent id
  follows : chain.IsChain fun e e' => e.causeId = some e'.id ∧ h.log.getEvent e'.id = some e' ∧ e'.id < e.id
  last : ∀ e ∈ chain.getLast?, ∀ c ∈ e.causeId, h.log.getEvent c = none ∧ c ∈ h.events.map (·.id)

/-- The log has exactly the last events, in the order of their numbers, and every chain ends and follows the causes. -/
structure Faithful (h : Logged) : Prop where
  window : h.log.events = h.events.drop (h.events.length - maxCausalEvents)
  ids : ∀ (i : Nat) (e : CausalEvent), h.events[i]? = some e → e.id.toNat = i
  getEvent : ∀ id, (h.log.getEvent id).isSome ↔
    h.events.length - maxCausalEvents ≤ id.toNat ∧ id.toNat < h.events.length
  chain : ∀ id, ∃ fuel chain, h.log.getCausalChain fuel (some id) = some chain ∧ h.Traces id chain ∧
    chain.length ≤ maxCausalEvents

def Causal (h : Logged) : Prop := ∀ i e, h.events[i]? = some e → ∀ c ∈ e.causeId, ∃ j < i, c = BitVec.ofNat 64 j

theorem Causal.exec (hc : h.Causal) (hi : h.Inv) {call : LogCall} (he : h.Earlier call) : (h.exec call).Causal := by
  intro i e hget c hca
  rcases getElem?_exec hget with hget | ⟨rfl, rfl⟩
  · exact hc i e hget c hca
  · obtain ⟨e', hmem, rfl⟩ := mem_map.1 (he c hca)
    obtain ⟨j, hj⟩ := mem_iff_getElem?.1 hmem
    exact ⟨j, (List.getElem?_eq_some_iff.1 hj).1, hi.ids j e' hj⟩

theorem Inv.getEvent_eq (hi : h.Inv) (hn : h.events.length ≤ 2 ^ 64) (id : BitVec 64) :
    h.log.getEvent id = if h.events.length - maxCausalEvents ≤ id.toNat then h.events[id.toNat]? else none := by
  apply ext
  intro e
  rw [hi.getEvent_iff, hi.window]
  constructor
  · rintro ⟨hmem, rfl⟩
    obtain ⟨i, hik, hin, hget, hid⟩ := hi.exists_index hmem
    grind
  · intro hget
    split at hget
    next hle =>
      refine ⟨mem_iff_getElem?.2 ⟨id.toNat - (h.events.length - maxCausalEvents), ?_⟩, ?_⟩
      · rw [getElem?_drop, Nat.add_sub_cancel' hle, hget]
      · rw [hi.ids _ e hget, ofNat_toNat, setWidth_eq]
    next => cases hget

theorem Traces.cons (hi : h.Inv) {id c : BitVec 64} {e : CausalEvent} {rest : List CausalEvent}
    (hget : h.log.getEvent id = some e) (hca : e.causeId = some c) (hlt : c < id) (hc : c ∈ h.events.map (·.id))
    (htr : h.Traces c rest) : h.Traces id (e :: rest) where
  first := hget.symm
  follows := by
    refine isChain_cons.2 ⟨fun e' he' => ?_, htr.follows⟩
    have hget' := htr.first.symm.trans he'
    rw [(hi.getEvent_iff.1 hget').2, (hi.getEvent_iff.1 hget).2]
    exact ⟨hca, hget', hlt⟩
  last := by
    intro e' he' c' hc'
    cases rest with
    | nil =>
      obtain rfl : e = e' := by simpa using he'
      obtain rfl : c = c' := some.inj (hca.symm.trans hc')
      exact ⟨htr.first.symm, hc⟩
    | cons e2 rest => exact htr.last e' (by simpa using he') c' hc'

theorem Inv.exists_chain (hi : h.Inv) (hc : h.Causal) (hn : h.events.length ≤ 2 ^ 64) (m : Nat) :
    ∀ id : BitVec 64, id.toNat = m → ∃ fuel chain, h.log.getCausalChain fuel (some id) = some chain ∧ h.Traces id chain ∧
      (chain = [] ∨ chain.length + (h.events.length - maxCausalEvents) ≤ m + 1) := by
  -- the cause of an event has a smaller number
  induction m using Nat.strong_induction_on with
  | _ m ih =>
    intro id hid
    cases hget : h.log.getEvent id with
    | none => exact ⟨1, [], by rw [CausalLog.getCausalChain, hget], ⟨hget.symm, .nil, nofun⟩, .inl rfl⟩
    | some e =>
      have hcond := hget
      rw [hi.getEvent_eq hn, ite_none_right_eq_some] at hcond
      obtain ⟨hle, hev⟩ := hcond
      have hlt := (List.getElem?_eq_some_iff.1 hev).1
      cases hca : e.causeId with
      | none =>
        refine ⟨2, [e], by rw [CausalLog.getCausalChain_succ hget, hca]; rfl, ⟨hget.symm, .singleton e, ?_⟩, .inr ?_⟩
        · simp [hca]
        · rw [length_singleton]
          omega
      | some c =>
        obtain ⟨j, hj, rfl⟩ := hc _ e hev c hca
        have hjNat : (BitVec.ofNat 64 j).toNat = j := by rw [BitVec.toNat_ofNat, Nat.mod_eq_of_lt (by omega)]
        obtain ⟨fuel, rest, hrest, htr, hlen⟩ := ih j (by omega) _ hjNat
        obtain ⟨e', he'⟩ : ∃ e', h.events[j]? = some e' := ⟨_, getElem?_eq_getElem (by omega)⟩
        have hmem : BitVec.ofNat 64 j ∈ h.events.map (·.id) :=
          mem_map.2 ⟨e', mem_of_getElem? he', hi.ids j e' he'⟩
        refine ⟨fuel + 1, e :: rest, by rw [CausalLog.getCausalChain_succ hget, hca, hrest]; rfl,
          .cons hi hget hca (by rw [lt_def]; omega) hmem htr, .inr ?_⟩
        rw [length_cons]
        rcases hlen with rfl | hlen
        · rw [length_nil]
          omega
        · omega

theorem Inv.faithful (hi : h.Inv) (hc : h.Causal) (hn : h.events.length ≤ 2 ^ 64) : h.Faithful where
  window := hi.window
  ids := by
    intro i e he
    have := (List.getElem?_eq_some_iff.1 he).1
    rw [hi.ids i e he, toNat_ofNat, Nat.mod_eq_of_lt (by omega)]
  getEvent := by
    intro id
    rw [hi.getEvent_eq hn]
    split <;> simp [*]
  chain := by
    intro id
    obtain ⟨fuel, chain, hch, htr, hlen⟩ := hi.exists_chain hc hn _ id rfl
    refine ⟨fuel, chain, hch, htr, ?_⟩
    rcases hlen with rfl | hlen
    · exact Nat.zero_le _
    · cases hget : h.log.getEvent id with
      | none =>
        rw [head?_eq_none_iff.1 (htr.first.trans hget)]
        exact Nat.zero_le _
      | some e =>
        rw [hi.getEvent_eq hn] at hget
        split at hget
        · have := (List.getElem?_eq_some_iff.1 hget).1
          omega
        · cases hget

/-- Up to 2^64 events in which each cause was logged before. -/
theorem causal_chains_faithful (calls : List LogCall) (hn : calls.length ≤ 2 ^ 64)
    (hcauses : Meets exec Earlier start calls) :
    (run exec start calls).events.length = calls.length ∧ (run exec start calls).Faithful := by
  have hlen : (run exec start calls).events.length = calls.length := (length_run calls).trans (Nat.zero_add _)
  have hcausal : (run exec start calls).Causal := by
    have ha := always_of_meets (I := fun h => h.Inv ∧ h.Causal) (P := Causal) (R := fun _ => True)
      (fun _ hi => hi.2) (fun h call _ hi he => ⟨hi.1.exec call, hi.2.exec hi.1 he⟩)
      ⟨inv_run [], by simp [Causal, start]⟩ (fun _ _ => trivial) hcauses
    exact ha.run
  exact ⟨hlen, (inv_run calls).faithful hcausal (by omega)⟩

/-- Two events, the second caused by the first. -/
theorem causal_chains_faithful_two :
    (run exec start [⟨.boot, none, Vector.replicate 40 0, 0, 0⟩, ⟨.custom, some 0, Vector.replicate 40 0, 0, 0⟩]).Faithful := by
  refine And.right (causal_chains_faithful _ (by decide) ?_)
  refine ⟨nofun, fun c hc => ?_, trivial⟩
  obtain rfl := some.inj hc
  exact mem_cons_self

theorem exists_full :
    ∃ calls, Meets exec Earlier start calls ∧ (run exec start calls).events.length = 2 ^ 64 - 1 := by
  obtain ⟨calls, hlen, hnone⟩ : ∃ calls : List LogCall, calls.length = 2 ^ 64 - 1 ∧ ∀ a ∈ calls, a.cause = none :=
    ⟨replicate _ ⟨.boot, none, Vector.replicate 40 0, 0, 0⟩, length_replicate, fun a ha => by
      rw [eq_of_mem_replicate ha]⟩
  refine ⟨calls, ?_, (length_run calls).trans (by rw [hlen]; rfl)⟩
  refine meets_of_meets (I := fun _ => True) (R := fun a => a.cause = none) (fun _ a ha _ _ x hx => ?_)
    (fun _ _ _ _ _ => trivial) trivial hnone (meets_of_forall (Q := fun _ _ => True) (fun _ _ => trivial) _ _)
  rw [ha] at hx
  cases hx

/-- After 2^64 events the numbers start again: the event with the number 0 may be caused by the one with the greatest. -/
theorem causal_chain_wraps :
    ∃ calls, Meets exec Earlier start calls ∧ ∃ id e e',
      (run exec start calls).log.getCausalChain 3 (some id) = some [e, e'] ∧ e.id < e'.id := by
  obtain ⟨calls, hm, hlen⟩ := exists_full
  have hg := inv_run calls
  let c : LogCall := ⟨.boot, none, Vector.replicate 40 0, 0, 0⟩
  let c' : LogCall := { c with cause := some (allOnes 64) }
  refine ⟨calls ++ [c, c'], ?_⟩
  rw [meets_append, run_append]
  generalize run exec start calls = g at hlen hg
  have hnext : g.log.nextId = allOnes 64 := hg.nextId.trans (by rw [hlen]; rfl)
  have hnext' : (g.exec c).log.nextId = 0 := by
    change g.log.nextId + 1 = 0
    rw [hnext]
    rfl
  have hc' : ((g.exec c).exec c').log.getEvent 0 = some (c'.event 0) := by
    have := ((hg.exec c).next_exec c').2.1
    rwa [hnext'] at this
  have hc : ((g.exec c).exec c').log.getEvent (allOnes 64) = some (c.event (allOnes 64)) := by
    refine ((hg.exec c).exec c').getEvent_iff.2 ⟨mem_append_left _ ?_, rfl⟩
    have hev : (g.exec c).events = g.events ++ [c.event (allOnes 64)] := by rw [← hnext]; rfl
    have hmax : maxCausalEvents = 1024 := rfl
    rw [(hg.exec c).evicted, hev, length_append, length_singleton,
      drop_append_of_le_length (by omega)]
    exact mem_append_right _ mem_cons_self
  refine ⟨⟨hm, nofun, ?_, trivial⟩, 0, c'.event 0, c.event (allOnes 64), ?_, ?_⟩
  · intro x hx
    obtain rfl := some.inj hx
    exact mem_map.2 ⟨_, mem_append_right _ mem_cons_self, hnext⟩
  · change ((g.exec c).exec c').log.getCausalChain 3 (some 0) = _
    rw [CausalLog.getCausalChain_succ hc', show (c'.event 0).causeId = some (allOnes 64) from rfl,
      CausalLog.getCausalChain_succ hc]
    rfl
  · decide

end Logged

end AstralOS.Reality
