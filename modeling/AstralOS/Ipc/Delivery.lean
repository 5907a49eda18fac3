import AstralOS.Ipc.Channel
import AstralOS.Lib.Ledger
import AstralOS.Lib.Run

/-!
# Channels deliver exactly once and in order

A section of a call does nothing to the buffer, or it is the one push of a `send`, or the one pop of a receive
(`advance_cases`).  So over every interleaving the messages of the pops, followed by the buffer, are the messages of
the pushes, and the pushes and pops of a call are the ones its place accounts for (`Inv`).
-/

namespace AstralOS.Ipc

open Proc

def Call.pushed : Call → Option Message
  | .send msg (.wake _) => some msg
  | .send msg (.returned (.ok ())) => some msg
  | _ => none

def Call.popped : Call → Option Message
  | .recv (.wake msg _) => some msg
  | .recv (.returned (.ok msg)) => some msg
  | .tryRecv (.wake msg _) => some msg
  | .tryRecv (.unlock (.ok msg)) => some msg
  | .tryRecv (.returned (.ok msg)) => some msg
  | _ => none

/-! ### What a section does -/

/-- The section does not touch the buffer. -/
structure Quiet (m m' : Machine) (c c' : Call) : Prop where
  buffer : m'.buffer = m.buffer
  pushes : m'.pushes = m.pushes
  pops : m'.pops = m.pops
  pushed : c'.pushed = c.pushed
  popped : c'.popped = c.popped

/-- The section is the push of the call `i`. -/
structure Pushes (i : Nat) (msg : Message) (m m' : Machine) (c c' : Call) : Prop where
  buffer : m.buffer.push msg = (true, m'.buffer)
  pushes : m'.pushes = m.pushes ++ [(i, msg)]
  pops : m'.pops = m.pops
  before : c.pushed = none
  after : c'.pushed = some msg
  popped : c'.popped = c.popped

/-- The section is the pop of the call `i`. -/
structure Pops (i : Nat) (msg : Message) (m m' : Machine) (c c' : Call) : Prop where
  buffer : m.buffer.pop = (some msg, m'.buffer)
  pushes : m'.pushes = m.pushes
  pops : m'.pops = m.pops ++ [(i, msg)]
  pushed : c'.pushed = c.pushed
  before : c.popped = none
  after : c'.popped = some msg

variable {m : Machine} {xs : List Message}

theorem send_cases (i cpu : Nat) (msg : Message) (pc : SendPc) :
    Quiet m (m.send i cpu msg pc).1 (.send msg pc) (.send msg (m.send i cpu msg pc).2) ∨
      Pushes i msg m (m.send i cpu msg pc).1 (.send msg pc) (.send msg (m.send i cpu msg pc).2) := by
  cases pc with
  | push =>
    simp only [Machine.send]
    split_ifs
    · exact Or.inl ⟨rfl, rfl, rfl, rfl, rfl⟩
    · split
      · rename_i buffer hpush
        exact Or.inr ⟨hpush, rfl, rfl, rfl, rfl, rfl⟩
      · rename_i buffer hpush
        have hsame : buffer = m.buffer := by
          grind [Circular.push]
        exact Or.inl ⟨hsame, rfl, rfl, rfl, rfl⟩
  | wake task | wait task =>
    left
    simp only [Machine.send, Machine.advanceTask]
    cases (m.sys.advance task).2 <;> exact ⟨rfl, rfl, rfl, rfl, rfl⟩
  | currentPid =>
    left
    simp only [Machine.send]
    cases m.sys.getCurrentPid <;> exact ⟨rfl, rfl, rfl, rfl, rfl⟩
  | loadClosed | reloadClosed =>
    left
    simp only [Machine.send]
    split_ifs <;> exact ⟨rfl, rfl, rfl, rfl, rfl⟩
  | returned result => exact Or.inl ⟨rfl, rfl, rfl, rfl, rfl⟩

theorem recv_cases (hb : m.buffer.Holds xs) (i cpu : Nat) (pc : RecvPc) :
    Quiet m (m.recv i cpu pc).1 (.recv pc) (.recv (m.recv i cpu pc).2) ∨
      ∃ msg, Pops i msg m (m.recv i cpu pc).1 (.recv pc) (.recv (m.recv i cpu pc).2) := by
  cases pc with
  | pop =>
    simp only [Machine.recv]
    split_ifs
    · exact Or.inl ⟨rfl, rfl, rfl, rfl, rfl⟩
    · split
      · rename_i msg buffer hpop
        exact Or.inr ⟨msg, hpop, rfl, rfl, rfl, rfl, rfl⟩
      · rename_i buffer hpop
        exact Or.inl ⟨hb.pop_none hpop, rfl, rfl, rfl, rfl⟩
  | wake _ task | wait task =>
    left
    simp only [Machine.recv, Machine.advanceTask]
    cases (m.sys.advance task).2 <;> exact ⟨rfl, rfl, rfl, rfl, rfl⟩
  | currentPid =>
    left
    simp only [Machine.recv]
    cases m.sys.getCurrentPid <;> exact ⟨rfl, rfl, rfl, rfl, rfl⟩
  | loadClosed =>
    left
    simp only [Machine.recv]
    split_ifs <;> exact ⟨rfl, rfl, rfl, rfl, rfl⟩
  | returned result => exact Or.inl ⟨rfl, rfl, rfl, rfl, rfl⟩

theorem tryRecv_cases (hb : m.buffer.Holds xs) (i : Nat) (pc : TryRecvPc) :
    Quiet m (m.tryRecv i pc).1 (.tryRecv pc) (.tryRecv (m.tryRecv i pc).2) ∨
      ∃ msg, Pops i msg m (m.tryRecv i pc).1 (.tryRecv pc) (.tryRecv (m.tryRecv i pc).2) := by
  cases pc with
  | pop =>
    simp only [Machine.tryRecv]
    split_ifs
    · exact Or.inl ⟨rfl, rfl, rfl, rfl, rfl⟩
    · split
      · rename_i msg buffer hpop
        exact Or.inr ⟨msg, hpop, rfl, rfl, rfl, rfl, rfl⟩
      · rename_i buffer hpop
        exact Or.inl ⟨hb.pop_none hpop, rfl, rfl, rfl, rfl⟩
  | wake msg task =>
    left
    simp only [Machine.tryRecv, Machine.advanceTask]
    cases (m.sys.advance task).2 <;> exact ⟨rfl, rfl, rfl, rfl, rfl⟩
  | loadClosed =>
    left
    simp only [Machine.tryRecv]
    split_ifs <;> exact ⟨rfl, rfl, rfl, rfl, rfl⟩
  | unlock result =>
    left
    cases result <;> exact ⟨rfl, rfl, rfl, rfl, rfl⟩
  | returned result => exact Or.inl ⟨rfl, rfl, rfl, rfl, rfl⟩

theorem close_quiet (pc : ClosePc) : Quiet m (m.close pc).1 (.close pc) (.close (m.close pc).2) := by
  cases pc with
  | store | returned => exact ⟨rfl, rfl, rfl, rfl, rfl⟩
  | wakeSenders task | wakeReceivers task =>
    simp only [Machine.close, Machine.advanceTask]
    cases (m.sys.advance task).2 <;> exact ⟨rfl, rfl, rfl, rfl, rfl⟩

theorem advance_cases (hb : m.buffer.Holds xs) (i cpu : Nat) (c : Call) :
    Quiet m (m.advance i cpu c).1 c (m.advance i cpu c).2 ∨
      (∃ msg, Pushes i msg m (m.advance i cpu c).1 c (m.advance i cpu c).2) ∨
      ∃ msg, Pops i msg m (m.advance i cpu c).1 c (m.advance i cpu c).2 := by
  cases c with
  | send msg pc =>
    rcases send_cases i cpu msg pc with h | h
    · exact Or.inl h
    · exact Or.inr (Or.inl ⟨msg, h⟩)
  | recv pc =>
    rcases recv_cases hb i cpu pc with h | h
    · exact Or.inl h
    · exact Or.inr (Or.inr h)
  | tryRecv pc =>
    rcases tryRecv_cases hb i pc with h | h
    · exact Or.inl h
    · exact Or.inr (Or.inr h)
  | close pc => exact Or.inl (close_quiet pc)

/-! ### Runs -/

/-- The buffer holds what was pushed and not popped, and the places of the calls account for pushes and pops. -/
structure Inv (m : Machine) : Prop where
  queue : ∃ xs, m.buffer.Holds xs ∧ m.pops.map Prod.snd ++ xs = m.pushes.map Prod.snd
  pushed : Recorded m.pushes (madeBy Call.pushed m.calls)
  popped : Recorded m.pops (madeBy Call.popped m.calls)

theorem inv_new (sys : Sys) : Inv (Machine.new sys) :=
  ⟨⟨[], Circular.holds_new (by decide), rfl⟩, fun _ => rfl, fun _ => rfl⟩

theorem Inv.start (h : Inv m) {c : Call} (hpu : c.pushed = none) (hpo : c.popped = none) :
    Inv { m with calls := m.calls ++ [c] } :=
  ⟨h.queue, h.pushed.congr (madeBy_snoc hpu), h.popped.congr (madeBy_snoc hpo)⟩

theorem Inv.advance (h : Inv m) {i : Nat} {c : Call} (hc : m.calls[i]? = some c) (cpu : Nat) :
    Inv { (m.advance i cpu c).1 with calls := m.calls.set i (m.advance i cpu c).2 } := by
  obtain ⟨xs, hh, hqu⟩ := h.queue
  rcases advance_cases hh i cpu c with hq | ⟨msg, hp⟩ | ⟨msg, hp⟩
  · refine ⟨⟨xs, ?_, ?_⟩, ?_, ?_⟩
    · exact hq.buffer ▸ hh
    · simpa only [hq.pushes, hq.pops] using hqu
    · simpa only [hq.pushes] using h.pushed.congr (madeBy_set hc hq.pushed)
    · simpa only [hq.pops] using h.popped.congr (madeBy_set hc hq.popped)
  · refine ⟨⟨xs ++ [msg], hh.push hp.buffer, ?_⟩, ?_, ?_⟩
    · simp only [hp.pushes, hp.pops, List.map_append, List.map_cons, List.map_nil, ← hqu, List.append_assoc]
    · simp only [hp.pushes]
      exact h.pushed.add ((madeBy_of_get hc).trans hp.before) ((madeBy_set_self hc).trans hp.after)
        fun _ hj => madeBy_set_of_ne hj
    · simpa only [hp.pops] using h.popped.congr (madeBy_set hc hp.popped)
  · obtain ⟨rest, rfl, hrest⟩ := hh.pop hp.buffer
    refine ⟨⟨rest, hrest, ?_⟩, ?_, ?_⟩
    · grind [hp.pushes, hp.pops, List.map_append, List.map_cons, List.map_nil, List.append_assoc,
        List.singleton_append]
    · simpa only [hp.pushes] using h.pushed.congr (madeBy_set hc hp.pushed)
    · simp only [hp.pops]
      exact h.popped.add ((madeBy_of_get hc).trans hp.before) ((madeBy_set_self hc).trans hp.after)
        fun _ hj => madeBy_set_of_ne hj

theorem inv_step (m : Machine) (a : Action) (h : Inv m) : Inv (step m a) := by
  unfold step
  split_ifs
  · exact h
  · cases a with
    | send _ | recv | tryRecv | close => exact h.start rfl rfl
    | advance i cpu =>
      dsimp only
      split
      · exact h
      · rename_i c hc
        exact h.advance hc cpu
    | kernel action => exact ⟨h.queue, h.pushed, h.popped⟩

def Machine.received (m : Machine) : List Message := m.pops.filterMap fun pop => madeBy Call.popped m.calls pop.1

/-- Every message is delivered once, in order. -/
structure ExactlyOnce (m : Machine) : Prop where
  /-- The received messages and the buffer are what was pushed. -/
  inOrder : m.received ++ m.buffer.contents = m.pushes.map Prod.snd
  bounded : m.buffer.contents.length = m.buffer.count ∧ m.buffer.count ≤ 64
  sendOk : ∀ i msg, m.calls[i]? = some (.send msg (.returned (.ok ()))) → m.pushes.filter (·.1 = i) = [(i, msg)]
  sendErr : ∀ i msg e, m.calls[i]? = some (.send msg (.returned (.error e))) → m.pushes.filter (·.1 = i) = []
  /-- A receive that returned a message has made one pop, that of the message. -/
  recvOk : ∀ i msg, m.calls[i]? = some (.recv (.returned (.ok msg))) ∨
    m.calls[i]? = some (.tryRecv (.returned (.ok msg))) → m.pops.filter (·.1 = i) = [(i, msg)]
  /-- A receive that returned an error has made no pop. -/
  recvErr : ∀ i e, m.calls[i]? = some (.recv (.returned (.error e))) ∨
    m.calls[i]? = some (.tryRecv (.returned (.error e))) → m.pops.filter (·.1 = i) = []

theorem Inv.exactlyOnce (h : Inv m) : ExactlyOnce m := by
  obtain ⟨xs, hh, hq⟩ := h.queue
  have hp : ∀ {i c}, m.calls[i]? = some c → m.pushes.filter (·.1 = i) = c.pushed.toList.map (i, ·) := by
    intro i c hc
    rw [h.pushed i, madeBy_of_get hc]
  have hpops : ∀ {i c}, m.calls[i]? = some c → m.pops.filter (·.1 = i) = c.popped.toList.map (i, ·) := by
    intro i c hc
    rw [h.popped i, madeBy_of_get hc]
  refine ⟨?_, ?_, fun i msg hc => hp hc, fun i msg e hc => hp hc, ?_, ?_⟩
  · rw [Machine.received, h.popped.filterMap_made, hh.contents, hq]
  · rw [hh.contents]
    exact ⟨hh.count_eq.symm, hh.count_le⟩
  · rintro i msg (hc | hc)
    · exact hpops hc
    · exact hpops hc
  · rintro i e (hc | hc)
    · exact hpops hc
    · exact hpops hc

/-- In every interleaving of calls on a new channel, every message is delivered once and in order. -/
theorem channel_exactly_once (sys : Sys) (actions : List Action) :
    ExactlyOnce (run step (Machine.new sys) actions) :=
  (run_invariant (Q := fun _ => True) (fun m a h _ => inv_step m a h) (inv_new sys) fun _ _ => trivial).exactlyOnce

/-- A message is sent and received, though the receiver comes first and finds nothing. -/
example :
    let hello := Message.new 1 7 [104, 105]
    let m := run step (Machine.new (Sys.boot .new 1))
      [.recv, .advance 0 0, .send hello, .advance 1 0, .advance 1 0, .tryRecv, .advance 2 0, .advance 2 0, .advance 2 0]
    m.received.map Message.sender = [7] ∧ m.buffer.contents.length = 0 := by
  decide +kernel

end AstralOS.Ipc
