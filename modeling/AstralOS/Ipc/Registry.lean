import AstralOS.Ipc.Channel
import AstralOS.Lib.Ledger
import AstralOS.Lib.Ownership
import AstralOS.Process.Runnable

/-!
# The registry of channels

`create_channel`, `channel_send`, `channel_recv` and `close_channel` of `kernel/src/ipc/mod.rs`.  `channel_send` and
`channel_recv` look the channel up under the registry's lock, keep a raw pointer to it and drop the lock before they
call `send` or `recv`; `close_channel` removes the channel, closes it and drops it, all under the lock.  A call that is
between the lookup and its return can so come back to a channel that is gone (`channel_dropped_in_use`), unless no
channel is dropped while such a call is in progress (`channel_outlives_of_meets`).
-/

namespace AstralOS.Ipc

open Function Proc

/-- A channel in memory. -/
structure Object where
  buffer : MessageBuffer
  closed : Bool
  /-- `close_channel` has removed the channel from the registry and dropped it. -/
  dropped : Bool

/-- A call with the place it has reached.  Channels are known by their number in memory. -/
inductive RegistryCall
  /-- `create_channel`, before it takes an id and makes the channel. -/
  | create
  /-- `create_channel`, before it locks the registry. -/
  | insert (id : BitVec 64) (k : Nat)
  | created (id : BitVec 64)
  /-- `channel_send`, before it locks the registry. -/
  | findSend (id : BitVec 64) (msg : Message)
  | send (k : Nat) (msg : Message) (pc : SendPc)
  /-- `channel_recv`, before it locks the registry. -/
  | findRecv (id : BitVec 64)
  | recv (k : Nat) (pc : RecvPc)
  /-- `channel_send` or `channel_recv` has returned `InvalidChannel`. -/
  | invalid
  /-- `close_channel`, before it locks the registry. -/
  | remove (id : BitVec 64)
  /-- `close_channel`, which keeps the registry's lock until the channel is dropped. -/
  | close (k : Nat) (pc : ClosePc)
  | closed

/-- The channels of the system and the calls made so far. -/
structure Registry where
  sys : Sys
  /-- `NEXT_CHANNEL_ID`. -/
  nextId : BitVec 64
  /-- `CHANNELS`, with the number of each channel in place of the channel. -/
  channels : BitVec 64 → Option Nat
  objects : List Object
  /-- The call that keeps the registry's lock over several sections. -/
  holder : Option Nat
  calls : List RegistryCall

namespace Registry

def new (sys : Sys) : Registry :=
  { sys, nextId := 1, channels := fun _ => none, objects := [], holder := none, calls := [] }

def view (r : Registry) (k : Nat) (o : Object) : Machine :=
  { sys := { r.sys with waiters := fun queue => r.sys.waiters (2 * k + queue) }, buffer := o.buffer, holder := none,
    closed := o.closed, calls := [], pushes := [], pops := [] }

def put (r : Registry) (k : Nat) (o : Object) (m : Machine) : Registry :=
  { r with
    sys := { m.sys with
      waiters := fun queue => if queue / 2 = k then m.sys.waiters (queue % 2) else r.sys.waiters queue }
    objects := r.objects.set k { o with buffer := m.buffer, closed := m.closed } }

def advance (r : Registry) (i cpu : Nat) : RegistryCall → Registry × RegistryCall
  | .create =>
    ({ r with nextId := r.nextId + 1, objects := r.objects ++ [⟨.new, false, false⟩] },
      .insert r.nextId r.objects.length)
  | .insert id k =>
    if r.holder.isSome then (r, .insert id k)
    else ({ r with channels := update r.channels id (some k) }, .created id)
  | .findSend id msg =>
    if r.holder.isSome then (r, .findSend id msg)
    else
      match r.channels id with
      | some k => (r, .send k msg .loadClosed)
      | none => (r, .invalid)
  | .send k msg pc =>
    match r.objects[k]? with
    | some o =>
      let (m, pc') := (r.view k o).send i cpu msg pc
      (r.put k o m, .send k msg pc')
    | none => (r, .send k msg pc)
  | .findRecv id =>
    if r.holder.isSome then (r, .findRecv id)
    else
      match r.channels id with
      | some k => (r, .recv k .pop)
      | none => (r, .invalid)
  | .recv k pc =>
    match r.objects[k]? with
    | some o =>
      let (m, pc') := (r.view k o).recv i cpu pc
      (r.put k o m, .recv k pc')
    | none => (r, .recv k pc)
  | .remove id =>
    if r.holder.isSome then (r, .remove id)
    else
      match r.channels id with
      | some k => ({ r with channels := update r.channels id none, holder := some i }, .close k .store)
      | none => (r, .closed)
  | .close k .returned =>
    ({ r with objects := r.objects.modify k fun o => { o with dropped := true }, holder := none }, .closed)
  | .close k pc =>
    match r.objects[k]? with
    | some o =>
      let (m, pc') := (r.view k o).close pc
      (r.put k o m, .close k pc')
    | none => (r, .close k pc)
  | .created id => (r, .created id)
  | .invalid => (r, .invalid)
  | .closed => (r, .closed)

end Registry

/-! ### Interleavings -/

/-- A call starts, a call in progress takes its next section, or the rest of the system takes a step. -/
inductive RegistryAction
  | createChannel
  | channelSend (id : BitVec 64) (msg : Message)
  | channelRecv (id : BitVec 64)
  | closeChannel (id : BitVec 64)
  | advance (i cpu : Nat)
  | kernel (action : Proc.Action)

namespace Registry

def callOf (r : Registry) : RegistryAction → Option RegistryCall
  | .advance i _ => if r.sys.panicked then none else r.calls[i]?
  | _ => none

def step (r : Registry) (a : RegistryAction) : Registry :=
  if r.sys.panicked then r
  else
    match a with
    | .createChannel => { r with calls := r.calls ++ [.create] }
    | .channelSend id msg => { r with calls := r.calls ++ [.findSend id msg] }
    | .channelRecv id => { r with calls := r.calls ++ [.findRecv id] }
    | .closeChannel id => { r with calls := r.calls ++ [.remove id] }
    | .advance i cpu =>
      match r.calls[i]? with
      | none => r
      | some call => { (r.advance i cpu call).1 with calls := r.calls.set i (r.advance i cpu call).2 }
    | .kernel action => { r with sys := r.sys.step action }

end Registry

/-! ### Accesses -/

def SendPc.accesses : SendPc → Bool
  | .loadClosed | .push | .wake (.wakePop _) | .wait (.waitPush _ _ _) | .reloadClosed => true
  | _ => false

def RecvPc.accesses : RecvPc → Bool
  | .pop | .wake _ (.wakePop _) | .loadClosed | .wait (.waitPush _ _ _) => true
  | _ => false

namespace RegistryCall

def accesses : RegistryCall → Option Nat
  | .send k _ pc => if pc.accesses then some k else none
  | .recv k pc => if pc.accesses then some k else none
  | _ => none

def uses : RegistryCall → Option Nat
  | .send _ _ (.returned _) | .recv _ (.returned _) => none
  | .send k _ _ | .recv k _ => some k
  | _ => none

/-- The channel that the call owns: it has made it and not inserted it yet, or it has removed it. -/
def owns : RegistryCall → Option Nat
  | .insert _ k | .close k _ => some k
  | _ => none

def drops : RegistryCall → Option Nat
  | .close k .returned => some k
  | _ => none

theorem uses_of_accesses {c : RegistryCall} {k : Nat} (h : c.accesses = some k) : c.uses = some k := by
  cases c with
  | send k' msg pc =>
    obtain ⟨hpc, rfl⟩ : pc.accesses = true ∧ k' = k := by simpa [accesses] using h
    cases pc with
    | returned result => simp [SendPc.accesses] at hpc
    | _ => rfl
  | recv k' pc =>
    obtain ⟨hpc, rfl⟩ : pc.accesses = true ∧ k' = k := by simpa [accesses] using h
    cases pc with
    | returned result => simp [RecvPc.accesses] at hpc
    | _ => rfl
  | _ => simp [accesses] at h

end RegistryCall

namespace Registry

variable {r r' : Registry}

def Live (r : Registry) (k : Nat) : Prop := ∃ o, r.objects[k]? = some o ∧ o.dropped = false

/-- The step accesses no channel that has been dropped. -/
def Safe (r : Registry) (a : RegistryAction) : Prop :=
  ∀ c ∈ r.callOf a, ∀ k, c.accesses = some k → ∀ o ∈ r.objects[k]?, o.dropped = false

/-- The condition on a step: a channel is dropped only when every `send` and `recv` on it has returned. -/
def Patient (r : Registry) (a : RegistryAction) : Prop :=
  ∀ c ∈ r.callOf a, ∀ k ∈ c.drops, ∀ d ∈ r.calls, d.uses ≠ some k

instance (r : Registry) (a : RegistryAction) : Decidable (r.Patient a) :=
  @Option.decidableForallMem _ _ (fun _ => Option.decidableForallMem _) _

/-! ### What a section does to the registry -/

/-- What a section of a call does to the registry, and what the call then has. -/
inductive Effect (r r' : Registry) : RegistryCall → RegistryCall → Prop
  /-- The registry stays as it is, and so do the live channels. -/
  | still {c c' : RegistryCall} (hchannels : r'.channels = r.channels) (hlive : ∀ k, r.Live k → r'.Live k)
      (howns : c'.owns = c.owns) (huses : ∀ k, c'.uses = some k → c.uses = some k) : Effect r r' c c'
  /-- A channel is made. -/
  | make {c : RegistryCall} (id : BitVec 64) (hchannels : r'.channels = r.channels)
      (hobjects : r'.objects = r.objects ++ [⟨.new, false, false⟩]) : Effect r r' c (.insert id r.objects.length)
  /-- A channel is put into the registry. -/
  | insert (id : BitVec 64) (k : Nat) (hchannels : r'.channels = update r.channels id (some k))
      (hobjects : r'.objects = r.objects) : Effect r r' (.insert id k) (.created id)
  /-- A channel is found. -/
  | find {c c' : RegistryCall} {id : BitVec 64} {k : Nat} (hid : r.channels id = some k)
      (hchannels : r'.channels = r.channels) (hobjects : r'.objects = r.objects) (howns : c'.owns = c.owns)
      (huses : c'.uses = some k) : Effect r r' c c'
  /-- A channel is taken out of the registry. -/
  | remove {c : RegistryCall} {id : BitVec 64} {k : Nat} (hid : r.channels id = some k)
      (hchannels : r'.channels = update r.channels id none) (hobjects : r'.objects = r.objects) :
      Effect r r' c (.close k .store)
  /-- A channel is dropped. -/
  | drop (k : Nat) (hchannels : r'.channels = r.channels)
      (hobjects : r'.objects = r.objects.modify k fun o => { o with dropped := true }) :
      Effect r r' (.close k .returned) .closed

theorem live_put {k k' : Nat} {o : Object} {m : Machine} (ho : r.objects[k]? = some o) (h : r.Live k') :
    (r.put k o m).Live k' := by
  obtain ⟨o', ho', hlive⟩ := h
  by_cases hk : k = k'
  · subst hk
    obtain rfl : o = o' := Option.some.inj (ho.symm.trans ho')
    obtain ⟨hlt, -⟩ := List.getElem?_eq_some_iff.1 ho
    exact ⟨{ o with buffer := m.buffer, closed := m.closed }, List.getElem?_set_self hlt, hlive⟩
  · exact ⟨o', (List.getElem?_set_ne hk).trans ho', hlive⟩

theorem uses_send {k : Nat} {msg : Message} {pc pc' : SendPc} {m : Machine} {i cpu : Nat}
    (hpc : (m.send i cpu msg pc).2 = pc') {k' : Nat} (h : (RegistryCall.send k msg pc').uses = some k') :
    (RegistryCall.send k msg pc).uses = some k' := by
  cases pc with
  | returned result =>
    subst hpc
    exact h
  | _ => cases pc' <;> first | exact h | simp [RegistryCall.uses] at h

theorem uses_recv {k : Nat} {pc pc' : RecvPc} {m : Machine} {i cpu : Nat}
    (hpc : (m.recv i cpu pc).2 = pc') {k' : Nat} (h : (RegistryCall.recv k pc').uses = some k') :
    (RegistryCall.recv k pc).uses = some k' := by
  cases pc with
  | returned result =>
    subst hpc
    exact h
  | _ => cases pc' <;> first | exact h | simp [RegistryCall.uses] at h

theorem advance_effect (i cpu : Nat) (c : RegistryCall) : Effect r (r.advance i cpu c).1 c (r.advance i cpu c).2 := by
  have hsame : ∀ c, Effect r r c c := fun c => .still rfl (fun _ => id) rfl fun _ => id
  cases c with
  | create => exact .make r.nextId rfl rfl
  | insert id k =>
    simp only [advance]
    split_ifs
    · exact hsame _
    · exact .insert id k rfl rfl
  | findSend id _ | findRecv id =>
    simp only [advance]
    split_ifs
    · exact hsame _
    · cases hid : r.channels id with
      | none => exact .still rfl (fun _ hk => hk) rfl (by simp [RegistryCall.uses])
      | some k => exact .find hid rfl rfl rfl rfl
  | send k msg pc =>
    simp only [advance]
    cases ho : r.objects[k]? with
    | none => exact hsame _
    | some o => exact .still rfl (fun _ => live_put ho) rfl fun _ => uses_send rfl
  | recv k pc =>
    simp only [advance]
    cases ho : r.objects[k]? with
    | none => exact hsame _
    | some o => exact .still rfl (fun _ => live_put ho) rfl fun _ => uses_recv rfl
  | remove id =>
    simp only [advance]
    split_ifs
    · exact hsame _
    · cases hid : r.channels id with
      | none => exact .still rfl (fun _ hk => hk) rfl (by simp [RegistryCall.uses])
      | some k => exact .remove hid rfl rfl
  | close k pc =>
    cases pc with
    | returned => exact .drop k rfl rfl
    | _ =>
      simp only [advance]
      cases ho : r.objects[k]? with
      | none => exact hsame _
      | some o => exact .still rfl (fun _ => live_put ho) rfl (by simp [RegistryCall.uses])
  | created | invalid | closed => exact hsame _

/-! ### Runs -/

/-- What holds in every state of a run of patient steps. -/
def Inv (r : Registry) : Prop :=
  Ownership r.channels (madeBy RegistryCall.owns r.calls) (madeBy RegistryCall.uses r.calls) r.Live

theorem inv_new (sys : Sys) : (new sys).Inv := by
  constructor <;> simp [new, madeBy]

theorem Inv.safe (h : r.Inv) (a : RegistryAction) : r.Safe a := by
  intro c hc k hk o ho
  have hmem : ∃ i : Nat, r.calls[i]? = some c := by
    cases a with
    | advance i cpu =>
      simp only [callOf] at hc
      split_ifs at hc
      · simp at hc
      · exact ⟨i, hc⟩
    | _ => simp [callOf] at hc
  obtain ⟨i, hi⟩ := hmem
  obtain ⟨o', ho', hlive⟩ := h.used ((madeBy_of_get hi).trans (RegistryCall.uses_of_accesses hk))
  simp_all

theorem Inv.section (h : r.Inv) {i : Nat} {c c' : RegistryCall} (hc : r.calls[i]? = some c) (heff : Effect r r' c c')
    (hdrop : ∀ k ∈ c.drops, ∀ d ∈ r.calls, d.uses ≠ some k) : Inv { r' with calls := r.calls.set i c' } := by
  have howns : madeBy RegistryCall.owns r.calls i = c.owns := madeBy_of_get hc
  have huses : madeBy RegistryCall.uses r.calls i = c.uses := madeBy_of_get hc
  have hown : c'.owns = c.owns →
      update (madeBy RegistryCall.owns r.calls) i c'.owns = madeBy RegistryCall.owns r.calls := by
    intro heq
    rw [heq, ← howns, update_eq_self]
  -- a call that has no pointer afterwards may have given one up
  have huse : (∀ k, c'.uses = some k → c.uses = some k) → ∀ j k,
      update (madeBy RegistryCall.uses r.calls) i c'.uses j = some k →
        madeBy RegistryCall.uses r.calls j = some k := by
    intro hsub j k hj
    by_cases hij : j = i
    · simp_all [update_self]
    · rwa [update_of_ne hij] at hj
  have hlive : r'.objects = r.objects → ∀ k, r.Live k → r'.Live k := by
    grind [Live]
  unfold Inv at h ⊢
  simp only [madeBy_set_eq_update hc]
  cases heff with
  | still hch hkept hsame hsub =>
    rw [hch, hown hsame]
    exact h.mono hkept (huse hsub)
  | make id hch hob =>
    have hg : ∀ k, r.Live k → r'.Live k := by
      rintro k ⟨o, ho, hdr⟩
      refine ⟨o, ?_, hdr⟩
      grind
    have hf : ¬ r.Live r.objects.length := by
      rintro ⟨o, ho, -⟩
      simp at ho
    rw [hch]
    refine (h.mono hg (huse (by simp [RegistryCall.uses]))).own ⟨⟨.new, false, false⟩, ?_, rfl⟩ ?_ ?_
    · simp [hob]
    · exact fun id hid => hf (h.tabled hid)
    · exact fun j hj => hf (h.owned hj)
  | insert id k hch hob =>
    rw [hch]
    exact (h.insert howns).mono (hlive hob) (huse (by simp [RegistryCall.uses]))
  | find hid hch hob hsame hnew =>
    rw [hch, hown hsame, hnew]
    exact (h.find hid).mono (hlive hob) fun _ _ hj => hj
  | remove hid hch hob =>
    rw [hch]
    exact (h.take hid).mono (hlive hob) (huse (by simp [RegistryCall.uses]))
  | drop k hch hob =>
    rw [hch]
    refine (h.drop howns ?_ ?_).mono (fun _ => id) (huse (by simp [RegistryCall.uses]))
    · intro j hj
      obtain ⟨d, hd, huse⟩ := Option.bind_eq_some_iff.1 hj
      exact hdrop k rfl d (List.mem_of_getElem? hd) huse
    · rintro k' hne ⟨o, ho, hdr⟩
      refine ⟨o, ?_, hdr⟩
      simp [hob, hne.symm, ho]

theorem Inv.start (h : r.Inv) {c : RegistryCall} (howns : c.owns = none) (huses : c.uses = none) :
    Inv { r with calls := r.calls ++ [c] } := by
  have hown : madeBy RegistryCall.owns (r.calls ++ [c]) = madeBy RegistryCall.owns r.calls := funext (madeBy_snoc howns)
  have huse : madeBy RegistryCall.uses (r.calls ++ [c]) = madeBy RegistryCall.uses r.calls := funext (madeBy_snoc huses)
  unfold Inv at h ⊢
  rwa [hown, huse]

theorem Inv.step (h : r.Inv) {a : RegistryAction} (ha : r.Patient a) : (r.step a).Inv := by
  unfold Registry.step
  by_cases hp : r.sys.panicked = true
  · rwa [if_pos hp]
  · rw [if_neg hp]
    cases a with
    | createChannel | channelSend _ _ | channelRecv _ | closeChannel _ => exact h.start rfl rfl
    | advance i cpu =>
      dsimp only
      cases hc : r.calls[i]? with
      | none => exact h
      | some c => exact h.section hc (advance_effect i cpu c) (ha c ((if_neg hp).trans hc))
    | kernel action => exact h

/-- In every run whose channels are dropped only when every call on them has returned, no section of a call accesses a
channel that has been dropped. -/
theorem channel_outlives_of_meets (sys : Sys) (actions : List RegistryAction)
    (h : Meets step Patient (new sys) actions) : Meets step Safe (new sys) actions :=
  meets_of_meets (R := fun _ => True) (fun _ a _ hr _ => hr.safe a) (fun _ _ _ hr ha => hr.step ha) (inv_new sys)
    (fun _ _ => trivial) h

/-- The process 1 runs, makes a channel, finds it by its id and blocks in `recv`. -/
def runRecv : List RegistryAction :=
  ([.addToScheduler 1, .advance 0, .advance 0, .advance 0, .advance 0, .advance 0, .schedule 0, .advance 0, .advance 0,
    .advance 0] : List Proc.Action).map .kernel ++
    .createChannel :: List.replicate 2 (.advance 0 0) ++ .channelRecv 1 :: List.replicate 8 (.advance 1 0)

/-- Another CPU sends a message and, when the receive has returned, closes the channel. -/
def runPatient : List RegistryAction :=
  runRecv ++ .channelSend 1 (.new 1 7 [104, 105]) :: List.replicate 5 (.advance 2 1) ++ List.replicate 2 (.advance 1 0) ++
    .closeChannel 1 :: List.replicate 7 (.advance 3 1)

theorem channel_outlives_of_meets_runPatient :
    Meets step Patient (new (.boot Sys.oneProcess 2)) runPatient ∧
      Meets step Safe (new (.boot Sys.oneProcess 2)) runPatient := by
  have hm : Meets step Patient (new (.boot Sys.oneProcess 2)) runPatient := by decide +kernel
  exact ⟨hm, channel_outlives_of_meets (.boot Sys.oneProcess 2) runPatient hm⟩

/-- Another CPU closes the channel, which wakes the process and drops the channel. -/
def runClose : List RegistryAction := runRecv ++ .closeChannel 1 :: List.replicate 7 (.advance 2 1)

/-- The process then goes on with the channel that is gone. -/
theorem channel_dropped_in_use :
    ¬ ∀ (sys : Sys) (actions : List RegistryAction), Meets step Safe (new sys) actions := by
  intro h
  have hsafe := (h (.boot Sys.oneProcess 2) (runClose ++ [.advance 1 0])).middle
  have hcall : ((run step (new (.boot Sys.oneProcess 2)) runClose).callOf (.advance 1 0)).bind RegistryCall.accesses =
      some 0 := by decide +kernel
  have hd : ((run step (new (.boot Sys.oneProcess 2)) runClose).objects[0]?).map Object.dropped = some true := by
    decide +kernel
  obtain ⟨c, hc, ha⟩ := Option.bind_eq_some_iff.1 hcall
  obtain ⟨o, ho, htrue⟩ := Option.map_eq_some_iff.1 hd
  have hf := hsafe c hc 0 ha o ho
  rw [htrue] at hf
  cases hf

end Registry

end AstralOS.Ipc
