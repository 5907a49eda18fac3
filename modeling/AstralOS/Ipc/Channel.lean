import AstralOS.Lib.Bytes
import AstralOS.Lib.Circular
import AstralOS.Process.Scheduler

/-!
# Channels between processes

`Channel` of `kernel/src/ipc/mod.rs` with its message buffer.  A call in progress is the place it has reached with its
local values.  One step of a call is one section under the buffer lock, one access to the flag `closed` or to the
current pid, or one section of the wait queues, which are those of the scheduler model.  `try_recv` keeps the buffer
lock until it returns; a call that finds the lock taken tries again.
-/

namespace AstralOS.Ipc

open Proc

def channelCapacity : Nat := 64

def messageSize : Nat := 256

structure Message where
  msgType : BitVec 32
  sender : Pid
  data : Vector Byte messageSize
  len : Nat
  deriving DecidableEq

def Message.new (msgType : BitVec 32) (sender : Pid) (data : List Byte) : Message :=
  let len := min data.length messageSize
  { msgType, sender, data := splice (Vector.replicate messageSize 0) 0 (data.take len), len }

inductive IpcError
  | channelClosed
  | wouldBlock
  | invalidChannel
  | permissionDenied
  deriving DecidableEq

abbrev MessageBuffer := Circular Message channelCapacity

def sendWaiters : Nat := 0

def recvWaiters : Nat := 1

/-! ### Calls in progress -/

/-- The places of `send`; a task is the call to a wait queue in progress. -/
inductive SendPc
  | loadClosed
  | push
  | wake (task : Task)
  | currentPid
  | wait (task : Task)
  | reloadClosed
  | returned (result : Except IpcError Unit)

inductive RecvPc
  | pop
  | wake (msg : Message) (task : Task)
  | loadClosed
  | currentPid
  | wait (task : Task)
  | returned (result : Except IpcError Message)

/-- The places of `try_recv`; it holds the buffer lock from `wake` and `loadClosed` on until it returns. -/
inductive TryRecvPc
  | pop
  | wake (msg : Message) (task : Task)
  | loadClosed
  | unlock (result : Except IpcError Message)
  | returned (result : Except IpcError Message)

inductive ClosePc
  | store
  | wakeSenders (task : Task)
  | wakeReceivers (task : Task)
  | returned

/-- A call with the place it has reached. -/
inductive Call
  | send (msg : Message) (pc : SendPc)
  | recv (pc : RecvPc)
  | tryRecv (pc : TryRecvPc)
  | close (pc : ClosePc)

structure Machine where
  sys : Sys
  buffer : MessageBuffer
  /-- The call that keeps the buffer lock over several sections. -/
  holder : Option Nat
  closed : Bool
  /-- All calls made so far, the returned ones included. -/
  calls : List Call
  /-- The pushes so far, each with the number of its call.  No section reads them. -/
  pushes : List (Nat × Message)
  /-- The pops so far, each with the number of its call.  No section reads them. -/
  pops : List (Nat × Message)

namespace Machine

def new (sys : Sys) : Machine :=
  { sys, buffer := .new, holder := none, closed := false, calls := [], pushes := [], pops := [] }

section

variable (m : Machine)

def advanceTask (task : Task) : Machine × Option Task :=
  ({ m with sys := (m.sys.advance task).1 }, (m.sys.advance task).2)

def send (i cpu : Nat) (msg : Message) : SendPc → Machine × SendPc
  | .loadClosed => if m.closed then (m, .returned (.error .channelClosed)) else (m, .push)
  | .push =>
    if m.holder.isSome then (m, .push)
    else
      match m.buffer.push msg with
      | (true, buffer) =>
        ({ m with buffer, pushes := m.pushes ++ [(i, msg)] }, .wake (.wakePop recvWaiters))
      | (false, buffer) => ({ m with buffer }, .currentPid)
  | .wake task =>
    match m.advanceTask task with
    | (m, some task) => (m, .wake task)
    | (m, none) => (m, .returned (.ok ()))
  | .currentPid =>
    match m.sys.getCurrentPid with
    | some pid => (m, .wait (.waitPush cpu sendWaiters pid))
    | none => (m, .returned (.error .wouldBlock))
  | .wait task =>
    match m.advanceTask task with
    | (m, some task) => (m, .wait task)
    | (m, none) => (m, .reloadClosed)
  | .reloadClosed => if m.closed then (m, .returned (.error .channelClosed)) else (m, .push)
  | .returned result => (m, .returned result)

def recv (i cpu : Nat) : RecvPc → Machine × RecvPc
  | .pop =>
    if m.holder.isSome then (m, .pop)
    else
      match m.buffer.pop with
      | (some msg, buffer) =>
        ({ m with buffer, pops := m.pops ++ [(i, msg)] }, .wake msg (.wakePop sendWaiters))
      | (none, buffer) => ({ m with buffer }, .loadClosed)
  | .wake msg task =>
    match m.advanceTask task with
    | (m, some task) => (m, .wake msg task)
    | (m, none) => (m, .returned (.ok msg))
  | .loadClosed => if m.closed then (m, .returned (.error .channelClosed)) else (m, .currentPid)
  | .currentPid =>
    match m.sys.getCurrentPid with
    | some pid => (m, .wait (.waitPush cpu recvWaiters pid))
    | none => (m, .returned (.error .wouldBlock))
  | .wait task =>
    match m.advanceTask task with
    | (m, some task) => (m, .wait task)
    | (m, none) => (m, .pop)
  | .returned result => (m, .returned result)

def tryRecv (i : Nat) : TryRecvPc → Machine × TryRecvPc
  | .pop =>
    if m.holder.isSome then (m, .pop)
    else
      match m.buffer.pop with
      | (some msg, buffer) =>
        ({ m with buffer, holder := some i, pops := m.pops ++ [(i, msg)] }, .wake msg (.wakePop sendWaiters))
      | (none, buffer) => ({ m with buffer, holder := some i }, .loadClosed)
  | .wake msg task =>
    match m.advanceTask task with
    | (m, some task) => (m, .wake msg task)
    | (m, none) => (m, .unlock (.ok msg))
  | .loadClosed => if m.closed then (m, .unlock (.error .channelClosed)) else (m, .unlock (.error .wouldBlock))
  | .unlock result => ({ m with holder := none }, .returned result)
  | .returned result => (m, .returned result)

def close : ClosePc → Machine × ClosePc
  | .store => ({ m with closed := true }, .wakeSenders (.wakeDrain sendWaiters))
  | .wakeSenders task =>
    match m.advanceTask task with
    | (m, some task) => (m, .wakeSenders task)
    | (m, none) => (m, .wakeReceivers (.wakeDrain recvWaiters))
  | .wakeReceivers task =>
    match m.advanceTask task with
    | (m, some task) => (m, .wakeReceivers task)
    | (m, none) => (m, .returned)
  | .returned => (m, .returned)

def advance (i cpu : Nat) : Call → Machine × Call
  | .send msg pc => ((m.send i cpu msg pc).1, .send msg (m.send i cpu msg pc).2)
  | .recv pc => ((m.recv i cpu pc).1, .recv (m.recv i cpu pc).2)
  | .tryRecv pc => ((m.tryRecv i pc).1, .tryRecv (m.tryRecv i pc).2)
  | .close pc => ((m.close pc).1, .close (m.close pc).2)

end

end Machine

/-! ### Interleavings -/

/-- A call starts, a call in progress takes its next section, or the rest of the system takes a step. -/
inductive Action
  | send (msg : Message)
  | recv
  | tryRecv
  | close
  | advance (i cpu : Nat)
  | kernel (action : Proc.Action)

def step (m : Machine) (a : Action) : Machine :=
  if m.sys.panicked then m
  else
    match a with
    | .send msg => { m with calls := m.calls ++ [.send msg .loadClosed] }
    | .recv => { m with calls := m.calls ++ [.recv .pop] }
    | .tryRecv => { m with calls := m.calls ++ [.tryRecv .pop] }
    | .close => { m with calls := m.calls ++ [.close .store] }
    | .advance i cpu =>
      match m.calls[i]? with
      | none => m
      | some call => { (m.advance i cpu call).1 with calls := m.calls.set i (m.advance i cpu call).2 }
    | .kernel action => { m with sys := m.sys.step action }

end AstralOS.Ipc
