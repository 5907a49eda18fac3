import AstralOS.Lib.Run
import AstralOS.Lib.Tally

/-!
# The reader-writer lock

The model of `RwLock` of `sync/mod.rs`: threads that call `read` and `write` and drop the guards they get, one atomic
operation of a call or of a drop being one step.  The number of threads is a machine word, as the counter of readers
is; a thread that keeps several guards at once is several of them.

Readers announce themselves in `readers` before they look at `writer` a second time, writers set `writer` before they
look at `readers`.  `Inv` ties both words to the places the threads have reached, and `rwlock_excludes` follows: no
write guard lives beside another guard, and `readers` counts at least the live read guards.
-/

open Function

namespace AstralOS.Sync

structure RwLock where
  readers : BitVec 64
  writer : Bool
  deriving DecidableEq

def RwLock.new : RwLock := ⟨0, false⟩

namespace RwLock

/-- Where a thread is: the atomic operation it does next. -/
inductive Pc
  /-- No call in progress and no guard. -/
  | idle
  /-- `read`, in the loop that waits for the writer to finish. -/
  | readWait
  /-- `read`, before it increments the reader count. -/
  | readAnnounce
  /-- `read`, before it checks that no writer sneaked in. -/
  | readCheck
  /-- `read`, before it backs off. -/
  | readBackOff
  /-- `read` has returned a guard. -/
  | reading
  /-- `write`, before its compare-and-exchange. -/
  | writeExchange
  /-- `write`, in the inner loop after a failed exchange. -/
  | writeSpin
  /-- `write`, in the loop that waits for all readers to finish. -/
  | writeDrain
  /-- `write` has returned a guard. -/
  | writing
  deriving DecidableEq

def Pc.Announced (pc : Pc) : Prop := pc = .readCheck ∨ pc = .readBackOff ∨ pc = .reading

def Pc.Claimed (pc : Pc) : Prop := pc = .writeDrain ∨ pc = .writing

instance : DecidablePred Pc.Announced := fun _ => inferInstanceAs (Decidable (_ ∨ _))

instance : DecidablePred Pc.Claimed := fun _ => inferInstanceAs (Decidable (_ ∨ _))

structure Threads (n : Nat) where
  lock : RwLock
  pc : Fin n → Pc

inductive Action (n : Nat)
  | read (i : Fin n)
  | write (i : Fin n)
  /-- The next atomic operation of the call; a weak exchange may fail for no reason. -/
  | advance (i : Fin n) (spurious : Bool)
  | drop (i : Fin n)
  deriving DecidableEq

namespace Threads

variable {n : Nat}

def start (n : Nat) : Threads n := ⟨.new, fun _ => .idle⟩

section

variable (s : Threads n)

def goto (i : Fin n) (pc : Pc) : Threads n := { s with pc := update s.pc i pc }

def advance (i : Fin n) (spurious : Bool) : Threads n :=
  match s.pc i with
  | .readWait => if s.lock.writer then s else s.goto i .readAnnounce
  | .readAnnounce => { s.goto i .readCheck with lock := { s.lock with readers := s.lock.readers + 1 } }
  | .readCheck => if s.lock.writer then s.goto i .readBackOff else s.goto i .reading
  | .readBackOff => { s.goto i .readWait with lock := { s.lock with readers := s.lock.readers - 1 } }
  | .writeExchange =>
    if s.lock.writer || spurious then s.goto i .writeSpin
    else { s.goto i .writeDrain with lock := { s.lock with writer := true } }
  | .writeSpin => if s.lock.writer then s else s.goto i .writeExchange
  | .writeDrain => if s.lock.readers = 0 then s.goto i .writing else s
  | .idle | .reading | .writing => s

def drop (i : Fin n) : Threads n :=
  match s.pc i with
  | .reading => { s.goto i .idle with lock := { s.lock with readers := s.lock.readers - 1 } }
  | .writing => { s.goto i .idle with lock := { s.lock with writer := false } }
  | _ => s

/-- One step; a thread starts a call only when it has none in progress and no guard. -/
def step : Action n → Threads n
  | .read i => if s.pc i = .idle then s.goto i .readWait else s
  | .write i => if s.pc i = .idle then s.goto i .writeExchange else s
  | .advance i spurious => s.advance i spurious
  | .drop i => s.drop i

def readGuards : Nat := tally (· = .reading) s.pc

/-- A live write guard is the only live guard, and no live read guard is missing from the counter. -/
def Excludes : Prop :=
  (∀ i j, s.pc i = .writing → i ≠ j → s.pc j ≠ .reading ∧ s.pc j ≠ .writing) ∧ s.readGuards ≤ s.lock.readers.toNat

end

/-! ### The invariant -/

/-- What the two words say about the threads. -/
structure Inv (s : Threads n) : Prop where
  readers : tally Pc.Announced s.pc = s.lock.readers.toNat
  writer : tally Pc.Claimed s.pc = s.lock.writer.toNat
  /-- A writer that has its guard waited for all readers, and later ones see its flag. -/
  exclusive : ∀ i j, s.pc i = .writing → s.pc j ≠ .reading

theorem Inv.start (n : Nat) : (start n).Inv where
  readers := tally_eq_zero.2 fun _ => by simp [Threads.start, Pc.Announced]
  writer := tally_eq_zero.2 fun _ => by simp [Threads.start, Pc.Claimed]
  exclusive := by simp [Threads.start]

variable {s : Threads n}

theorem Inv.excludes (h : s.Inv) : s.Excludes := by
  refine ⟨fun i j hi hij => ⟨h.exclusive i j hi, fun hj => hij ?_⟩, ?_⟩
  · have hone : tally Pc.Claimed s.pc ≤ 1 := h.writer ▸ Bool.toNat_le _
    exact eq_of_tally_le_one hone (.inr hi) (.inr hj)
  · exact h.readers ▸ tally_mono (fun _ hx => .inr (.inr hx)) s.pc

/-! ### Steps -/

variable {i : Fin n}

/-- One thread moves and the words of the lock follow it.  A guard is taken only in the absence of guards of the other
kind. -/
theorem Inv.move (h : s.Inv) {from' pc : Pc} (hfrom : s.pc i = from') {lock : RwLock}
    (hr : lock.readers.toNat + (if from'.Announced then 1 else 0) =
      s.lock.readers.toNat + (if pc.Announced then 1 else 0))
    (hw : lock.writer.toNat + (if from'.Claimed then 1 else 0) = s.lock.writer.toNat + (if pc.Claimed then 1 else 0))
    (hwriting : pc = .writing → ∀ j, s.pc j ≠ .reading) (hreading : pc = .reading → ∀ j, s.pc j ≠ .writing) :
    Inv ⟨lock, update s.pc i pc⟩ := by
  have hreaders := tally_update Pc.Announced s.pc i pc
  have hwriter := tally_update Pc.Claimed s.pc i pc
  refine ⟨?_, ?_, fun j k hj hk => ?_⟩
  · grind [h.readers]
  · grind [h.writer]
  · by_cases hji : j = i <;> by_cases hki : k = i
    · simp_all
    · simp_all
    · simp_all
    · exact h.exclusive j k (by simpa [hji] using hj) (by simpa [hki] using hk)

theorem Inv.not_writing (h : s.Inv) (hw : s.lock.writer = false) (j : Fin n) : s.pc j ≠ .writing := by
  have hnone := tally_eq_zero.1 (h.writer.trans (by rw [hw]; rfl)) j
  exact fun hj => hnone (.inr hj)

theorem Inv.not_reading (h : s.Inv) (hr : s.lock.readers = 0) (j : Fin n) : s.pc j ≠ .reading := by
  have hnone := tally_eq_zero.1 (h.readers.trans (by rw [hr]; rfl)) j
  exact fun hj => hnone (.inr (.inr hj))

theorem Inv.readers_pos (h : s.Inv) (hi : (s.pc i).Announced) : 0 < s.lock.readers.toNat :=
  h.readers ▸ tally_pos i hi

/-- A reader that has not announced itself yet finds room in the counter: there are fewer threads than the word can
count. -/
theorem Inv.readers_lt (h : s.Inv) (hn : n < 2 ^ 64) (hi : s.pc i = .readAnnounce) :
    s.lock.readers.toNat + 1 < 2 ^ 64 := by
  have hone := tally_update Pc.Announced s.pc i .readCheck
  have hcard := tally_le_card Pc.Announced (update s.pc i .readCheck)
  grind [h.readers, Pc.Announced, Fintype.card_fin]

theorem Inv.advance (h : s.Inv) (hn : n < 2 ^ 64) (i : Fin n) (spurious : Bool) :
    (s.advance i spurious).Inv := by
  unfold Threads.advance goto
  cases hi : s.pc i with
  | idle | reading | writing => exact h
  | readWait | writeSpin =>
    by_cases hw : s.lock.writer
    · simpa only [hw, if_true] using h
    · simp only [hw]
      exact h.move hi (by simp [Pc.Announced]) (by simp [Pc.Claimed]) (by simp) (by simp)
  | readAnnounce =>
    have hlt := h.readers_lt hn hi
    refine h.move hi ?_ (by simp [Pc.Claimed]) (by simp) (by simp)
    simp [Pc.Announced]
    omega
  | readCheck =>
    -- the second look at the flag decides: with the flag down there is no write guard
    by_cases hw : s.lock.writer
    · simp only [hw, if_true]
      exact h.move hi (by simp [Pc.Announced]) (by simp [Pc.Claimed]) (by simp) (by simp)
    · simp only [hw]
      exact h.move hi (by simp [Pc.Announced]) (by simp [Pc.Claimed]) (by simp) fun _ => h.not_writing (by simpa using hw)
  | readBackOff =>
    have hpos := h.readers_pos (i := i) (by simp [hi, Pc.Announced])
    refine h.move hi ?_ (by simp [Pc.Claimed]) (by simp) (by simp)
    simp [Pc.Announced]
    omega
  | writeExchange =>
    by_cases hw : s.lock.writer || spurious
    · simp only [hw, if_true]
      exact h.move hi (by simp [Pc.Announced]) (by simp [Pc.Claimed]) (by simp) (by simp)
    · have hdown : s.lock.writer = false := by simp_all
      simp only [hw]
      exact h.move hi (by simp [Pc.Announced]) (by simp [Pc.Claimed, hdown]) (by simp) (by simp)
  | writeDrain =>
    -- the flag has been up since the exchange, so the counter at zero says that no read guard is left
    by_cases hr : s.lock.readers = 0
    · simp only [hr, if_true]
      exact h.move hi (by simp [Pc.Announced]) (by simp [Pc.Claimed]) (fun _ => h.not_reading hr) (by simp)
    · simpa only [hr, if_false] using h

theorem Inv.drop (h : s.Inv) (i : Fin n) : (s.drop i).Inv := by
  unfold Threads.drop goto
  split
  next hi =>
    have hpos := h.readers_pos (i := i) (by simp [hi, Pc.Announced])
    refine h.move hi ?_ (by simp [Pc.Claimed]) (by simp) (by simp)
    simp [Pc.Announced]
    omega
  next hi =>
    have hup : s.lock.writer = true := by
      by_contra hw
      exact h.not_writing (by simpa using hw) i hi
    exact h.move hi (by simp [Pc.Announced]) (by simp [Pc.Claimed, hup]) (by simp) (by simp)
  next => exact h

theorem Inv.step (h : s.Inv) (hn : n < 2 ^ 64) (a : Action n) : (s.step a).Inv := by
  cases a with
  | read i | write i =>
    simp only [Threads.step, goto]
    split
    next hi => exact h.move hi (by simp [Pc.Announced]) (by simp [Pc.Claimed]) (by simp) (by simp)
    next => exact h
  | advance i spurious => exact h.advance hn i spurious
  | drop i => exact h.drop i

/-- In every interleaving a live write guard is the only live guard, and the counter of readers is at least the number
of live read guards. -/
theorem rwlock_excludes (n : BitVec 64) (actions : List (Action n.toNat)) :
    Always Threads.step Excludes (Threads.start n.toNat) actions :=
  always_of_meets (fun _ h => h.excludes) (fun _ a _ h _ => h.step n.isLt a) (Inv.start _) (fun _ _ => trivial)
    (meets_of_forall (fun _ _ => trivial) _ _)

end Threads

end RwLock

end AstralOS.Sync
