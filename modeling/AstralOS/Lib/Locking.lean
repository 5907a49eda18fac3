import Mathlib.Data.BitVec

/-!
# Threads that take and release locks

A program says which lock operation a thread does next and what it does between that operation and the next one.  The
operations of all threads interleave; a thread that asks for a lock another one holds waits.  `held` is what the text
of the program says about the locks a thread has at a place, and `HeldBy.advance` keeps it in step with the owners.
There is no cycle of threads each waiting for the next as long as every thread waits for a lock that comes after all
those it holds, in some order (`not_deadlocked`).
-/

open Function

namespace AstralOS.Locking

/-- A lock operation, or an access to shared data that needs no lock. -/
inductive LockOp (L : Type)
  | acquire (l : L)
  | release (l : L)
  | access

/-- The text of the threads: the operation at a place, and what follows it up to the next operation, with the place
reached if the call goes on. -/
structure Program (T L P σ : Type) where
  op : T → P → LockOp L
  after : σ → T → P → σ × Option P

/-- The shared data, the owners of the locks and the places of the threads. -/
structure State (T L P σ : Type) where
  data : σ
  owner : L → Option T
  pc : T → Option P

variable {T L P σ : Type} [DecidableEq T] [DecidableEq L] {prog : Program T L P σ} {s : State T L P σ} {t : T}

/-- The next operation of a thread.  Nothing happens while the lock it asks for is taken. -/
def Program.advance (prog : Program T L P σ) (s : State T L P σ) (t : T) : State T L P σ :=
  match s.pc t with
  | none => s
  | some p =>
    let r := prog.after s.data t p
    match prog.op t p with
    | .acquire l =>
      if s.owner l = none then ⟨r.1, update s.owner l (some t), update s.pc t r.2⟩ else s
    | .release l => ⟨r.1, update s.owner l none, update s.pc t r.2⟩
    | .access => ⟨r.1, s.owner, update s.pc t r.2⟩

theorem Program.advance_cases (prog : Program T L P σ) (s : State T L P σ) (t : T) :
    prog.advance s t = s ∨ ∃ p, s.pc t = some p ∧ (∀ l, prog.op t p = .acquire l → s.owner l = none) ∧
      (prog.advance s t).data = (prog.after s.data t p).1 ∧
      (prog.advance s t).pc = update s.pc t (prog.after s.data t p).2 := by
  unfold Program.advance
  cases hpc : s.pc t with
  | none => exact .inl rfl
  | some p =>
    dsimp only
    cases hop : prog.op t p with
    | acquire l =>
      grind
    | release _ | access => exact .inr ⟨p, rfl, by simp [hop], rfl, rfl⟩

def State.Holds (s : State T L P σ) (t : T) (l : L) : Prop := s.owner l = some t

section

variable (prog : Program T L P σ)

def Program.Wants (s : State T L P σ) (t : T) (l : L) : Prop :=
  ∃ p, s.pc t = some p ∧ prog.op t p = .acquire l

def Program.Blocks (s : State T L P σ) (t u : T) : Prop :=
  ∃ l, s.Holds t l ∧ prog.Wants s u l

/-- There is a cycle of threads each holding a lock that the next is waiting for. -/
def Program.Deadlocked (s : State T L P σ) : Prop :=
  ∃ t, Relation.TransGen (prog.Blocks s) t t

end

omit [DecidableEq T] [DecidableEq L] in
theorem not_deadlocked (rank : L → Nat)
    (h : ∀ t l l', s.Holds t l → prog.Wants s t l' → rank l < rank l') : ¬ prog.Deadlocked s := by
  have hc : ∀ t u, Relation.TransGen (prog.Blocks s) t u →
      ∃ l l', s.Holds t l ∧ prog.Wants s u l' ∧ rank l' ≤ rank l := by
    intro t u htu
    induction htu with
    | single hedge =>
      obtain ⟨l, hl, hw⟩ := hedge
      exact ⟨l, l, hl, hw, Nat.le_refl _⟩
    | tail _ hedge ih =>
      obtain ⟨l, l', hl, hw, hle⟩ := ih
      obtain ⟨m, hm, hwm⟩ := hedge
      exact ⟨l, m, hl, hwm, Nat.le_trans (Nat.le_of_lt (h _ m l' hm hw)) hle⟩
  rintro ⟨t, ht⟩
  grind

section
variable (held : T → P → List L)

def heldOf (t : T) : Option P → List L
  | some p => held t p
  | none => []

/-- The text of the program is right about the locks each thread has. -/
def HeldBy (s : State T L P σ) : Prop := ∀ l t, s.Holds t l ↔ l ∈ heldOf held t (s.pc t)

/-- What the text says about the place after an operation fits what it says about the place before it. -/
def Follows (prog : Program T L P σ) (data : σ) (t : T) (p : P) : Prop :=
  match prog.op t p with
  | .acquire l => ∀ l', l' ∈ heldOf held t (prog.after data t p).2 ↔ l' ∈ held t p ∨ l' = l
  | .release l => l ∈ held t p ∧ ∀ l', l' ∈ heldOf held t (prog.after data t p).2 ↔ l' ∈ held t p ∧ l' ≠ l
  | .access => ∀ l', l' ∈ heldOf held t (prog.after data t p).2 ↔ l' ∈ held t p

end

variable {held : T → P → List L}

omit [DecidableEq L] in
theorem HeldBy.start (h : HeldBy held s) (ht : s.pc t = none) {r : Option P} (hr : heldOf held t r = []) :
    HeldBy held { s with pc := update s.pc t r } := by
  intro l u
  by_cases hu : u = t
  · subst hu
    have hnone : ¬ s.Holds u l := by simp [h l u, ht, heldOf]
    simpa [hr, State.Holds] using hnone
  · simpa [State.Holds, hu] using h l u

theorem HeldBy.advance (h : HeldBy held s) (hf : ∀ p, s.pc t = some p → Follows held prog s.data t p) :
    HeldBy held (prog.advance s t) := by
  unfold Program.advance
  cases hpc : s.pc t with
  | none => exact h
  | some p =>
    have hfp := hf p hpc
    have hpt : ∀ l, s.Holds t l ↔ l ∈ held t p := by
      intro l
      rw [h l t, hpc]
      rfl
    unfold Follows at hfp
    dsimp only
    cases hop : prog.op t p with
    | acquire l =>
      rw [hop] at hfp
      dsimp only at hfp ⊢
      split
      case isFalse => exact h
      case isTrue hfree =>
        intro l' u
        by_cases hu : u = t
        · subst hu
          by_cases hl : l' = l
          · subst hl
            simp [State.Holds, hfp]
          · simp only [State.Holds, update_of_ne hl, update_self, hfp, hl, or_false]
            exact hpt l'
        · by_cases hl : l' = l
          · subst hl
            have hnot : ¬ s.Holds u l' := by simp [State.Holds, hfree]
            simpa [State.Holds, hu, Ne.symm hu] using (h l' u).not.1 hnot
          · simpa [State.Holds, hu, hl] using h l' u
    | release l =>
      rw [hop] at hfp
      obtain ⟨hmem, hfp⟩ := hfp
      intro l' u
      by_cases hu : u = t
      · subst hu
        by_cases hl : l' = l
        · subst hl
          simp [State.Holds, hfp]
        · simp only [State.Holds, update_of_ne hl, update_self, hfp, hl, ne_eq, not_false_eq_true,
            and_true]
          exact hpt l'
      · by_cases hl : l' = l
        · subst hl
          -- the lock was this thread's, so no other has it
          have hnot : ¬ s.Holds u l' := by
            grind [State.Holds]
          simpa [State.Holds, hu] using (h l' u).not.1 hnot
        · simpa [State.Holds, hu, hl] using h l' u
    | access =>
      intro l' u
      by_cases hu : u = t
      · simp_all [State.Holds, update_self]
      · simpa [State.Holds, hu] using h l' u

end AstralOS.Locking
