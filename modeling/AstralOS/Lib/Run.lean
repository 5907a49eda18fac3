import Mathlib.Data.BitVec

/-!
# Runs of a step function

A run applies a list of actions one after the other.  `Always` speaks about every state of a run, `Meets` about
every action in the state in which it is taken.  The rules below turn a fact about one step into one about runs.
-/

namespace AstralOS

variable {σ α : Type} {step : σ → α → σ}

def run (step : σ → α → σ) (s : σ) (as : List α) : σ := as.foldl step s

/-- Every state of the run, the first and the last included, satisfies `P`. -/
def Always (step : σ → α → σ) (P : σ → Prop) : σ → List α → Prop
  | s, [] => P s
  | s, a :: as => P s ∧ Always step P (step s a) as

/-- Every action satisfies `Q` in the state in which it is taken. -/
def Meets (step : σ → α → σ) (Q : σ → α → Prop) : σ → List α → Prop
  | _, [] => True
  | s, a :: as => Q s a ∧ Meets step Q (step s a) as

instance (step : σ → α → σ) (Q : σ → α → Prop) [∀ s a, Decidable (Q s a)] (s : σ) (as : List α) :
    Decidable (Meets step Q s as) :=
  match as with
  | [] => isTrue trivial
  | a :: as => @instDecidableAnd _ _ _ (instDecidableMeets step Q (step s a) as)

@[simp] theorem run_nil (s : σ) : run step s [] = s := rfl

@[simp] theorem run_cons (s : σ) (a : α) (as : List α) : run step s (a :: as) = run step (step s a) as := rfl

theorem run_append (s : σ) (as bs : List α) : run step s (as ++ bs) = run step (run step s as) bs := List.foldl_append

variable {Q : σ → α → Prop}

theorem meets_of_forall (h : ∀ s a, Q s a) (s : σ) (as : List α) : Meets step Q s as := by
  induction as generalizing s with
  | nil => trivial
  | cons a as ih => exact ⟨h s a, ih (step s a)⟩

variable {Q' : σ → α → Prop}

theorem meets_congr (h : ∀ s a, Q s a ↔ Q' s a) (s : σ) (as : List α) : Meets step Q s as ↔ Meets step Q' s as := by
  induction as generalizing s with
  | nil => exact Iff.rfl
  | cons a as ih => exact and_congr (h s a) (ih (step s a))

variable {as : List α} {s : σ}

theorem Meets.middle {bs : List α} {a : α} (h : Meets step Q s (as ++ a :: bs)) : Q (run step s as) a := by
  induction as generalizing s with
  | nil => exact h.1
  | cons b as ih => exact ih h.2

theorem meets_append {bs : List α} :
    Meets step Q s (as ++ bs) ↔ Meets step Q s as ∧ Meets step Q (run step s as) bs := by
  induction as generalizing s with
  | nil => exact (iff_of_eq (true_and _)).symm
  | cons a as ih => exact (and_congr_right fun _ => ih).trans and_assoc.symm

variable {P : σ → Prop}

theorem exists_gain_of_run (hnot : ¬ P s) (h : P (run step s as)) :
    ∃ bs a cs, as = bs ++ a :: cs ∧ ¬ P (run step s bs) ∧ P (step (run step s bs) a) := by
  induction as generalizing s with
  | nil => exact absurd h hnot
  | cons b as ih =>
    by_cases hb : P (step s b)
    · exact ⟨[], b, as, rfl, hnot, hb⟩
    · obtain ⟨bs, a, cs, rfl, hbs, ha⟩ := ih hb h
      exact ⟨b :: bs, a, cs, rfl, hbs, ha⟩

theorem run_invariant {Q : α → Prop} (hstep : ∀ s a, P s → Q a → P (step s a)) (hs : P s)
    (has : ∀ a ∈ as, Q a) : P (run step s as) := by
  induction as generalizing s with
  | nil => exact hs
  | cons a as ih => exact ih (hstep s a hs (has a (by simp))) fun b hb => has b (by simp [hb])

theorem Always.run (h : Always step P s as) : P (run step s as) := by
  induction as generalizing s with
  | nil => exact h
  | cons a as ih => exact ih h.2

theorem Always.imp {P' : σ → Prop} (himp : ∀ s, P s → P' s) (h : Always step P s as) : Always step P' s as := by
  induction as generalizing s with
  | nil => exact himp s h
  | cons a as ih => exact ⟨himp s h.1, ih h.2⟩

theorem Always.head (h : Always step P s as) : P s := by
  cases as with
  | nil => exact h
  | cons a as => exact h.1

variable {I : σ → Prop} {R : α → Prop}

theorem always_of_meets (himp : ∀ s, I s → P s)
    (hkeep : ∀ s a, R a → I s → Q s a → I (step s a)) (hs : I s) (has : ∀ a ∈ as, R a)
    (h : Meets step Q s as) : Always step P s as := by
  induction as generalizing s with
  | nil => exact himp s hs
  | cons a as ih =>
    exact ⟨himp s hs, ih (hkeep s a (has a (by simp)) hs h.1) (fun b hb => has b (by simp [hb])) h.2⟩

theorem meets_of_meets (himp : ∀ s a, R a → I s → Q s a → Q' s a)
    (hkeep : ∀ s a, R a → I s → Q s a → I (step s a)) (hs : I s) (has : ∀ a ∈ as, R a)
    (h : Meets step Q s as) : Meets step Q' s as := by
  induction as generalizing s with
  | nil => trivial
  | cons a as ih =>
    have ha := has a (by simp)
    exact ⟨himp s a ha hs h.1, ih (hkeep s a ha hs h.1) (fun b hb => has b (by simp [hb])) h.2⟩

/-- Two conditions that say the same of every permitted action in a state of the invariant, and keep it, hold
throughout the same permitted runs. -/
theorem meets_iff_meets {P : σ → α → Prop} (hiff : ∀ s a, I s → P s a → (Q s a ↔ Q' s a))
    (hkeep : ∀ s a, I s → P s a → Q' s a → I (step s a)) (hs : I s) (h : Meets step P s as) :
    Meets step Q s as ↔ Meets step Q' s as := by
  induction as generalizing s with
  | nil => exact Iff.rfl
  | cons a as ih =>
    refine (and_congr_left fun _ => hiff s a hs h.1).trans (and_congr_right fun ha => ?_)
    exact ih (hkeep s a hs h.1 ha) h.2

/-- If moreover every other allowed action breaks `P` at once, then `P` holds throughout exactly the runs that meet
`Q`. -/
theorem always_iff_meets (himp : ∀ s, I s → P s)
    (hkeep : ∀ s a, R a → I s → Q s a → I (step s a)) (hbr : ∀ s a, R a → I s → ¬ Q s a → ¬ P (step s a))
    (hs : I s) (has : ∀ a ∈ as, R a) : Always step P s as ↔ Meets step Q s as := by
  constructor
  · intro h
    induction as generalizing s with
    | nil => trivial
    | cons a as ih =>
      have ha := has a (by simp)
      have hq : Q s a := by
        by_contra hq
        exact hbr s a ha hs hq h.2.head
      exact ⟨hq, ih (hkeep s a ha hs hq) (fun b hb => has b (by simp [hb])) h.2⟩
  · exact always_of_meets himp hkeep hs has

end AstralOS
