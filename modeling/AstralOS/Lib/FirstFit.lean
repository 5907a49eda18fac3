import Mathlib.Data.BitVec

/-!
# First fit: the lowest run of free positions

`IsRun free k r` says that the `k` positions `r, …, r+k-1` are free and `IsFirstRun free k r` that `r` is the
lowest start of such a run.  `scanRun` is the single pass that keeps the start and the length of the run it is in
and resets the length at every taken position; `scanRun_range'` says that it finds exactly the lowest run.
-/

namespace AstralOS

def IsRun (free : Nat → Prop) (k r : Nat) : Prop := ∀ j, j < k → free (r + j)

def IsFirstRun (free : Nat → Prop) (k r : Nat) : Prop :=
  IsRun free k r ∧ ∀ r', IsRun free k r' → r ≤ r'

/-- One pass over `positions` for `count` consecutive free ones; `runStart` and `runLen` describe the run that
ends at the current position. -/
def scanRun (taken : Nat → Bool) (count : Nat) : List Nat → Nat → Nat → Option Nat
  | [], _, _ => none
  | block :: rest, runStart, runLen =>
    if !taken block then
      let runStart := if runLen = 0 then block else runStart
      if runLen + 1 ≥ count then some runStart else scanRun taken count rest runStart (runLen + 1)
    else scanRun taken count rest runStart 0

/-! ### Runs -/

section Runs

variable {free : Nat → Prop} {k r b : Nat}

theorem IsRun.mono (h : IsRun free k r) {k' : Nat} (hk : k' ≤ k) : IsRun free k' r :=
  fun j hj => h j (by omega)

theorem IsFirstRun.unique {r' : Nat} (h : IsFirstRun free k r) (h' : IsFirstRun free k r') : r = r' :=
  Nat.le_antisymm (h.2 r' h'.1) (h'.2 r h.1)

theorem exists_isFirstRun (h : ∃ r, IsRun free k r) : ∃ r, IsFirstRun free k r := by
  classical
  exact ⟨Nat.find h, Nat.find_spec h, fun r' hr' => Nat.find_min' h hr'⟩

theorem isRun_one : IsRun free 1 b ↔ free b := by
  constructor
  · intro h
    exact h 0 (by omega)
  · intro h j hj
    obtain rfl : j = 0 := by omega
    exact h

theorem IsFirstRun.le_of_free (h : IsFirstRun free 1 b) {c : Nat} (hc : free c) : b ≤ c :=
  h.2 c (isRun_one.2 hc)

theorem IsFirstRun.lt_of_ne (hb : IsFirstRun free 1 b) (hr : IsFirstRun free k r) (hk : 0 < k) (hne : r ≠ b) :
    b + 1 < r := by
  have hle : b ≤ r := hb.le_of_free (by simpa using hr.1 0 hk)
  rcases Nat.lt_or_ge (b + 1) r with h | h
  · exact h
  · obtain rfl : r = b + 1 := by omega
    -- a run from `b + 1` on extends to one from `b` on
    have : IsRun free k b := by
      intro j hj
      cases j with
      | zero => exact isRun_one.1 hb.1
      | succ j =>
        have := hr.1 j (by omega)
        rwa [show b + 1 + j = b + (j + 1) by omega] at this
    have := hr.2 b this
    omega

end Runs

/-! ### The scan -/

variable {count hi lo : Nat} {free : Nat → Prop}

/-- The scan from position `p` on, entered with a run of `runLen < count` free positions before `p` and no full
run starting before that. -/
theorem scanRun_spec (taken : Nat → Bool) (hc : 0 < count)
    (hfree : ∀ b, free b ↔ lo ≤ b ∧ b < hi ∧ taken b = false) (m : Nat) : ∀ p runStart runLen : Nat,
    p + m = hi → lo + runLen ≤ p → runLen < count → (0 < runLen → runStart + runLen = p) →
    IsRun free runLen (p - runLen) → (∀ r', IsRun free count r' → p - runLen ≤ r') →
    match scanRun taken count (List.range' p m) runStart runLen with
    | some r => IsFirstRun free count r
    | none => ∀ r, ¬ IsRun free count r := by
  induction m with
  | zero =>
    intro p runStart runLen hp hlo hlt hs hrun hmin r hr
    -- a full run would end past `hi`
    have h1 := hmin r hr
    have h2 := (hfree _).1 (hr (count - 1) (by omega))
    omega
  | succ m ih =>
    intro p runStart runLen hp hlo hlt hs hrun hmin
    rw [List.range'_succ]
    unfold scanRun
    by_cases ht : taken p = true
    · simp only [ht, Bool.not_true, Bool.false_eq_true, ↓reduceIte]
      apply ih (p + 1) runStart 0 (by omega) (by omega) hc (by omega) (fun j hj => by omega)
      intro r' hr'
      -- the taken position `p` cannot lie inside a run
      have h1 := hmin r' hr'
      rcases Nat.lt_or_ge p r' with h | h
      · omega
      · have := (hfree _).1 (hr' (p - r') (by omega))
        simp_all
    · have ht' : taken p = false := by simpa using ht
      have hs' : (if runLen = 0 then p else runStart) + runLen = p := by
        split
        · omega
        · exact hs (by omega)
      have hrun' : IsRun free (runLen + 1) (p - runLen) := by
        intro j hj
        rcases Nat.lt_or_ge j runLen with h | h
        · exact hrun j h
        · grind
      simp only [ht', Bool.not_false, ↓reduceIte]
      by_cases hge : runLen + 1 ≥ count
      · simp only [hge, ↓reduceIte]
        rw [show (if runLen = 0 then p else runStart) = p - runLen by omega]
        exact ⟨hrun'.mono (by omega), hmin⟩
      · simp only [hge, ↓reduceIte]
        apply ih (p + 1) _ (runLen + 1) (by omega) (by omega) (by omega)
        · intro _
          omega
        · simpa using hrun'
        · simpa using hmin

theorem scanRun_range' (taken : Nat → Bool) (hc : 0 < count)
    (hle : lo ≤ hi) (hfree : ∀ b, free b ↔ lo ≤ b ∧ b < hi ∧ taken b = false) :
    match scanRun taken count (List.range' lo (hi - lo)) 0 0 with
    | some r => IsFirstRun free count r
    | none => ∀ r, ¬ IsRun free count r := by
  apply scanRun_spec taken hc hfree (hi - lo) lo 0 0 (by omega) (by omega) hc (by omega) (fun j hj => by omega)
  intro r' hr'
  have := (hfree _).1 (hr' 0 hc)
  omega

theorem isFirstRun_of_scanRun {taken : Nat → Bool} {r : Nat} (hc : 0 < count)
    (hle : lo ≤ hi) (hfree : ∀ b, free b ↔ lo ≤ b ∧ b < hi ∧ taken b = false)
    (h : scanRun taken count (List.range' lo (hi - lo)) 0 0 = some r) : IsFirstRun free count r := by
  have hscan := scanRun_range' taken hc hle hfree
  rwa [h] at hscan

theorem not_isRun_of_scanRun {taken : Nat → Bool} (hc : 0 < count)
    (hle : lo ≤ hi) (hfree : ∀ b, free b ↔ lo ≤ b ∧ b < hi ∧ taken b = false)
    (h : scanRun taken count (List.range' lo (hi - lo)) 0 0 = none) (r : Nat) : ¬IsRun free count r := by
  have hscan := scanRun_range' taken hc hle hfree
  rw [h] at hscan
  exact hscan r

end AstralOS
