import Mathlib.Data.BitVec

/-!
# Ledgers with at most one entry each

A ledger lists entries with the number of the party that made them.  `Recorded entries made` says that the entries of
party `i` are exactly the one it has made, if any; `made` is read off the parties' own states.
-/

open Function

namespace AstralOS

variable {μ γ : Type}

/-- The entries of each party are the one it has made, if any. -/
def Recorded (entries : List (Nat × μ)) (made : Nat → Option μ) : Prop :=
  ∀ i, entries.filter (·.1 = i) = (made i).toList.map (i, ·)

namespace Recorded

variable {entries : List (Nat × μ)} {made made' : Nat → Option μ} {i : Nat} {x : μ}

section

variable (h : Recorded entries made)
include h

theorem congr (heq : ∀ j, made' j = made j) : Recorded entries made' := by
  intro j
  rw [heq, h j]

theorem add (hb : made i = none) (ha : made' i = some x)
    (ho : ∀ j, j ≠ i → made' j = made j) : Recorded (entries ++ [(i, x)]) made' := by
  intro j
  rw [List.filter_append, h j]
  by_cases hj : j = i
  · subst hj
    simp [hb, ha]
  · rw [ho j hj]
    simp [Ne.symm hj]

theorem made_of_mem (hmem : (i, x) ∈ entries) : made i = some x := by
  have hin : (i, x) ∈ entries.filter (·.1 = i) := List.mem_filter.2 ⟨hmem, by simp⟩
  rw [h i] at hin
  simpa using hin

theorem filterMap_made : entries.filterMap (fun e => made e.1) = entries.map Prod.snd := by
  rw [← List.filterMap_eq_map]
  apply List.filterMap_congr
  intro e he
  exact h.made_of_mem he

end

end Recorded

/-! ### Parties in a list -/

def madeBy (f : γ → Option μ) (parties : List γ) (i : Nat) : Option μ := parties[i]?.bind f

variable {f : γ → Option μ} {parties : List γ} {p p' : γ} {i : Nat}

theorem madeBy_of_get (h : parties[i]? = some p) : madeBy f parties i = f p := by
  rw [madeBy, h, Option.bind_some]

theorem madeBy_snoc (hp : f p = none) (j : Nat) : madeBy f (parties ++ [p]) j = madeBy f parties j := by
  rcases Nat.lt_trichotomy j parties.length with hlt | rfl | hgt
  · simp only [madeBy, List.getElem?_append_left hlt]
  · simp [madeBy, hp]
  · grind [List.length_append, List.length_singleton, madeBy]

theorem madeBy_set_self (h : parties[i]? = some p) : madeBy f (parties.set i p') i = f p' := by
  grind [madeBy]

theorem madeBy_set_of_ne {j : Nat} (hj : j ≠ i) : madeBy f (parties.set i p') j = madeBy f parties j := by
  rw [madeBy, List.getElem?_set_ne (Ne.symm hj), madeBy]

theorem madeBy_set_eq_update (h : parties[i]? = some p) :
    madeBy f (parties.set i p') = update (madeBy f parties) i (f p') := by
  funext j
  by_cases hj : j = i
  · subst hj
    rw [update_self, madeBy_set_self h]
  · rw [update_of_ne hj, madeBy_set_of_ne hj]

theorem madeBy_set (h : parties[i]? = some p) (hsame : f p' = f p) (j : Nat) :
    madeBy f (parties.set i p') j = madeBy f parties j := by
  by_cases hj : j = i
  · subst hj
    rw [madeBy_set_self h, madeBy_of_get h, hsame]
  · exact madeBy_set_of_ne hj

end AstralOS
