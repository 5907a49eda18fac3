import Mathlib.Data.BitVec
import Mathlib.Data.Fintype.BigOperators

/-!
# Counting the threads that are somewhere

`tally p f` is the number of threads whose local state satisfies `p`.  `tally_update` says how it changes when one
thread moves; the counters of a lock are followed through a run with it.
-/

open Function Finset

namespace AstralOS

variable {ι L : Type} [Fintype ι]

/-- The number of threads in a local state that satisfies `p`. -/
def tally (p : L → Prop) [DecidablePred p] (f : ι → L) : Nat := (Finset.univ.filter fun t => p (f t)).card

variable {p : L → Prop} [DecidablePred p] {f : ι → L}

theorem tally_eq_sum : tally p f = ∑ t, if p (f t) then 1 else 0 := by
  rw [tally, card_filter]

theorem tally_update [DecidableEq ι] (p : L → Prop) [DecidablePred p] (f : ι → L) (i : ι) (x : L) :
    tally p (update f i x) + (if p (f i) then 1 else 0) = tally p f + (if p x then 1 else 0) := by
  have hcomp : (fun t => if p (update f i x t) then 1 else 0) =
      update (fun t => if p (f t) then 1 else 0) i (if p x then 1 else 0) := by
    funext t
    by_cases h : t = i
    · subst h
      simp
    · simp [h]
  have hs := sum_eq_add_sum_sdiff_singleton_of_mem (mem_univ i) fun t => if p (f t) then 1 else 0
  rw [tally_eq_sum, tally_eq_sum, hcomp, sum_update_of_mem (mem_univ i), hs]
  omega

theorem tally_eq_zero : tally p f = 0 ↔ ∀ t, ¬ p (f t) := by
  simp [tally, filter_eq_empty_iff]

theorem tally_pos (t : ι) (h : p (f t)) : 0 < tally p f := by
  refine Nat.pos_of_ne_zero fun h0 => ?_
  exact tally_eq_zero.1 h0 t h

theorem tally_le_card (p : L → Prop) [DecidablePred p] (f : ι → L) : tally p f ≤ Fintype.card ι :=
  card_le_univ _

theorem tally_mono {q : L → Prop} [DecidablePred q] (h : ∀ x, q x → p x) (f : ι → L) : tally q f ≤ tally p f :=
  card_le_card fun t ht => by
    simp only [mem_filter, mem_univ, true_and] at ht ⊢
    exact h _ ht

theorem eq_of_tally_le_one (h : tally p f ≤ 1) {t u : ι} (ht : p (f t)) (hu : p (f u)) : t = u :=
  card_le_one.1 h t (by simp [ht]) u (by simp [hu])

theorem tally_eq_card : tally p f = Fintype.card ι ↔ ∀ t, p (f t) := by
  simp [tally, card_eq_iff_eq_univ, filter_eq_self]

end AstralOS
