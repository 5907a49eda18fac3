import Mathlib.Data.BitVec
import Mathlib.Algebra.BigOperators.Ring.Finset
import Mathlib.Algebra.Order.BigOperators.Group.Finset

/-!
# Emptying bins onto the others

Bins `0, …, c - 1` hold items.  A bin with more than `m` of them is emptied, one item after the other going to the least full of
the other bins.  If every bin gets one turn, none has more than `m` items in the end exactly if none had so at the start, or if
`c - 1` bins have room for all items (`turns_le_iff`): the bin that is emptied last stays empty.
-/

open Function Finset

namespace AstralOS.Spread

variable {c b m : Nat} {f g : Nat → Nat}

def total (c : Nat) (f : Nat → Nat) : Nat := ∑ o ∈ Finset.range c, f o

/-- Items of the bin `b` go to the least full of the others. -/
inductive Moves (c b : Nat) (f : Nat → Nat) : (Nat → Nat) → Prop
  | refl : Moves c b f f
  | step {g : Nat → Nat} {t : Nat} : Moves c b f g → t < c → t ≠ b → (∀ o < c, o ≠ b → g t ≤ g o) → 0 < g b →
      Moves c b f (update (update g b (g b - 1)) t (g t + 1))

theorem Moves.trans {h : Nat → Nat} (hfg : Moves c b f g) (hgh : Moves c b g h) : Moves c b f h := by
  induction hgh with
  | refl => exact hfg
  | step _ ht hne hmin hpos ih => exact ih.step ht hne hmin hpos

theorem Moves.total_eq (h : Moves c b f g) (hb : b < c) : total c g = total c f := by
  induction h with
  | refl => rfl
  | @step g t _ ht hne hmin hpos ih =>
    rw [← ih]
    have hone : ∀ o, update (update g b (g b - 1)) t (g t + 1) o + (if o = b then 1 else 0) =
        g o + if o = t then 1 else 0 := by
      intro o
      by_cases hot : o = t
      · subst hot
        simp [hne]
      · by_cases hob : o = b
        · grind
        · simp [hot, hob]
    have hsum := sum_congr (rfl : range c = _) fun o _ => hone o
    rw [sum_add_distrib, sum_add_distrib, sum_ite_eq', sum_ite_eq',
      if_pos (mem_range.2 hb), if_pos (mem_range.2 ht)] at hsum
    exact Nat.add_right_cancel hsum

theorem Moves.le_of_room (h : Moves c b f g) (hb : b < c) (hroom : total c f ≤ (c - 1) * m) {o : Nat} (ho : o ≠ b)
    (hfo : f o ≤ m) : g o ≤ m := by
  induction h with
  | refl => exact hfo
  | @step g t hfg ht hne hmin hpos ih =>
    by_cases hot : o = t
    · rw [hot, update_self]
      -- the least full bin has at most the mean of the others
      have hcard : ((range c).erase b).card = c - 1 := by
        rw [card_erase_of_mem (mem_range.2 hb), card_range]
      have hmean : (c - 1) * g t ≤ ∑ o ∈ (range c).erase b, g o := by
        rw [← hcard, ← Nat.nsmul_eq_mul]
        refine card_nsmul_le_sum _ _ _ fun o ho => ?_
        simp_all
      have hto : total c f = g b + ∑ o ∈ (range c).erase b, g o := by
        rw [← hfg.total_eq hb, total, add_sum_erase _ _ (mem_range.2 hb)]
      exact Nat.lt_of_mul_lt_mul_left (a := c - 1) (by omega)
    · grind

def Turn (c m b : Nat) (f g : Nat → Nat) : Prop := f b ≤ m ∧ g = f ∨ m < f b ∧ Moves c b f g ∧ g b = 0

/-- The bins of a list have their turns. -/
inductive Turns (c m : Nat) : List Nat → (Nat → Nat) → (Nat → Nat) → Prop
  | nil {f : Nat → Nat} : Turns c m [] f f
  | cons {b : Nat} {bs : List Nat} {f g h : Nat → Nat} : b < c → Turn c m b f g → Turns c m bs g h →
      Turns c m (b :: bs) f h

variable {bs : List Nat}

section

variable (h : Turns c m bs f g)
include h

theorem Turns.total_eq : total c g = total c f := by
  induction h with
  | nil => rfl
  | cons hb hturn _ ih =>
    obtain ⟨-, rfl⟩ | ⟨-, hm, -⟩ := hturn
    · exact ih
    · exact ih.trans (hm.total_eq hb)

theorem Turns.eq_self (hf : ∀ o < c, f o ≤ m) : g = f := by
  induction h with
  | nil => rfl
  | cons hb hturn _ ih =>
    obtain ⟨-, rfl⟩ | ⟨hlt, -⟩ := hturn
    · exact ih hf
    · exact absurd (hf _ hb) (Nat.not_le.2 hlt)

theorem Turns.le_of_room (hroom : total c f ≤ (c - 1) * m) {o : Nat} (ho : f o ≤ m ∨ o ∈ bs) :
    g o ≤ m := by
  induction h with
  | nil => exact ho.resolve_right List.not_mem_nil
  | @cons b bs f g h hb hturn _ ih =>
    obtain ⟨hle, rfl⟩ | ⟨-, hm, hzero⟩ := hturn
    · exact ih hroom (ho.elim .inl fun hmem => (List.mem_cons.1 hmem).elim (fun hob => .inl (hob ▸ hle)) .inr)
    · refine ih (hm.total_eq hb ▸ hroom) ?_
      by_cases hob : o = b
      · exact .inl (by rw [hob, hzero]; exact Nat.zero_le m)
      · exact ho.imp (hm.le_of_room hb hroom hob) fun hmem => (List.mem_cons.1 hmem).resolve_left hob

theorem Turns.exists_empty (hf : (∃ z < c, f z = 0) ∨ ∃ o ∈ bs, m < f o) : ∃ z < c, g z = 0 := by
  induction h with
  | nil => simpa using hf
  | @cons b bs f g h hb hturn _ ih =>
    obtain ⟨hle, rfl⟩ | ⟨-, hm, hzero⟩ := hturn
    · refine ih (hf.imp_right fun ⟨o, hmem, hlt⟩ => ⟨o, (List.mem_cons.1 hmem).resolve_left ?_, hlt⟩)
      rintro rfl
      omega
    · exact ih (.inl ⟨b, hb, hzero⟩)

end

theorem turns_le_iff (h : Turns c m (List.range c) f g) :
    (∀ o < c, g o ≤ m) ↔ (∀ o < c, f o ≤ m) ∨ total c f ≤ (c - 1) * m := by
  constructor
  · intro hg
    by_contra hnot
    rw [not_or] at hnot
    obtain ⟨hfull, hroom⟩ := hnot
    have hex : ∃ o < c, m < f o := by
      simp_all
    obtain ⟨o, ho, hlt⟩ := hex
    obtain ⟨z, hz, hzero⟩ := h.exists_empty (.inr ⟨o, List.mem_range.2 ho, hlt⟩)
    apply hroom
    rw [← h.total_eq, total, ← add_sum_erase _ _ (mem_range.2 hz), hzero, Nat.zero_add]
    have hcard : ((range c).erase z).card = c - 1 := by
      rw [card_erase_of_mem (mem_range.2 hz), card_range]
    rw [← hcard, ← Nat.nsmul_eq_mul]
    exact sum_le_card_nsmul _ _ _ fun o ho => hg o (mem_range.1 (mem_erase.1 ho).2)
  · rintro (hf | hroom) o ho
    · rw [h.eq_self hf]
      exact hf o ho
    · exact h.le_of_room hroom (.inr (List.mem_range.2 ho))

end AstralOS.Spread
