import Mathlib.Data.BitVec
import Mathlib.Tactic.Ring

/-!
# Running means

A mean that is kept up to date with its weight only, rounded down at each step.  It stays between bounds of what it is made
of.  How large it gets can be read off the numbers from the last one back: `carry` adds up what they have over a bound, each
excess shared out over the weight at its step (`le_runningMean_iff`).
-/

namespace AstralOS

/-- The mean `a` of weight `n`, with more numbers taken in. -/
def runningMean (a n : Nat) : List Nat → Nat
  | [] => a
  | d :: ds => runningMean ((a * n + d) / (n + 1)) (n + 1) ds

/-- What the excesses `es` add to a mean of weight `n`. -/
def carry (n : Nat) : List Nat → Nat
  | [] => 0
  | e :: es => carry (n + 1) es + (e + carry (n + 1) es) / n

variable {a n m : Nat} {ds : List Nat}

theorem runningMean_le (ha : a ≤ m) (hds : ∀ d ∈ ds, d ≤ m) : runningMean a n ds ≤ m := by
  induction ds generalizing a n with
  | nil => exact ha
  | cons d ds ih =>
    refine ih (Nat.div_le_of_le_mul ?_) fun x hx => hds x (List.mem_cons_of_mem d hx)
    have hd := hds d List.mem_cons_self
    calc a * n + d ≤ m * n + m := Nat.add_le_add (Nat.mul_le_mul_right n ha) hd
      _ = (n + 1) * m := by ring

theorem le_runningMean_iff (hn : 0 < n) (hds : ∀ d ∈ ds, m ≤ d) :
    m ≤ runningMean a n ds ↔ m ≤ a + carry n (ds.map (· - m)) := by
  induction ds generalizing a n with
  | nil => exact Iff.rfl
  | cons d ds ih =>
    rw [runningMean, ih (Nat.succ_pos n) fun x hx => hds x (List.mem_cons_of_mem d hx), List.map_cons, carry]
    have hd := hds d List.mem_cons_self
    generalize carry (n + 1) (ds.map (· - m)) = w
    obtain ⟨e, rfl⟩ : ∃ e, d = m + e := ⟨d - m, by omega⟩
    rw [Nat.add_sub_cancel_left]
    have hdiv : (a * n + (e + w)) / n = a + (e + w) / n := by rw [Nat.mul_comm, Nat.mul_add_div hn]
    have hleft : m ≤ (a * n + (m + e)) / (n + 1) + w ↔ (m - w) * (n + 1) ≤ a * n + (m + e) := by
      rw [← Nat.le_div_iff_mul_le (Nat.succ_pos n), Nat.sub_le_iff_le_add]
    have hr : m ≤ a + (w + (e + w) / n) ↔ (m - w) * n ≤ a * n + (e + w) := by
      rw [← Nat.le_div_iff_mul_le hn, hdiv, Nat.sub_le_iff_le_add, Nat.add_assoc, Nat.add_comm w]
    rw [hleft, hr, Nat.mul_succ]
    by_cases hw : m ≤ w
    · simp [Nat.sub_eq_zero_of_le hw]
    · omega

end AstralOS
