import Mathlib.Data.BitVec
import Mathlib.Algebra.BigOperators.Group.List.Basic

/-!
# One's complement sums

Addition of the numbers up to `m` in which a carry is added back in at the low end.  A sum is congruent to the usual one
modulo `m`, and it is zero only for zeros; so if one of the numbers is what the others lack, the sum is `m`
(`foldl_add_complement`).
-/

namespace AstralOS.OnesComplement

variable {m a b : Nat}

/-- The sum of two numbers, less `m` if it is greater. -/
def add (m a b : Nat) : Nat := if m < a + b then a + b - m else a + b

theorem add_le (ha : a ≤ m) (hb : b ≤ m) : add m a b ≤ m := by
  unfold add
  by_cases h : m < a + b
  · rw [if_pos h]
    omega
  · rw [if_neg h]
    omega

theorem add_modEq (m a b : Nat) : add m a b ≡ a + b [MOD m] := by
  unfold add
  by_cases h : m < a + b
  · rw [if_pos h]
    exact (Nat.modEq_iff_dvd' (Nat.sub_le _ _)).2 ⟨1, by omega⟩
  · rw [if_neg h]

theorem add_pos (h : 0 < a + b) : 0 < add m a b := by
  unfold add
  by_cases hm : m < a + b
  · rw [if_pos hm]
    omega
  · rwa [if_neg hm]

/-! ### Sums of lists -/

theorem foldl_add_le {ws : List Nat} (ha : a ≤ m) (hws : ∀ w ∈ ws, w ≤ m) : ws.foldl (add m) a ≤ m := by
  induction ws generalizing a with
  | nil => exact ha
  | cons w ws ih => exact ih (add_le ha (hws w (by simp))) fun v hv => hws v (by simp [hv])

theorem foldl_add_modEq (ws : List Nat) (m a : Nat) : ws.foldl (add m) a ≡ a + ws.sum [MOD m] := by
  induction ws generalizing a with
  | nil => exact Nat.ModEq.refl _
  | cons w ws ih =>
    rw [List.foldl_cons, List.sum_cons, ← Nat.add_assoc]
    exact (ih (add m a w)).trans ((add_modEq m a w).add_right _)

theorem foldl_add_pos {ws : List Nat} (h : 0 < a + ws.sum) : 0 < ws.foldl (add m) a := by
  induction ws generalizing a with
  | nil => simpa using h
  | cons w ws ih =>
    rw [List.sum_cons, ← Nat.add_assoc] at h
    refine ih ?_
    by_cases haw : 0 < a + w
    · have := add_pos (m := m) haw
      omega
    · omega

theorem foldl_add_zero {ws : List Nat} (h : ws.sum = 0) : ws.foldl (add m) 0 = 0 := by
  induction ws with
  | nil => rfl
  | cons w ws ih =>
    rw [List.sum_cons] at h
    obtain rfl : w = 0 := by omega
    exact ih (by omega)

theorem foldl_add_congr {ws ws' : List Nat} (hws : ∀ w ∈ ws, w ≤ m) (hws' : ∀ w ∈ ws', w ≤ m) (h : ws.sum = ws'.sum) :
    ws.foldl (add m) 0 = ws'.foldl (add m) 0 := by
  have hle := foldl_add_le (Nat.zero_le m) hws
  have hle' := foldl_add_le (Nat.zero_le m) hws'
  by_cases hzero : ws.sum = 0
  · rw [foldl_add_zero hzero, foldl_add_zero (h ▸ hzero)]
  · have hpos : 0 < ws.foldl (add m) 0 := foldl_add_pos (by omega)
    have hpos' : 0 < ws'.foldl (add m) 0 := foldl_add_pos (by omega)
    have hmod : ws.foldl (add m) 0 ≡ ws'.foldl (add m) 0 [MOD m] := by
      refine (foldl_add_modEq ws m 0).trans ?_
      rw [h]
      exact (foldl_add_modEq ws' m 0).symm
    -- both sums lie between 1 and `m`, where no two numbers are congruent
    obtain ⟨a, ha⟩ : ∃ a, ws.foldl (add m) 0 = a + 1 := Nat.exists_eq_add_one.2 hpos
    obtain ⟨b, hb⟩ : ∃ b, ws'.foldl (add m) 0 = b + 1 := Nat.exists_eq_add_one.2 hpos'
    rw [ha, hb] at hmod ⊢
    rw [hmod.add_right_cancel'.eq_of_lt_of_lt (by omega) (by omega)]

theorem foldl_add_complement {ws : List Nat} {i : Nat} (hm : 0 < m) (hws : ∀ w ∈ ws, w ≤ m) (hi : i < ws.length) :
    (ws.set i (m - (ws.set i 0).foldl (add m) 0)).foldl (add m) 0 = m := by
  have hall : ∀ w, w ≤ m → ∀ v ∈ ws.set i w, v ≤ m := by
    intro w hw v hv
    rcases List.mem_or_eq_of_mem_set hv with hv | rfl
    · exact hws v hv
    · exact hw
  have hsum : ∀ w, (ws.set i w).sum = (ws.set i 0).sum + w := by
    simp [List.sum_set, hi]
    omega
  generalize hs : (ws.set i 0).foldl (add m) 0 = s
  have hle : s ≤ m := hs ▸ foldl_add_le (Nat.zero_le m) (hall 0 (Nat.zero_le m))
  have hmod : s ≡ (ws.set i 0).sum [MOD m] := by
    have := foldl_add_modEq (ws.set i 0) m 0
    rwa [hs, Nat.zero_add] at this
  -- the new sum is positive, at most `m` and a multiple of `m`
  have hpos : 0 < (ws.set i (m - s)).foldl (add m) 0 := by
    refine foldl_add_pos ?_
    rw [hsum]
    by_cases hzero : (ws.set i 0).sum = 0
    · rw [foldl_add_zero hzero] at hs
      omega
    · omega
  have hle' := foldl_add_le (Nat.zero_le m) (hall _ (Nat.sub_le m s))
  have hzero : (ws.set i (m - s)).foldl (add m) 0 ≡ 0 [MOD m] := by
    calc (ws.set i (m - s)).foldl (add m) 0
        ≡ 0 + (ws.set i (m - s)).sum [MOD m] := foldl_add_modEq _ m 0
      _ = (ws.set i 0).sum + (m - s) := by rw [hsum, Nat.zero_add]
      _ ≡ s + (m - s) [MOD m] := hmod.symm.add_right _
      _ = m := by omega
      _ ≡ 0 [MOD m] := by simp [Nat.ModEq]
  exact Nat.le_antisymm hle' (Nat.le_of_dvd hpos (Nat.modEq_zero_iff_dvd.1 hzero))

end AstralOS.OnesComplement
