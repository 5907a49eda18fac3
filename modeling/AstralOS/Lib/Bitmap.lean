import Mathlib.Data.BitVec

/-!
# Bitmaps in machine words

A bitmap is an array of `n` words of `w` bits; bit `i` lives in word `i / w` under the mask `1 << (i % w)`.
The operations read, set and clear one bit through its mask, as code over word arrays does.  The facts needed
about them: an update of bit `i` changes the bit `i` and no other (`test_mark`, `test_clear`), bits past the
array read as `false` (`test_of_length_le`), and two bitmaps with the same bits are equal (`ext_test`).
-/

namespace AstralOS

abbrev Bitmap (w n : Nat) := Vector (BitVec w) n

namespace Bitmap

def word {w n : Nat} (m : Bitmap w n) (i : Nat) : BitVec w := m.getD i 0#w

def test {w n : Nat} (m : Bitmap w n) (i : Nat) : Bool :=
  m.word (i / w) &&& (1#w <<< (i % w)) != 0#w

def mark {w n : Nat} (m : Bitmap w n) (i : Nat) : Bitmap w n :=
  m.setIfInBounds (i / w) (m.word (i / w) ||| (1#w <<< (i % w)))

def clear {w n : Nat} (m : Bitmap w n) (i : Nat) : Bitmap w n :=
  m.setIfInBounds (i / w) (m.word (i / w) &&& ~~~(1#w <<< (i % w)))

/-! ### One word -/

theorem and_mask_ne_zero {w : Nat} (x : BitVec w) {b : Nat} (hb : b < w) :
    (x &&& (1#w <<< b) != 0#w) = x.getLsbD b := by
  rw [← BitVec.twoPow_eq, BitVec.and_twoPow]
  by_cases hx : x.getLsbD b
  · have hne : BitVec.twoPow w b ≠ 0#w := by
      intro h
      have := congrArg (fun y => y.getLsbD b) h
      simp [hb] at this
    simp [hx, hne]
  · simp [hx]

theorem getLsbD_mask {w b c : Nat} (hc : c < w) : (1#w <<< b).getLsbD c = decide (b = c) := by
  grind

/-! ### The array -/

variable {w n : Nat}

theorem word_of_lt (m : Bitmap w n) {i : Nat} (h : i < n) : m.word i = m[i] := by
  simp [word, Vector.getD, h]

theorem word_of_le (m : Bitmap w n) {i : Nat} (h : n ≤ i) : m.word i = 0#w := by
  simp [word, Vector.getD, Nat.not_lt.2 h]

theorem word_setIfInBounds (m : Bitmap w n) (i j : Nat) (x : BitVec w) :
    word (m.setIfInBounds i x) j = if i = j ∧ j < n then x else m.word j := by
  by_cases hj : j < n
  · simp [word_of_lt _ hj, Vector.getElem_setIfInBounds hj, hj]
  · rw [word_of_le _ (by omega), word_of_le _ (by omega)]
    simp [hj]

theorem test_eq_getLsbD (hw : 0 < w) (m : Bitmap w n) (i : Nat) :
    m.test i = (m.word (i / w)).getLsbD (i % w) := by
  exact and_mask_ne_zero _ (Nat.mod_lt i hw)

theorem test_of_length_le (hw : 0 < w) (m : Bitmap w n) {i : Nat} (h : w * n ≤ i) : m.test i = false := by
  have : n ≤ i / w := by rw [Nat.le_div_iff_mul_le hw, Nat.mul_comm]; exact h
  rw [test_eq_getLsbD hw, word_of_le _ this]
  simp

theorem eq_of_div_mod {i j : Nat} (hd : i / w = j / w) (hm : i % w = j % w) : i = j := by
  rw [← Nat.div_add_mod i w, ← Nat.div_add_mod j w, hd, hm]

section

variable (hw : 0 < w)
include hw

theorem test_mark (m : Bitmap w n) (i j : Nat) :
    (m.mark i).test j = (m.test j || (decide (i = j) && decide (j < w * n))) := by
  have hlt : j / w < n ↔ j < w * n := by rw [Nat.div_lt_iff_lt_mul hw, Nat.mul_comm]
  rw [test_eq_getLsbD hw, test_eq_getLsbD hw]
  unfold mark
  rw [word_setIfInBounds]
  by_cases hj : j < w * n
  · by_cases hd : i / w = j / w
    · have hij : i % w = j % w ↔ i = j := ⟨fun h => eq_of_div_mod hd h, fun h => by rw [h]⟩
      simp [hd, hlt.2 hj, hj, getLsbD_mask (Nat.mod_lt j hw), hij]
    · grind
  · simp [hlt, hj]

theorem test_clear (m : Bitmap w n) (i j : Nat) :
    (m.clear i).test j = (m.test j && decide (i ≠ j)) := by
  have hlt : j / w < n ↔ j < w * n := by rw [Nat.div_lt_iff_lt_mul hw, Nat.mul_comm]
  by_cases hj : j < w * n
  · rw [test_eq_getLsbD hw, test_eq_getLsbD hw]
    unfold clear
    rw [word_setIfInBounds]
    by_cases hd : i / w = j / w
    · have hij : i % w = j % w ↔ i = j := ⟨fun h => eq_of_div_mod hd h, fun h => by rw [h]⟩
      grind
    · grind
  · rw [test_of_length_le hw _ (by omega), test_of_length_le hw _ (by omega)]
    rfl

theorem ext_test {m m' : Bitmap w n} (h : ∀ i, i < w * n → m.test i = m'.test i) : m = m' := by
  apply Vector.ext
  intro k hk
  apply BitVec.eq_of_getLsbD_eq
  intro b hb
  have hlt : w * k + b < w * n := by
    have : w * (k + 1) ≤ w * n := Nat.mul_le_mul_left w hk
    rw [Nat.mul_add] at this
    omega
  have hd : (w * k + b) / w = k := by
    rw [Nat.mul_add_div hw, Nat.div_eq_of_lt hb, Nat.add_zero]
  have hm : (w * k + b) % w = b := by
    rw [Nat.mul_add_mod, Nat.mod_eq_of_lt hb]
  have := h _ hlt
  simpa [test_eq_getLsbD hw, hd, hm, word_of_lt _ hk] using this

theorem test_replicate_zero (i : Nat) : test (Vector.replicate n 0#w) i = false := by
  rw [test_eq_getLsbD hw]
  by_cases h : i / w < n
  · rw [word_of_lt _ h]
    simp
  · rw [word_of_le _ (by omega)]
    simp

theorem test_replicate_allOnes (i : Nat) :
    test (Vector.replicate n (BitVec.allOnes w)) i = decide (i < w * n) := by
  have hlt : i / w < n ↔ i < w * n := by rw [Nat.div_lt_iff_lt_mul hw, Nat.mul_comm]
  rw [test_eq_getLsbD hw]
  by_cases h : i / w < n
  · rw [word_of_lt _ h]
    simp [hlt.1 h, Nat.mod_lt i hw]
  · have : ¬ i < w * n := fun h' => h (hlt.2 h')
    rw [word_of_le _ (by omega)]
    simp [this]

end

end Bitmap

end AstralOS
