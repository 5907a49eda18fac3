import Mathlib.Data.BitVec

/-!
# Byte-addressed memory

A 64-bit address space of bytes with little-endian words of eight bytes.  A word is written in place: the bytes at
the eight addresses from `a` on change, every other byte is kept (`write64_of_le`), and a word is read back from
where it was written (`read64_write64`) and unchanged from every place that does not overlap it
(`read64_write64_of_apart`).  A list of bytes is read back likewise (`writeBytes_inside`, `writeBytes_outside`).  Words at
multiples of eight never overlap; `SameBut` says which of them a part of a program may have written.
-/

namespace AstralOS

open BitVec

abbrev ByteMem := BitVec 64 → BitVec 8

namespace ByteMem

section

variable (m : ByteMem)

def read64 (a : BitVec 64) : BitVec 64 :=
  m (a + 7) ++ m (a + 6) ++ m (a + 5) ++ m (a + 4) ++ m (a + 3) ++ m (a + 2) ++ m (a + 1) ++ m a

def read16 (a : BitVec 64) : BitVec 16 := m (a + 1) ++ m a

def read32 (a : BitVec 64) : BitVec 32 := m (a + 3) ++ m (a + 2) ++ m (a + 1) ++ m a

def write64 (a v : BitVec 64) : ByteMem := fun b =>
  if (b - a).toNat < 8 then v.extractLsb' (8 * (b - a).toNat) 8 else m b

def write8 (a : BitVec 64) (v : BitVec 8) : ByteMem := fun b => if b = a then v else m b

def fill (a : BitVec 64) (n : Nat) (v : BitVec 8) : ByteMem := fun b =>
  if (b - a).toNat < n then v else m b

def writeBytes (a : BitVec 64) (bs : List (BitVec 8)) : ByteMem := fun b =>
  (bs[(b - a).toNat]?).getD (m b)

end

/-- Two words at `a` and `b` do not overlap. -/
def Apart (a b : BitVec 64) : Prop := 8 ≤ (b - a).toNat ∧ 8 ≤ (a - b).toNat

instance (a b : BitVec 64) : Decidable (Apart a b) := inferInstanceAs (Decidable (_ ∧ _))

variable {a b : BitVec 64} {m : ByteMem}

theorem write64_of_le {v : BitVec 64} (h : 8 ≤ (b - a).toNat) : m.write64 a v b = m b := by
  unfold write64
  rw [if_neg (by omega)]

theorem write64_offset (m : ByteMem) (a v : BitVec 64) {i : Nat} (hi : i < 8) :
    m.write64 a v (a + BitVec.ofNat 64 i) = v.extractLsb' (8 * i) 8 := by
  have : (a + BitVec.ofNat 64 i - a).toNat = i := by
    rw [BitVec.add_comm, BitVec.add_sub_cancel, BitVec.toNat_ofNat]
    omega
  unfold write64
  rw [this, if_pos hi]

theorem read64_congr {m' : ByteMem}
    (h : ∀ i, i < 8 → m (a + BitVec.ofNat 64 i) = m' (a + BitVec.ofNat 64 i)) : m.read64 a = m'.read64 a := by
  have h0 : m a = m' a := by simpa using h 0 (by decide)
  have h1 : m (a + 1) = m' (a + 1) := h 1 (by decide)
  have h2 : m (a + 2) = m' (a + 2) := h 2 (by decide)
  have h3 : m (a + 3) = m' (a + 3) := h 3 (by decide)
  have h4 : m (a + 4) = m' (a + 4) := h 4 (by decide)
  have h5 : m (a + 5) = m' (a + 5) := h 5 (by decide)
  have h6 : m (a + 6) = m' (a + 6) := h 6 (by decide)
  have h7 : m (a + 7) = m' (a + 7) := h 7 (by decide)
  grind [read64]

theorem append_extract (v : BitVec 64) (s k : Nat) :
    v.extractLsb' (s + 8) k ++ v.extractLsb' s 8 = v.extractLsb' s (k + 8) := by
  apply eq_of_getLsbD_eq
  intro i hi
  rw [getLsbD_append, getLsbD_extractLsb', getLsbD_extractLsb', getLsbD_extractLsb']
  by_cases h : i < 8
  · simp [h, hi]
  · grind

@[simp] theorem read64_write64 (m : ByteMem) (a v : BitVec 64) : (m.write64 a v).read64 a = v := by
  have h0 : m.write64 a v a = v.extractLsb' 0 8 := by simpa using write64_offset m a v (i := 0) (by decide)
  have h1 : m.write64 a v (a + 1) = v.extractLsb' 8 8 := write64_offset m a v (i := 1) (by decide)
  have h2 : m.write64 a v (a + 2) = v.extractLsb' 16 8 := write64_offset m a v (i := 2) (by decide)
  have h3 : m.write64 a v (a + 3) = v.extractLsb' 24 8 := write64_offset m a v (i := 3) (by decide)
  have h4 : m.write64 a v (a + 4) = v.extractLsb' 32 8 := write64_offset m a v (i := 4) (by decide)
  have h5 : m.write64 a v (a + 5) = v.extractLsb' 40 8 := write64_offset m a v (i := 5) (by decide)
  have h6 : m.write64 a v (a + 6) = v.extractLsb' 48 8 := write64_offset m a v (i := 6) (by decide)
  have h7 : m.write64 a v (a + 7) = v.extractLsb' 56 8 := write64_offset m a v (i := 7) (by decide)
  unfold read64
  rw [h0, h1, h2, h3, h4, h5, h6, h7]
  rw [append_extract v 48 8, append_extract v 40 16, append_extract v 32 24, append_extract v 24 32,
    append_extract v 16 40, append_extract v 8 48, append_extract v 0 56, extractLsb'_eq_self]

theorem read64_write64_of_apart {v : BitVec 64} (h : Apart a b) : (m.write64 a v).read64 b = m.read64 b := by
  obtain ⟨hab, hba⟩ := h
  apply read64_congr
  intro i hi
  apply write64_of_le
  bv_omega

theorem read64_write64_offset {x y v : BitVec 64} (h : Apart x y) :
    (m.write64 (a + x) v).read64 (a + y) = m.read64 (a + y) := by
  have hadd : ∀ x y : BitVec 64, a + y - (a + x) = y - x := by
    intro x y
    bv_omega
  apply read64_write64_of_apart
  rw [Apart, hadd, hadd]
  exact h

theorem read64_write8_of_le {v : BitVec 8} (h : 8 ≤ (a - b).toNat) : (m.write8 a v).read64 b = m.read64 b := by
  apply read64_congr
  intro i hi
  unfold write8
  rw [if_neg]
  intro he
  bv_omega

theorem apart_of_toNat (h : a.toNat + 8 ≤ b.toNat ∨ b.toNat + 8 ≤ a.toNat)
    (ha : a.toNat + 8 ≤ 2 ^ 64) (hb : b.toNat + 8 ≤ 2 ^ 64) : Apart a b := by
  unfold Apart
  rw [toNat_sub, toNat_sub]
  omega

/-! ### Lists of bytes -/

variable {bs : List (BitVec 8)}

theorem writeBytes_concat (m : ByteMem) (a : BitVec 64) (b : BitVec 8) (h : bs.length < 2 ^ 64) :
    m.writeBytes a (bs ++ [b]) = (m.writeBytes a bs).write8 (a + BitVec.ofNat 64 bs.length) b := by
  funext x
  unfold writeBytes write8
  by_cases hx : x = a + BitVec.ofNat 64 bs.length
  · grind
  · have hoff : (x - a).toNat ≠ bs.length := by
      intro he
      apply hx
      bv_omega
    rw [if_neg hx]
    rcases Nat.lt_or_gt_of_ne hoff with hlt | hgt
    · rw [List.getElem?_append_left hlt]
    · grind

theorem writeBytes_inside (m : ByteMem) (a : BitVec 64) {i : Nat} (hi : i < bs.length)
    (h : i < 2 ^ 64) : m.writeBytes a bs (a + BitVec.ofNat 64 i) = bs[i] := by
  have hoff : (a + BitVec.ofNat 64 i - a).toNat = i := by bv_omega
  unfold writeBytes
  rw [hoff, List.getElem?_eq_getElem hi, Option.getD_some]

theorem writeBytes_outside (h : bs.length ≤ (b - a).toNat) : m.writeBytes a bs b = m b := by
  unfold writeBytes
  rw [List.getElem?_eq_none h, Option.getD_none]

/-! ### Words at multiples of eight -/

theorem apart_of_ne (ha : 8 ∣ a.toNat) (hb : 8 ∣ b.toNat) (h : a ≠ b) : Apart a b := by
  have hne : a.toNat ≠ b.toNat := fun he => h (eq_of_toNat_eq he)
  unfold Apart
  rw [toNat_sub, toNat_sub]
  omega

/-- The words at multiples of eight outside `ws` are the same in both memories. -/
def SameBut (ws : Set (BitVec 64)) (m m' : ByteMem) : Prop :=
  ∀ a : BitVec 64, 8 ∣ a.toNat → a ∉ ws → m'.read64 a = m.read64 a

namespace SameBut

variable {ws vs : Set (BitVec 64)} {m m' m'' : ByteMem}

theorem refl (m : ByteMem) : SameBut ws m m := fun _ _ _ => rfl

theorem mono (h : SameBut ws m m') (hs : ws ⊆ vs) : SameBut vs m m' := fun a ha hn => h a ha fun hw => hn (hs hw)

theorem trans (h : SameBut ws m m') (h' : SameBut ws m' m'') : SameBut ws m m'' :=
  fun a ha hn => (h' a ha hn).trans (h a ha hn)

theorem write64 {a v : BitVec 64} (h : SameBut ws m m') (ha : 8 ∣ a.toNat) (hw : a ∈ ws) :
    SameBut ws m (m'.write64 a v) := by
  intro b hb hn
  rw [read64_write64_of_apart (apart_of_ne ha hb fun he => hn (he ▸ hw))]
  exact h b hb hn

end SameBut

end ByteMem

end AstralOS
