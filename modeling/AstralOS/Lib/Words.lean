import AstralOS.Lib.Bytes
import Mathlib.Data.List.Range

/-!
# Words in a block of bytes

A block of bytes is addressed by the offset from its start.  `load` reads a little-endian number of `w` bytes at an
offset and `store` writes one: it is read back (`load_store`), and what does not overlap it is unchanged
(`load_store_of_apart`).
-/

namespace AstralOS

abbrev ByteBlock := Nat → Byte

namespace ByteBlock

def load (m : ByteBlock) (off w : Nat) : Nat := leVal ((List.range w).map fun j => m (off + j))

def store (m : ByteBlock) (off w v : Nat) : ByteBlock := fun x =>
  if off ≤ x ∧ x < off + w then BitVec.ofNat 8 (v / 256 ^ (x - off)) else m x

def zero (m : ByteBlock) (off w : Nat) : ByteBlock := fun x => if off ≤ x ∧ x < off + w then 0 else m x

/-- The blocks agree from `lo` up to `hi`. -/
def SameOn (lo hi : Nat) (m m' : ByteBlock) : Prop := ∀ x, lo ≤ x → x < hi → m' x = m x

variable {m m' m'' : ByteBlock} {off w v lo hi : Nat}

theorem SameOn.trans (h : SameOn lo hi m m') (h' : SameOn lo hi m' m'') : SameOn lo hi m m'' :=
  fun x h1 h2 => (h' x h1 h2).trans (h x h1 h2)

theorem sameOn_store (h : off + w ≤ lo ∨ hi ≤ off) : SameOn lo hi m (m.store off w v) := by
  intro x h1 h2
  exact if_neg (by omega)

theorem load_congr (h : SameOn off (off + w) m m') : load m' off w = load m off w := by
  unfold load
  congr 1
  apply List.map_congr_left
  intro j hj
  have := List.mem_range.1 hj
  exact h _ (by omega) (by omega)

theorem leBytes_eq_map (w v : Nat) : leBytes w v = (List.range w).map fun j => BitVec.ofNat 8 (v / 256 ^ j) := by
  induction w generalizing v with
  | zero => rfl
  | succ w ih =>
    simp [leBytes, ih, List.range_succ_eq_map, List.map_cons, List.map_map, Nat.pow_zero, Nat.div_one,
      List.cons.injEq, Function.comp_apply, Nat.succ_eq_add_one, Nat.pow_succ, Nat.mul_comm,
      Nat.div_div_eq_div_mul]

theorem load_store (m : ByteBlock) (off w v : Nat) : load (m.store off w v) off w = v % 256 ^ w := by
  rw [← leVal_leBytes, leBytes_eq_map]
  unfold load
  congr 1
  simp [store, Nat.add_sub_cancel_left]
  omega

theorem load_store_of_apart {o u : Nat} (h : o + u ≤ off ∨ off + w ≤ o) : load (m.store off w v) o u = load m o u :=
  load_congr (sameOn_store (by omega))

theorem load_eq_zero (h : ∀ x, off ≤ x → x < off + w → m x = 0) : load m off w = 0 := by
  have hzero : ∀ u : Nat, leVal ((List.range u).map fun _ => (0 : Byte)) = 0 := by
    intro u
    induction u with
    | zero => rfl
    | succ u ih =>
      rw [List.range_succ_eq_map, List.map_cons, List.map_map, leVal]
      rw [show ((fun _ => (0 : Byte)) ∘ Nat.succ) = fun _ => (0 : Byte) from rfl, ih]
      rfl
  unfold load
  rw [← hzero w]
  congr 1
  apply List.map_congr_left
  simp_all

end ByteBlock

end AstralOS
