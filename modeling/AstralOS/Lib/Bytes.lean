import Mathlib.Data.BitVec
import Mathlib.Data.Vector.Defs

/-!
# Byte buffers and little-endian integers

`leBytes w n` is the little-endian representation of `n` in `w` bytes and `leVal` reads it back.  A buffer of a
fixed length is a `Vector Byte n`; `slice` reads a range of it and `splice` overwrites one.  What was spliced in
is read back (`slice_splice_same`), and ranges that do not meet it are unchanged (`slice_splice_disjoint`).
`record` lays out integer fields one after the other and `field` reads the integer at an offset.
-/

namespace AstralOS

open List hiding Vector

abbrev Byte := BitVec 8

/-- The `w` low bytes of `n`, least significant first. -/
def leBytes : Nat → Nat → List Byte
  | 0, _ => []
  | w + 1, n => BitVec.ofNat 8 n :: leBytes w (n / 256)

/-- The number a byte string stands for, least significant byte first. -/
def leVal : List Byte → Nat
  | [] => 0
  | b :: bs => b.toNat + 256 * leVal bs

@[simp] theorem length_leBytes (w n : Nat) : (leBytes w n).length = w := by
  induction w generalizing n with
  | zero => rfl
  | succ w ih => simp [leBytes, ih]

theorem leVal_leBytes (w n : Nat) : leVal (leBytes w n) = n % 256 ^ w := by
  induction w generalizing n with
  | zero => simp [leBytes, leVal, Nat.mod_one]
  | succ w ih =>
    simp [leBytes, leVal, ih, BitVec.toNat_ofNat, Nat.pow_succ, Nat.mul_comm (256 ^ w) 256, Nat.mod_mul]

/-! ### Buffers -/

variable {n : Nat}

section

variable (b : Vector Byte n)

def byteAt (i : Nat) : Byte := b.getD i 0#8

def slice (off len : Nat) : List Byte :=
  (List.range len).map fun j => byteAt b (off + j)

def splice (off : Nat) (bytes : List Byte) : Vector Byte n :=
  Vector.ofFn fun i => if off ≤ i.val ∧ i.val < off + bytes.length then bytes.getD (i.val - off) 0#8 else b[i]

theorem byteAt_of_lt {i : Nat} (h : i < n) : byteAt b i = b[i] := by
  simp [byteAt, Vector.getD, h]

end

theorem byteAt_ofFn (f : Fin n → Byte) {i : Nat} (h : i < n) : byteAt (Vector.ofFn f) i = f ⟨i, h⟩ := by
  rw [byteAt_of_lt _ h, Vector.getElem_ofFn]

theorem byteAt_splice (b : Vector Byte n) (off : Nat) (bytes : List Byte) {i : Nat} (h : i < n) :
    byteAt (splice b off bytes) i =
      if off ≤ i ∧ i < off + bytes.length then bytes.getD (i - off) 0#8 else byteAt b i := by
  unfold splice
  rw [byteAt_ofFn _ h, byteAt_of_lt b h]
  rfl

@[simp] theorem length_slice (b : Vector Byte n) (off len : Nat) : (slice b off len).length = len := by
  simp [slice]

theorem slice_add (b : Vector Byte n) (off len len' : Nat) :
    slice b off (len + len') = slice b off len ++ slice b (off + len) len' := by
  simp [slice, range_add, Nat.add_assoc]

theorem slice_replicate_zero (off len : Nat) : slice (Vector.replicate n 0) off len = List.replicate len 0 := by
  have hbyte : ∀ i, byteAt (Vector.replicate n 0#8) i = 0#8 := by
    intro i
    by_cases hi : i < n
    · rw [byteAt_of_lt _ hi, Vector.getElem_replicate]
    · simp [byteAt, Vector.getD, hi]
  show (range len).map (fun j => byteAt (Vector.replicate n 0#8) (off + j)) = replicate len 0#8
  simp [hbyte, map_const']

section

variable (b : Vector Byte n)

theorem slice_eq_take_drop {off len : Nat} (h : off + len ≤ n) :
    slice b off len = (b.toList.drop off).take len := by
  apply ext_getElem
  · simp
    omega
  · intro i h1 h2
    have hi : i < len := by simpa using h1
    simp only [slice, getElem_map, getElem_range, getElem_take, getElem_drop, Vector.getElem_toList]
    exact byteAt_of_lt b (by omega)

theorem slice_splice_same (off : Nat) (bytes : List Byte) (h : off + bytes.length ≤ n) :
    slice (splice b off bytes) off bytes.length = bytes := by
  apply ext_getElem
  · simp
  · intro i h1 h2
    simp only [slice, getElem_map, getElem_range]
    rw [byteAt_splice _ _ _ (by omega), if_pos (by omega), Nat.add_sub_cancel_left]
    simp [getD_eq_getElem?_getD, h2]

theorem slice_splice_take (off : Nat) {bytes : List Byte} (h : off + bytes.length ≤ n) {k : Nat}
    (hk : k ≤ bytes.length) : slice (splice b off bytes) off k = bytes.take k := by
  have hsame := congrArg (take k) (slice_splice_same b off bytes h)
  rw [← hsame, slice, slice, ← map_take, take_range, Nat.min_eq_left hk]

theorem slice_splice_disjoint {off o len : Nat} {bytes : List Byte} (hlen : o + len ≤ n)
    (h : o + len ≤ off ∨ off + bytes.length ≤ o) :
    slice (splice b off bytes) o len = slice b o len := by
  apply map_congr_left
  intro j hj
  have := mem_range.1 hj
  rw [byteAt_splice _ _ _ (by omega), if_neg (by omega)]

theorem slice_zero : slice b 0 n = b.toList := by
  apply ext_getElem
  · simp
  · intro i h1 h2
    simp only [slice, getElem_map, getElem_range, Nat.zero_add]
    rw [byteAt_of_lt _ (by simpa using h2), Vector.getElem_toList]

end

/-! ### Records -/

/-- A record: integer fields `(width in bytes, value)` one after the other. -/
def record (fields : List (Nat × Nat)) : List Byte := fields.flatMap fun f => leBytes f.1 f.2

/-- The little-endian integer in the `w` bytes at offset `off` of a record. -/
def field (bytes : List Byte) (off w : Nat) : Nat := leVal ((bytes.drop off).take w)

theorem length_record (fields : List (Nat × Nat)) : (record fields).length = (fields.map Prod.fst).sum := by
  simp [record, length_leBytes]

theorem field_record_head (w v : Nat) (fields : List (Nat × Nat)) (rest : List Byte) :
    field (record ((w, v) :: fields) ++ rest) 0 w = v % 256 ^ w := by
  simp [field, drop_zero, record, flatMap_cons, append_assoc, leVal_leBytes]

theorem field_record_tail (w v : Nat) (fields : List (Nat × Nat)) (rest : List Byte) {off : Nat} (w' : Nat)
    (h : w ≤ off) :
    field (record ((w, v) :: fields) ++ rest) off w' = field (record fields ++ rest) (off - w) w' := by
  unfold field
  rw [record, flatMap_cons, append_assoc, drop_append, drop_of_length_le (by simpa using h)]
  simp [record]

end AstralOS
