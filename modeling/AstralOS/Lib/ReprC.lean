import AstralOS.Lib.Bytes

/-!
# Records with a C layout

A `Codec` says how the values of a type stand in memory: how many bytes they take, to what they are aligned, and which bytes
they are.  The fields of a struct follow each other, each at the next multiple of its alignment; the struct is aligned as its
most aligned field and its size is a multiple of that.  Fields are added one at a time at a running offset (`Fields`), so that
a struct comes with its size, the offsets of its fields and the law that a stored value is read back.
-/

namespace AstralOS.ReprC

def roundUp (n a : Nat) : Nat := (n + (a - 1)) / a * a

theorem le_roundUp (n : Nat) {a : Nat} (ha : 0 < a) : n ≤ roundUp n a := by
  have hdiv := Nat.div_add_mod (n + (a - 1)) a
  have hmod := Nat.mod_lt (n + (a - 1)) ha
  grind [roundUp, Nat.mul_comm]

/-- How the values of a type stand in memory. -/
structure Codec (α : Type) where
  size : Nat
  align : Nat
  encode : α → List Byte
  decode : List Byte → α
  align_pos : 0 < align
  align_dvd_size : align ∣ size
  length_encode : ∀ x, (encode x).length = size
  decode_encode : ∀ x rest, decode (encode x ++ rest) = x

/-- Fields that follow each other, from a given offset of the struct on.  They are read from the bytes of the struct. -/
structure Fields (α : Type) where
  align : Nat
  stop : Nat → Nat
  encode : Nat → α → List Byte
  decode : Nat → List Byte → α
  align_pos : 0 < align
  length_encode : ∀ off x, off + (encode off x).length = stop off
  decode_encode : ∀ front x rest, decode front.length (front ++ encode front.length x ++ rest) = x

def padding (off align : Nat) : List Byte := List.replicate (roundUp off align - off) 0

variable {α β : Type}

namespace Codec

def uint (n : Nat) (hn : 0 < n) : Codec (BitVec (8 * n)) where
  size := n
  align := n
  encode x := leBytes n x.toNat
  decode bytes := BitVec.ofNat (8 * n) (field bytes 0 n)
  align_pos := hn
  align_dvd_size := Nat.dvd_refl n
  length_encode x := length_leBytes n x.toNat
  decode_encode x rest := by
    have hval := field_record_head n x.toNat [] rest
    simp only [record, List.flatMap_cons, List.flatMap_nil, List.append_nil] at hval
    apply BitVec.eq_of_toNat_eq
    rw [hval, BitVec.toNat_ofNat, show 256 ^ n = 2 ^ (8 * n) by rw [Nat.pow_mul], Nat.mod_mod, Nat.mod_eq_of_lt x.isLt]

def u8 : Codec (BitVec 8) := uint 1 (by decide)
theorem four_pos : 0 < 4 := by decide

theorem eight_pos : 0 < 8 := by decide

def u16 : Codec (BitVec 16) := uint 2 (by decide)
def u32 : Codec (BitVec 32) := uint 4 four_pos
def u64 : Codec (BitVec 64) := uint 8 eight_pos

section

variable (c : Codec α)

theorem drop_flatMap_encode (xs : List α) {i : Nat} (hi : i < xs.length) :
    (xs.flatMap c.encode).drop (i * c.size) = c.encode xs[i] ++ (xs.drop (i + 1)).flatMap c.encode := by
  induction xs generalizing i with
  | nil => simp at hi
  | cons x xs ih =>
    cases i with
    | zero => simp
    | succ i =>
      have hdrop : (i + 1) * c.size = (c.encode x).length + i * c.size := by
        rw [c.length_encode, Nat.succ_mul, Nat.add_comm]
      rw [List.flatMap_cons, hdrop, List.drop_append]
      simp [ih (Nat.lt_of_succ_lt_succ hi)]

theorem length_flatMap_encode (xs : List α) : (xs.flatMap c.encode).length = xs.length * c.size := by
  induction xs with
  | nil => simp
  | cons x xs ih =>
    rw [List.flatMap_cons, List.length_append, ih, c.length_encode, List.length_cons, Nat.succ_mul, Nat.add_comm]

def array (n : Nat) : Codec (Vector α n) where
  size := n * c.size
  align := c.align
  encode xs := xs.toList.flatMap c.encode
  decode bytes := Vector.ofFn fun i => c.decode (bytes.drop (i * c.size))
  align_pos := c.align_pos
  align_dvd_size := Nat.dvd_mul_left_of_dvd c.align_dvd_size n
  length_encode xs := by rw [length_flatMap_encode, Vector.length_toList]
  decode_encode xs rest := by
    apply Vector.ext
    intro i hi
    have hle : i * c.size ≤ (xs.toList.flatMap c.encode).length := by
      rw [length_flatMap_encode, Vector.length_toList]
      exact Nat.mul_le_mul_right _ (Nat.le_of_lt hi)
    rw [Vector.getElem_ofFn, List.drop_append_of_le_length hle, drop_flatMap_encode c _ (by simpa using hi),
      List.append_assoc, c.decode_encode, Vector.getElem_toList]

def ofEquiv (e : β ≃ α) : Codec β where
  size := c.size
  align := c.align
  encode x := c.encode (e x)
  decode bytes := e.symm (c.decode bytes)
  align_pos := c.align_pos
  align_dvd_size := c.align_dvd_size
  length_encode x := c.length_encode (e x)
  decode_encode x rest := by rw [c.decode_encode, Equiv.symm_apply_apply]

end

end Codec

namespace Fields

theorem length_padding (front : List Byte) {align : Nat} (h : 0 < align) :
    (front ++ padding front.length align).length = roundUp front.length align := by
  have hle := le_roundUp front.length h
  rw [List.length_append, padding, List.length_replicate]
  omega

def last (c : Codec α) : Fields α where
  align := c.align
  stop off := roundUp off c.align + c.size
  encode off x := padding off c.align ++ c.encode x
  decode off bytes := c.decode (bytes.drop (roundUp off c.align))
  align_pos := c.align_pos
  length_encode off x := by
    have hle := le_roundUp off c.align_pos
    rw [List.length_append, c.length_encode, padding, List.length_replicate]
    omega
  decode_encode front x rest := by
    rw [← List.append_assoc, List.append_assoc _ _ rest, ← length_padding front c.align_pos, List.drop_left,
      c.decode_encode]

def cons (c : Codec α) (fs : Fields β) : Fields (α × β) where
  align := max c.align fs.align
  stop off := fs.stop (roundUp off c.align + c.size)
  encode off x := padding off c.align ++ c.encode x.1 ++ fs.encode (roundUp off c.align + c.size) x.2
  decode off bytes :=
    (c.decode (bytes.drop (roundUp off c.align)), fs.decode (roundUp off c.align + c.size) bytes)
  align_pos := Nat.lt_of_lt_of_le c.align_pos (Nat.le_max_left _ _)
  length_encode off x := by
    have hle := le_roundUp off c.align_pos
    have hrest := fs.length_encode (roundUp off c.align + c.size) x.2
    rw [List.length_append, List.length_append, c.length_encode, padding, List.length_replicate]
    omega
  decode_encode front x rest := by
    have hpad := length_padding front c.align_pos
    have hfront : (front ++ padding front.length c.align ++ c.encode x.1).length =
        roundUp front.length c.align + c.size := by
      rw [List.length_append, hpad, c.length_encode]
    have hbytes : ∀ tail : List Byte, front ++ (padding front.length c.align ++ c.encode x.1 ++ tail) ++ rest =
        front ++ padding front.length c.align ++ c.encode x.1 ++ tail ++ rest := by simp
    rw [hbytes]
    apply Prod.ext
    · rw [List.append_assoc _ _ rest, List.append_assoc _ (c.encode x.1), ← hpad, List.drop_left, c.decode_encode]
    · rw [← hfront, fs.decode_encode]

def struct (fs : Fields α) : Codec α where
  size := roundUp (fs.stop 0) fs.align
  align := fs.align
  encode x := fs.encode 0 x ++ padding (fs.stop 0) fs.align
  decode bytes := fs.decode 0 bytes
  align_pos := fs.align_pos
  align_dvd_size := Nat.dvd_mul_left _ _
  length_encode x := by
    have hle := le_roundUp (fs.stop 0) fs.align_pos
    have hlen := fs.length_encode 0 x
    rw [List.length_append, padding, List.length_replicate]
    omega
  decode_encode x rest := by
    rw [List.append_assoc]
    exact fs.decode_encode [] x _

end Fields

end AstralOS.ReprC
