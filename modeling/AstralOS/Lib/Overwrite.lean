import Mathlib.Data.BitVec

/-!
# Writing into a sequence

`overwrite fill c off data` is the sequence `c` after `data` was written at the offset `off`: what was there before is
replaced, the sequence grows if the data reaches behind its end, and a gap between its end and the offset is filled.
Nothing is changed by writing nothing.  At no other offset does writing give the same result as at the end
(`overwrite_eq_end_iff`).
-/

namespace AstralOS

variable {α : Type} {fill : α} {c data : List α} {off : Nat}

/-- The sequence after `data` was written at `off`. -/
def overwrite (fill : α) (c : List α) (off : Nat) (data : List α) : List α :=
  match data with
  | [] => c
  | data => c.take off ++ List.replicate (off - c.length) fill ++ data ++ c.drop (off + data.length)

@[simp] theorem overwrite_nil : overwrite fill c off [] = c := rfl

theorem length_overwrite (h : data ≠ []) : (overwrite fill c off data).length = max c.length (off + data.length) := by
  simp [overwrite, List.length_append, List.length_take, List.length_replicate, List.length_drop]
  omega

theorem length_le_overwrite : c.length ≤ (overwrite fill c off data).length := by
  by_cases hdata : data = []
  · rw [hdata]
    exact Nat.le_refl _
  · rw [length_overwrite hdata]
    omega

theorem overwrite_eq_end_iff :
    overwrite fill c off data = overwrite fill c c.length data ↔ data ≠ [] → off = c.length := by
  constructor
  · intro h hdata
    have hlen := congrArg List.length h
    rw [length_overwrite hdata, length_overwrite hdata] at hlen
    have hpos : 0 < data.length := List.length_pos_of_ne_nil hdata
    omega
  · intro h
    by_cases hdata : data = []
    · rw [hdata, overwrite_nil, overwrite_nil]
    · rw [h hdata]

end AstralOS
