import AstralOS.Lib.Bytes

/-!
# The interrupt table

The loop of `parse_madt` in `acpi/madt.rs`, which goes from entry to entry by the length that each of them states.  The
records it reads have fixed sizes by their types, whatever length the entry states, and an entry of length zero is read again
and again.
-/

namespace AstralOS.Acpi

/-- The bytes from the start of the table on. -/
abbrev Image := Nat → Byte

def word (image : Image) (i : Nat) : BitVec 32 := image (i + 3) ++ image (i + 2) ++ image (i + 1) ++ image i

structure MadtInfo where
  localApicAddr : BitVec 64
  localApics : List (BitVec 32)
  ioapicAddr : BitVec 64
  ioapicGsiBase : BitVec 32

/-- The length that the table states in its header. -/
def tableLength (image : Image) : Nat := (word image 4).toNat

def entryLength (image : Image) (offset : Nat) : Nat := (image (offset + 1)).toNat

/-- The size of the record that is read at an entry. -/
def recordSize (image : Image) (offset : Nat) : Nat :=
  match image offset with
  | 0 => 8
  | 1 => 12
  | 9 => 16
  | _ => 2

def readEntry (image : Image) (offset : Nat) (info : MadtInfo) : MadtInfo :=
  match image offset with
  | 0 =>
    if word image (offset + 4) &&& 1 ≠ 0 then
      { info with localApics := info.localApics ++ [(image (offset + 3)).setWidth 32] }
    else info
  | 1 =>
    { info with ioapicAddr := (word image (offset + 4)).setWidth 64, ioapicGsiBase := word image (offset + 8) }
  | 9 =>
    if word image (offset + 8) &&& 1 ≠ 0 then { info with localApics := info.localApics ++ [word image (offset + 4)] }
    else info
  | _ => info

/-- The state of the loop of `parse_madt`; the offset is counted from the start of the table. -/
structure Parsing where
  offset : Nat
  info : MadtInfo

variable (image : Image)

def parsing : Nat → Parsing
  | 0 => ⟨44, ⟨(word image 36).setWidth 64, [], 0, 0⟩⟩
  | k + 1 =>
    let p := parsing k
    if p.offset < tableLength image then ⟨p.offset + entryLength image p.offset, readEntry image p.offset p.info⟩ else p

/-- The loop ends after at most as many iterations as the table has bytes, and every record it reads is in the table. -/
structure Contained : Prop where
  ends : ∃ k ≤ tableLength image, tableLength image ≤ (parsing image k).offset
  inside : ∀ k, (parsing image k).offset < tableLength image →
    (parsing image k).offset + recordSize image (parsing image k).offset ≤ tableLength image

/-- The offsets that are reached by the lengths of the entries. -/
inductive EntryAt : Nat → Prop
  | first : EntryAt 44
  | next {offset : Nat} : EntryAt offset → EntryAt (offset + entryLength image offset)

/-- No entry of the table has length zero, and the table is long enough for the record of each. -/
def WellFormed : Prop := ∀ offset, EntryAt image offset → offset < tableLength image →
  0 < entryLength image offset ∧ offset + recordSize image offset ≤ tableLength image

variable {image}

theorem offset_succ {k : Nat} (h : (parsing image k).offset < tableLength image) :
    (parsing image (k + 1)).offset = (parsing image k).offset + entryLength image (parsing image k).offset := by
  rw [parsing, if_pos h]

theorem offset_le_succ (k : Nat) : (parsing image k).offset ≤ (parsing image (k + 1)).offset := by
  by_cases h : (parsing image k).offset < tableLength image
  · exact offset_succ h ▸ Nat.le_add_right ..
  · rw [parsing, if_neg h]

theorem entryAt_parsing (k : Nat) : EntryAt image (parsing image k).offset := by
  induction k with
  | zero => exact .first
  | succ k ih =>
    by_cases h : (parsing image k).offset < tableLength image
    · exact offset_succ h ▸ .next ih
    · rwa [parsing, if_neg h]

theorem EntryAt.exists_parsing {offset : Nat} (h : EntryAt image offset) (hlt : offset < tableLength image) :
    ∃ k, (parsing image k).offset = offset := by
  induction h with
  | first => exact ⟨0, rfl⟩
  | next _ ih =>
    obtain ⟨k, hk⟩ := ih (Nat.lt_of_le_of_lt (Nat.le_add_right ..) hlt)
    subst hk
    exact ⟨k + 1, offset_succ (Nat.lt_of_le_of_lt (Nat.le_add_right ..) hlt)⟩

/-- An entry of length zero is never left. -/
theorem stuck {k : Nat} (hzero : entryLength image (parsing image k).offset = 0) (j : Nat) :
    (parsing image (k + j)).offset = (parsing image k).offset := by
  induction j with
  | zero => rfl
  | succ j ih =>
    rw [← Nat.add_assoc, parsing]
    split_ifs
    · rw [ih, hzero, Nat.add_zero]
    · exact ih

theorem WellFormed.progress (h : WellFormed image) (k : Nat) :
    tableLength image ≤ (parsing image k).offset ∨ 44 + k ≤ (parsing image k).offset := by
  induction k with
  | zero => exact .inr (Nat.le_refl _)
  | succ k ih =>
    by_cases hlt : (parsing image k).offset < tableLength image
    · have hpos := (h _ (entryAt_parsing k) hlt).1
      rw [offset_succ hlt]
      omega
    · exact .inl (Nat.le_trans (Nat.le_of_not_lt hlt) (offset_le_succ k))

/-- **The interrupt table.** The loop ends inside the table exactly if no entry has length zero and all records fit. -/
theorem parse_madt_contained_iff (image : Image) : Contained image ↔ WellFormed image := by
  constructor
  · intro h offset hen hlt
    obtain ⟨k, rfl⟩ := hen.exists_parsing hlt
    refine ⟨Nat.pos_of_ne_zero fun hzero => ?_, h.inside k hlt⟩
    obtain ⟨n, -, hn⟩ := h.ends
    have hmono : Monotone fun k => (parsing image k).offset := monotone_nat_of_le_succ offset_le_succ
    have hle : (parsing image n).offset ≤ (parsing image k).offset := by
      rcases Nat.le_total n k with hnk | hkn
      · exact hmono hnk
      · obtain ⟨j, rfl⟩ := Nat.exists_eq_add_of_le hkn
        exact Nat.le_of_eq (stuck hzero j)
    omega
  · intro h
    refine ⟨⟨tableLength image, Nat.le_refl _, ?_⟩, fun k hlt => (h _ (entryAt_parsing k) hlt).2⟩
    rcases h.progress (tableLength image) with hle | hle
    · exact hle
    · omega

/-- A table of 46 bytes that ends with an entry of length zero: the loop does not end, and reads eight bytes of two. -/
theorem parse_madt_not_contained : ¬ Contained fun i => if i = 4 then 46 else 0 := by
  intro h
  exact absurd (h.inside 0 (by decide)) (by decide)

end AstralOS.Acpi
