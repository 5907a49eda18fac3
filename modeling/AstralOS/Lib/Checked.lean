import AstralOS.Lib.Bytes

/-!
# Checked access to byte strings

Byte strings are read by index and by range, and an access outside the string panics, as a slice access does in a language
that checks its bounds.  For each way to access a string there is one lemma that says what it gives inside the string.
-/

namespace AstralOS

/-- How an access fails. -/
inductive Panic
  /-- The index is not below the length. -/
  | index (i len : Nat)
  /-- The range ends before it starts or behind the string. -/
  | range (start stop len : Nat)
  /-- The source of a copy does not have the length of the target. -/
  | copy (target source : Nat)
  deriving DecidableEq

abbrev Checked := Except Panic

namespace Checked

section

variable (l : List Byte)

def index (i : Nat) : Checked Byte :=
  match l[i]? with
  | some b => .ok b
  | none => .error (.index i l.length)

def range (start stop : Nat) : Checked (List Byte) :=
  if start ≤ stop ∧ stop ≤ l.length then .ok ((l.drop start).take (stop - start))
  else .error (.range start stop l.length)

def suffix (start : Nat) : Checked (List Byte) :=
  if start ≤ l.length then .ok (l.drop start) else .error (.range start l.length l.length)

def store (i : Nat) (b : Byte) : Checked (List Byte) :=
  if i < l.length then .ok (l.set i b) else .error (.index i l.length)

end

def copy (n : Nat) (l : List Byte) : Checked (Vector Byte n) :=
  if h : l.length = n then .ok ⟨l.toArray, by simpa using h⟩ else .error (.copy n l.length)

def Returns {α : Type} (c : Checked α) : Prop := ∃ a, c = .ok a

section

variable (l : List Byte)

def index16 (i : Nat) : Checked (BitVec 16) := do
  return (← index l i) ++ (← index l (i + 1))

def index32 (i : Nat) : Checked (BitVec 32) := do
  return (← index16 l i) ++ (← index16 l (i + 2))

def be16 (i : Nat) : BitVec 16 := l.getD i 0 ++ l.getD (i + 1) 0

def be32 (i : Nat) : BitVec 32 := be16 l i ++ be16 l (i + 2)

end

variable {l : List Byte} {i : Nat}

@[simp] theorem ok_bind {α β : Type} (a : α) (f : α → Checked β) : (Except.ok a >>= f) = f a := rfl

@[simp] theorem error_bind {α β : Type} (e : Panic) (f : α → Checked β) : (Except.error e >>= f) = Except.error e := rfl

theorem returns_ok {α : Type} (a : α) : Returns (.ok a : Checked α) := ⟨a, rfl⟩

theorem not_returns_error {α : Type} (e : Panic) : ¬Returns (.error e : Checked α) := by
  intro h
  obtain ⟨a, ha⟩ := h
  cases ha

theorem returns_bind_iff {α β : Type} {c : Checked α} {f : α → Checked β} (hf : ∀ a, Returns (f a)) :
    Returns (c >>= f) ↔ Returns c := by
  cases c with
  | ok a => exact ⟨fun _ => returns_ok a, fun _ => hf a⟩
  | error e => exact ⟨fun h => absurd h (not_returns_error e), fun h => absurd h (not_returns_error e)⟩

theorem index_of_lt (h : i < l.length) : index l i = .ok (l.getD i 0) := by
  unfold index
  simp [h]

theorem index16_of_lt (h : i + 1 < l.length) : index16 l i = .ok (be16 l i) := by
  unfold index16
  rw [index_of_lt (by omega), index_of_lt h]
  rfl

theorem index32_of_lt (h : i + 3 < l.length) : index32 l i = .ok (be32 l i) := by
  unfold index32
  rw [index16_of_lt (by omega), index16_of_lt (by omega)]
  rfl

theorem range_of_le {start stop : Nat} (h1 : start ≤ stop) (h2 : stop ≤ l.length) :
    range l start stop = .ok ((l.drop start).take (stop - start)) := if_pos ⟨h1, h2⟩

theorem range_length {n : Nat} (h : l.length = n) : range l 0 n = .ok l := by
  rw [range_of_le (Nat.zero_le n) (Nat.le_of_eq h.symm), List.drop_zero, Nat.sub_zero, List.take_of_length_le (Nat.le_of_eq h)]

theorem suffix_of_le {start : Nat} (h : start ≤ l.length) : suffix l start = .ok (l.drop start) := if_pos h

theorem store_of_lt (b : Byte) (h : i < l.length) : store l i b = .ok (l.set i b) := if_pos h

theorem exists_copy {n : Nat} (h : l.length = n) : ∃ v, copy n l = .ok v ∧ v.toList = l := by
  exact ⟨_, dif_pos h, rfl⟩

@[simp] theorem copy_toList {n : Nat} (v : Vector Byte n) : copy n v.toList = .ok v := by
  unfold copy
  rw [dif_pos (by simp)]
  rfl

theorem exists_range_copy {start stop n : Nat} (hn : start + n = stop) (h : stop ≤ l.length) :
    ∃ r v, range l start stop = .ok r ∧ copy n r = .ok v ∧ r = (l.drop start).take n ∧ v.toList = r := by
  have hlen : ((l.drop start).take n).length = n := by
    grind
  obtain ⟨v, hv, hlist⟩ := exists_copy hlen
  refine ⟨_, v, ?_, hv, rfl, hlist⟩
  rw [range_of_le (by omega) h, show stop - start = n by omega]

@[simp] theorem be16_drop (l : List Byte) (k i : Nat) : be16 (l.drop k) i = be16 l (k + i) := by
  simp [be16, List.getElem?_drop, Nat.add_assoc]

end Checked

end AstralOS
