import Mathlib.Data.BitVec

/-!
# Rings between a writer and a reader

A ring of `n` slots with two free-running counters of `w` bits: the writer puts the entry with number `i` into slot
`i mod n`, and the reader follows.  `RingLog` relates the slots and the counters to the list of everything that was
written and to the part of it that was read; as long as the writer is at most `n` entries ahead, the next read gives the
next entry (`RingLog.next`).
-/

namespace AstralOS

/-! ### Slots and counters -/

theorem slot_ne {i j n : Nat} (h1 : i < j) (h2 : j < i + n) : i % n ≠ j % n := by
  intro heq
  have hdvd : n ∣ j - i := Nat.dvd_of_mod_eq_zero (Nat.sub_mod_eq_zero_of_mod_eq heq.symm)
  have := Nat.le_of_dvd (by omega) hdvd
  omega

variable {α : Type} {n w i : Nat}

theorem toNat_ofNat_mod (hdvd : n ∣ 2 ^ w) (i : Nat) : (BitVec.ofNat w i).toNat % n = i % n := by
  rw [BitVec.toNat_ofNat, Nat.mod_mod_of_dvd i hdvd]

theorem ofNat_add_one (w i : Nat) : BitVec.ofNat w i + 1 = BitVec.ofNat w (i + 1) := by
  rw [BitVec.ofNat_add]
  rfl

theorem ofNat_eq_iff {j : Nat} (hn : n < 2 ^ w) (h1 : i ≤ j) (h2 : j ≤ i + n) :
    BitVec.ofNat w i = BitVec.ofNat w j ↔ i = j := by
  constructor
  · intro h
    have hmod : i % 2 ^ w = j % 2 ^ w := by
      simpa only [BitVec.toNat_ofNat] using congrArg BitVec.toNat h
    by_contra hne
    exact slot_ne (show i < j by omega) (by omega) hmod
  · exact fun h => by rw [h]

theorem prefix_snoc {l log : List α} {a : α} (h : l <+: log) (ha : log[l.length]? = some a) : l ++ [a] <+: log := by
  obtain ⟨t, rfl⟩ := h
  cases t with
  | nil => simp at ha
  | cons b t =>
    simp_all

/-! ### The ring -/

/-- The counters count the entries of the log and those that were read, which come first, and the slots hold the
others. -/
structure RingLog (n : Nat) (ring : Nat → α) (written read : BitVec w) (log seen : List α) : Prop where
  written : written = BitVec.ofNat w log.length
  read : read = BitVec.ofNat w seen.length
  readFirst : seen <+: log
  slots : ∀ i a, seen.length ≤ i → log[i]? = some a → ring (i % n) = a

namespace RingLog

variable {ring ring' : Nat → α} {written read : BitVec w} {log seen : List α}

theorem nil (ring : Nat → α) : RingLog n ring (0 : BitVec w) (0 : BitVec w) [] [] where
  written := rfl
  read := rfl
  readFirst := List.prefix_refl []
  slots := by simp

section

variable (h : RingLog n ring written read log seen)
include h

theorem congr (hn : 0 < n) (hring : ∀ slot, slot < n → ring' slot = ring slot) :
    RingLog n ring' written read log seen where
  written := h.written
  read := h.read
  readFirst := h.readFirst
  slots := by
    intro i a hi ha
    rw [hring _ (Nat.mod_lt _ hn)]
    exact h.slots i a hi ha

theorem push (hroom : log.length < seen.length + n) {a : α}
    (hnew : ring' (log.length % n) = a) (hold : ∀ slot, slot < n → slot ≠ log.length % n → ring' slot = ring slot) :
    RingLog n ring' (written + 1) read (log ++ [a]) seen where
  written := by rw [h.written, ofNat_add_one, List.length_append, List.length_singleton]
  read := h.read
  readFirst := h.readFirst.trans (List.prefix_append log [a])
  slots := by
    intro i b hi hb
    by_cases hlt : i < log.length
    · rw [List.getElem?_append_left hlt] at hb
      rw [hold _ (Nat.mod_lt _ (by omega)) (slot_ne hlt (by omega))]
      exact h.slots i b hi hb
    · obtain rfl : i = log.length := by
        have := (List.getElem?_eq_some_iff.1 hb).1
        simp at this
        omega
      obtain rfl : a = b := by simpa using hb
      exact hnew

theorem empty_iff (hn : n < 2 ^ w) (hroom : log.length ≤ seen.length + n) :
    read = written ↔ log[seen.length]? = none := by
  have hle := h.readFirst.length_le
  simp [h.read, h.written, ofNat_eq_iff hn hle hroom]
  omega

theorem next (hn : n < 2 ^ w) (hdvd : n ∣ 2 ^ w)
    (hroom : log.length ≤ seen.length + n) (hne : read ≠ written) :
    log[seen.length]? = some (ring (read.toNat % n)) := by
  cases hnext : log[seen.length]? with
  | none => exact absurd ((h.empty_iff hn hroom).2 hnext) hne
  | some a => rw [h.read, toNat_ofNat_mod hdvd, h.slots _ a (Nat.le_refl _) hnext]

theorem pop {a : α} (ha : log[seen.length]? = some a) :
    RingLog n ring written (read + 1) log (seen ++ [a]) where
  written := h.written
  read := by rw [h.read, ofNat_add_one, List.length_append, List.length_singleton]
  readFirst := prefix_snoc h.readFirst ha
  slots := by
    intro i b hi hb
    rw [List.length_append] at hi
    exact h.slots i b (by omega) hb

end

end RingLog

end AstralOS
