import Mathlib.Data.BitVec

/-!
# Circular buffers

A circular buffer of `n` slots with a head, a tail and a count.  `Holds b xs` says that the buffer stands for the
queue `xs`: a push appends to the queue (`Holds.push`), a pop takes its first element (`Holds.pop`) and fails only on
the empty queue (`Holds.pop_none`).
-/

open Function

namespace AstralOS

variable {α : Type} {n : Nat}

/-- The slots beyond `n` are never used. -/
structure Circular (α : Type) (n : Nat) where
  slots : Nat → Option α
  head : Nat
  tail : Nat
  count : Nat

namespace Circular

def new : Circular α n := ⟨fun _ => none, 0, 0, 0⟩

def push (b : Circular α n) (x : α) : Bool × Circular α n :=
  if b.count ≥ n then (false, b)
  else
    (true, { slots := update b.slots b.tail (some x), head := b.head, tail := (b.tail + 1) % n,
             count := b.count + 1 })

def pop (b : Circular α n) : Option α × Circular α n :=
  if b.count = 0 then (none, b)
  else
    (b.slots b.head,
      { slots := update b.slots b.head none, head := (b.head + 1) % n, tail := b.tail, count := b.count - 1 })

def contents (b : Circular α n) : List α := (List.range b.count).filterMap fun k => b.slots ((b.head + k) % n)

/-- The buffer stands for the queue. -/
structure Holds (b : Circular α n) (xs : List α) : Prop where
  head_lt : b.head < n
  count_eq : b.count = xs.length
  count_le : b.count ≤ n
  tail_eq : b.tail = (b.head + b.count) % n
  slot : ∀ k (hk : k < xs.length), b.slots ((b.head + k) % n) = some xs[k]

variable {b b' : Circular α n} {x : α} {xs : List α}

theorem holds_new (hn : 0 < n) : (new : Circular α n).Holds [] :=
  ⟨hn, rfl, Nat.zero_le n, (Nat.zero_mod n).symm, fun _ hk => absurd hk (Nat.not_lt_zero _)⟩

theorem add_mod_ne {h i j : Nat} (hij : i < j) (hj : j < i + n) : (h + i) % n ≠ (h + j) % n := by
  intro heq
  have hdvd : n ∣ (h + j) - (h + i) := Nat.dvd_of_mod_eq_zero (Nat.sub_mod_eq_zero_of_mod_eq heq.symm)
  have hzero : (h + j) - (h + i) = 0 := Nat.eq_zero_of_dvd_of_lt hdvd (by omega)
  omega

theorem filterMap_range_getElem (xs : List α) : (List.range xs.length).filterMap (xs[·]?) = xs := by
  induction xs with
  | nil => rfl
  | cons x xs ih =>
    rw [List.length_cons, List.range_succ_eq_map, List.filterMap_cons, List.filterMap_map]
    simpa [Function.comp_def] using ih

section

variable (h : b.Holds xs)
include h

theorem Holds.contents : b.contents = xs := by
  have hslot : ∀ k ∈ List.range b.count, b.slots ((b.head + k) % n) = xs[k]? := by
    intro k hk
    have hlt : k < xs.length := h.count_eq ▸ List.mem_range.1 hk
    rw [h.slot k hlt, List.getElem?_eq_getElem hlt]
  rw [Circular.contents, List.filterMap_congr hslot, h.count_eq, filterMap_range_getElem]

theorem Holds.push (hp : b.push x = (true, b')) : b'.Holds (xs ++ [x]) := by
  rw [Circular.push] at hp
  split_ifs at hp with hfull
  · simp at hp
  · obtain rfl := (Prod.mk.inj hp).2
    have hlen : (xs ++ [x]).length = xs.length + 1 := by simp
    have hroom : xs.length < n := by
      rw [← h.count_eq]
      omega
    refine ⟨h.head_lt, by rw [hlen, ← h.count_eq], Nat.lt_of_not_ge hfull, ?_, ?_⟩
    · rw [h.tail_eq, Nat.mod_add_mod, Nat.add_assoc]
    · intro k hk
      dsimp only
      rw [h.tail_eq, h.count_eq]
      rcases Nat.lt_or_ge k xs.length with hlt | hge
      · rw [update_of_ne (add_mod_ne hlt (by omega)), h.slot k hlt, List.getElem_append_left hlt]
      · grind

theorem Holds.pop (hp : b.pop = (some x, b')) : ∃ rest, xs = x :: rest ∧ b'.Holds rest := by
  rw [Circular.pop] at hp
  split_ifs at hp with hzero
  · simp at hp
  · obtain ⟨hx, rfl⟩ := Prod.mk.inj hp
    cases xs with
    | nil => exact absurd h.count_eq hzero
    | cons y rest =>
      have hc : b.count = rest.length + 1 := h.count_eq
      have hy : b.slots b.head = some y := by
        simpa [Nat.mod_eq_of_lt h.head_lt] using h.slot 0 (Nat.zero_lt_succ _)
      obtain rfl : y = x := Option.some.inj (hy.symm.trans hx)
      refine ⟨rest, rfl, Nat.mod_lt _ (Nat.zero_lt_of_lt h.head_lt), by simp [hc], ?_, ?_, ?_⟩
      · exact Nat.le_trans (Nat.sub_le _ _) h.count_le
      · rw [h.tail_eq, Nat.mod_add_mod, hc, Nat.add_sub_cancel, Nat.add_assoc, Nat.add_comm 1]
      · intro k hk
        have hle := h.count_le
        dsimp only
        rw [Nat.mod_add_mod, Nat.add_assoc, Nat.add_comm 1]
        have hne : (b.head + (k + 1)) % n ≠ b.head := by
          have := add_mod_ne (h := b.head) (i := 0) (j := k + 1) (n := n) (by omega) (by omega)
          rw [Nat.add_zero, Nat.mod_eq_of_lt h.head_lt] at this
          exact this.symm
        rw [update_of_ne hne, h.slot (k + 1) (by simpa using hk)]
        rfl

theorem Holds.count_eq_zero (hp : b.pop = (none, b')) : b.count = 0 := by
  by_contra hne
  rw [Circular.pop, if_neg hne] at hp
  have hpos : 0 < xs.length := h.count_eq ▸ Nat.pos_of_ne_zero hne
  have hsome := h.slot 0 hpos
  simp_all [Nat.add_zero, Nat.mod_eq_of_lt h.head_lt, (Prod.mk.inj hp).1]

theorem Holds.pop_none (hp : b.pop = (none, b')) : b' = b := by
  simp_all [Circular.pop, h.count_eq_zero hp]

end

theorem count_pop {o : Option α} (hp : b.pop = (o, b')) : b'.count = b.count - 1 := by
  rw [Circular.pop] at hp
  split_ifs at hp with hzero
  · rw [← (Prod.mk.inj hp).2, hzero]
  · rw [← (Prod.mk.inj hp).2]

end Circular

end AstralOS
