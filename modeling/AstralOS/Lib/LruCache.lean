import Mathlib.Data.BitVec

/-!
# Caches that evict the least recently used entry

A cache keeps a map and the list of its keys, the most recently used last.  A cache agrees with a function if each
of its entries is a value of the function.  Touching a key, inserting a value of the function and eviction keep the
agreement, so a lookup through the cache is a lookup in the function.  Its keys are the last ones used, in the order
of their last use (`Recent`).
-/

namespace AstralOS

variable {κ ν : Type} [DecidableEq κ]

structure LruCache (κ ν : Type) where
  entries : κ → Option ν
  /-- The keys, the most recently used one last. -/
  order : List κ

namespace LruCache

def empty : LruCache κ ν := ⟨fun _ => none, []⟩

def get (c : LruCache κ ν) (k : κ) : Option ν := c.entries k

def touch (c : LruCache κ ν) (k : κ) : LruCache κ ν := { c with order := c.order.erase k ++ [k] }

def remove (entries : κ → Option ν) (k : κ) : κ → Option ν := fun j => if j = k then none else entries j

def evict (capacity : Nat) : (κ → Option ν) → List κ → LruCache κ ν
  | entries, [] => ⟨entries, []⟩
  | entries, oldest :: rest =>
    if (oldest :: rest).length ≥ capacity then evict capacity (remove entries oldest) rest
    else ⟨entries, oldest :: rest⟩

def insert (capacity : Nat) (k : κ) (v : ν) (c : LruCache κ ν) : LruCache κ ν :=
  let evicted := evict capacity c.entries c.order
  ⟨fun j => if j = k then some v else evicted.entries j, evicted.order ++ [k]⟩

def Agrees (c : LruCache κ ν) (f : κ → Option ν) : Prop := ∀ k v, c.get k = some v → f k = some v

variable {c : LruCache κ ν} {f : κ → Option ν} {k : κ} {v : ν} {capacity : Nat}

omit [DecidableEq κ] in
theorem agrees_empty : (empty : LruCache κ ν).Agrees f := by
  intro k v h
  simp [empty, get] at h

theorem Agrees.touch (h : c.Agrees f) : (c.touch k).Agrees f := h

theorem get_of_evict {entries : κ → Option ν} {order : List κ} (h : (evict capacity entries order).get k = some v) :
    entries k = some v := by
  induction order generalizing entries with
  | nil => exact h
  | cons oldest rest ih =>
    rw [evict] at h
    split_ifs at h
    · grind [remove]
    · exact h

theorem get_insert_cases {j : κ} {w : ν} (h : (c.insert capacity k v).get j = some w) :
    j = k ∧ w = v ∨ c.get j = some w := by
  simp only [get, LruCache.insert] at h
  split_ifs at h with hjk
  · exact Or.inl ⟨hjk, (Option.some.inj h).symm⟩
  · exact Or.inr (get_of_evict h)

theorem Agrees.insert (h : c.Agrees f) (hv : f k = some v) : (c.insert capacity k v).Agrees f := by
  intro j w hj
  rcases get_insert_cases hj with ⟨rfl, rfl⟩ | hold
  · exact hv
  · exact h j w hold

/-! ### The order of use -/

/-- The cache after the uses of its keys in `used`: `dedup` keeps the last occurrence of each. -/
structure Recent (capacity : Nat) (used : List κ) (c : LruCache κ ν) : Prop where
  keys : ∀ k, (c.get k).isSome ↔ k ∈ c.order
  length_le : c.order.length ≤ capacity
  ordered : c.order <:+ used.dedup

theorem dedup_append_singleton (used : List κ) (k : κ) : (used ++ [k]).dedup = used.dedup.erase k ++ [k] := by
  induction used with
  | nil => simp
  | cons j used ih =>
    by_cases hj : j ∈ used
    · rw [List.cons_append, List.dedup_cons_of_mem (by simp [hj]), ih, List.dedup_cons_of_mem hj]
    · rw [List.dedup_cons_of_notMem hj, List.cons_append]
      by_cases hjk : j = k
      · subst hjk
        rw [List.dedup_cons_of_mem (by simp), ih, List.erase_cons_head, List.erase_of_not_mem (by simpa using hj)]
      · rw [List.dedup_cons_of_notMem (by simp [hj, hjk]), ih, List.erase_cons_tail (by simpa using hjk),
          List.cons_append]

variable {used : List κ}

theorem recent_empty : (empty : LruCache κ ν).Recent capacity [] := ⟨by simp [empty, get], by simp [empty], by simp [empty]⟩

theorem Recent.touch (h : c.Recent capacity used) (hk : k ∈ c.order) : (c.touch k).Recent capacity (used ++ [k]) := by
  obtain ⟨older, hd⟩ := h.ordered
  have hnd := hd ▸ used.nodup_dedup
  refine ⟨fun j => ?_, ?_, ?_⟩
  · have hj : (c.touch k).get j = c.get j := rfl
    rw [hj, h.keys, LruCache.touch, List.mem_append, List.mem_singleton,
      (List.nodup_append.1 hnd).2.1.mem_erase_iff]
    by_cases hjk : j = k <;> simp [hjk, hk]
  · have := h.length_le
    have := List.length_pos_of_mem hk
    simp only [LruCache.touch, List.length_append, List.length_erase_of_mem hk, List.length_singleton]
    omega
  · refine ⟨older, ?_⟩
    rw [dedup_append_singleton, ← hd, List.erase_append_right _ fun ho => (List.nodup_append.1 hnd).2.2 _ ho _ hk rfl,
      List.append_assoc, LruCache.touch]

theorem evict_of_length_lt {entries : κ → Option ν} {order : List κ} (h : order.length < capacity) :
    evict capacity entries order = ⟨entries, order⟩ := by
  cases order with
  | nil => rfl
  | cons oldest rest => rw [evict, if_neg (Nat.not_le.2 h)]

theorem evict_of_length_eq {entries : κ → Option ν} {oldest : κ} {rest : List κ} (h : (oldest :: rest).length = capacity) :
    evict capacity entries (oldest :: rest) = ⟨remove entries oldest, rest⟩ := by
  rw [evict, if_pos (Nat.le_of_eq h.symm), evict_of_length_lt (h ▸ Nat.lt_succ_self _)]

/-- Insertion into a full cache removes the key used longest ago. -/
theorem isSome_get_insert_full {oldest : κ} {rest : List κ} (ho : c.order = oldest :: rest)
    (hf : c.order.length = capacity) (j : κ) :
    ((c.insert capacity k v).get j).isSome ↔ j = k ∨ j ≠ oldest ∧ (c.get j).isSome := by
  rw [ho] at hf
  rw [LruCache.insert, ho, evict_of_length_eq hf]
  by_cases hk : j = k <;> by_cases hj : j = oldest <;> simp [get, remove, hk, hj]

theorem Recent.insert (h : c.Recent capacity used) (hk : k ∉ c.order) (hpos : 0 < capacity) :
    (c.insert capacity k v).Recent capacity (used ++ [k]) := by
  obtain ⟨older, hd⟩ := h.ordered
  have hnd := (List.nodup_append.1 (hd ▸ used.nodup_dedup)).2.1
  have hs : c.order ++ [k] <:+ (used ++ [k]).dedup := by
    rw [dedup_append_singleton, ← hd, List.erase_append]
    split_ifs
    · exact ⟨older.erase k, by simp⟩
    · exact ⟨older, by simp [List.erase_of_not_mem hk]⟩
  rcases Nat.lt_or_eq_of_le h.length_le with hlt | heq
  · have he : c.insert capacity k v = ⟨fun j => if j = k then some v else c.get j, c.order ++ [k]⟩ := by
      rw [LruCache.insert, evict_of_length_lt hlt]
      rfl
    rw [he]
    refine ⟨fun j => ?_, by rw [List.length_append]; exact hlt, hs⟩
    by_cases hj : j = k
    · simp [get, hj]
    · simpa [get, hj] using h.keys j
  · obtain ⟨oldest, rest, ho⟩ := List.exists_cons_of_length_pos (heq ▸ hpos)
    have he : (c.insert capacity k v).order = rest ++ [k] := by
      rw [LruCache.insert, ho, evict_of_length_eq (ho ▸ heq)]
    rw [ho] at hs hnd heq
    refine ⟨fun j => ?_, by rw [he, List.length_append]; exact Nat.le_of_eq heq, he ▸ (List.suffix_cons oldest _).trans hs⟩
    rw [isSome_get_insert_full ho (ho ▸ heq), h.keys, he, ho, List.mem_cons, List.mem_append, List.mem_singleton, or_comm]
    by_cases hj : j = oldest
    · simp [hj, (List.nodup_cons.1 hnd).1]
    · simp [hj]

end LruCache

end AstralOS
