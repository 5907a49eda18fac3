import Mathlib.Data.BitVec

/-!
# Objects in a table, with owners and pointers

Objects are in a table under a key, or belong to a party that has made one or taken one out of the table; other parties
may have pointers to them.  `Ownership` says that every object in the table, with an owner or with a pointer to it is
live, and that no object is in two of these places.  Each rule below is one thing a party does; an object may be
dropped by its owner once nobody has a pointer to it (`Ownership.drop`).
-/

open Function

namespace AstralOS

variable {ι κ : Type}

/-- What the table, the owners and the pointers say about the live objects. -/
structure Ownership (table : ι → Option κ) (owns uses : Nat → Option κ) (live : κ → Prop) : Prop where
  tabled : ∀ {key k}, table key = some k → live k
  /-- No object is in the table under two keys. -/
  keys : ∀ {key key' k}, table key = some k → table key' = some k → key = key'
  owned : ∀ {i k}, owns i = some k → live k
  /-- An object that has an owner is not in the table. -/
  apart : ∀ {i k key}, owns i = some k → table key ≠ some k
  /-- No object has two owners. -/
  owner : ∀ {i j k}, owns i = some k → owns j = some k → i = j
  used : ∀ {i k}, uses i = some k → live k

namespace Ownership

variable {table : ι → Option κ} {owns uses uses' : Nat → Option κ} {live live' : κ → Prop} {i : Nat} {k : κ} {key : ι}

theorem mono (h : Ownership table owns uses live) (hlive : ∀ k, live k → live' k)
    (huses : ∀ i k, uses' i = some k → uses i = some k) : Ownership table owns uses' live' where
  tabled := fun hk => hlive _ (h.tabled hk)
  keys := h.keys
  owned := fun hk => hlive _ (h.owned hk)
  apart := h.apart
  owner := h.owner
  used := fun hk => hlive _ (h.used (huses _ _ hk))

theorem find (h : Ownership table owns uses live) (hk : table key = some k) :
    Ownership table owns (update uses i (some k)) live where
  tabled := h.tabled
  keys := h.keys
  owned := h.owned
  apart := h.apart
  owner := h.owner
  used := by
    intro j k' hj
    by_cases hij : j = i
    · subst hij
      rw [update_self] at hj
      exact Option.some.inj hj ▸ h.tabled hk
    · rw [update_of_ne hij] at hj
      exact h.used hj

theorem owns_of_update_none {j : Nat} {k' : κ} (hj : update owns i none j = some k') :
    j ≠ i ∧ owns j = some k' := by
  by_cases hij : j = i
  · subst hij
    simp at hj
  · exact ⟨hij, by rwa [update_of_ne hij] at hj⟩

theorem own (h : Ownership table owns uses live) (hlive : live k) (ht : ∀ key, table key ≠ some k)
    (howns : ∀ j, owns j ≠ some k) : Ownership table (update owns i (some k)) uses live := by
  have hc : ∀ {j k'}, update owns i (some k) j = some k' → (j = i ∧ k = k') ∨ owns j = some k' := by
    intro j k' hj
    by_cases hij : j = i
    · simp_all
    · exact .inr (by rwa [update_of_ne hij] at hj)
  refine ⟨h.tabled, h.keys, ?_, ?_, ?_, h.used⟩
  · intro j k' hj
    rcases hc hj with ⟨-, rfl⟩ | hj
    · exact hlive
    · exact h.owned hj
  · intro j k' key hj
    rcases hc hj with ⟨-, rfl⟩ | hj
    · exact ht key
    · exact h.apart hj
  · intro j j' k' hj hj'
    rcases hc hj with ⟨hi, hk⟩ | hj0 <;> rcases hc hj' with ⟨hi', hk'⟩ | hj1
    · exact hi.trans hi'.symm
    · exact absurd (hk ▸ hj1) (howns j')
    · exact absurd (hk' ▸ hj0) (howns j)
    · exact h.owner hj0 hj1

variable [DecidableEq ι]

theorem take (h : Ownership table owns uses live) (hk : table key = some k) :
    Ownership (update table key none) (update owns i (some k)) uses live := by
  have hc : ∀ {key' k'}, update table key none key' = some k' → key' ≠ key ∧ table key' = some k' := by
    intro key' k' hk'
    by_cases heq : key' = key
    · subst heq
      simp at hk'
    · exact ⟨heq, by rwa [update_of_ne heq] at hk'⟩
  have hout : Ownership (update table key none) owns uses live :=
    ⟨fun hk => h.tabled (hc hk).2, fun hk hk' => h.keys (hc hk).2 (hc hk').2, h.owned,
      fun hi hk => h.apart hi (hc hk).2, h.owner, h.used⟩
  refine hout.own (h.tabled hk) (fun key' hk' => ?_) fun j hj => h.apart hj hk
  exact (hc hk').1 (h.keys (hc hk').2 hk)

theorem insert (h : Ownership table owns uses live) (hi : owns i = some k) :
    Ownership (update table key (some k)) (update owns i none) uses live := by
  have hc : ∀ {key' k'}, update table key (some k) key' = some k' →
      (key' = key ∧ k = k') ∨ table key' = some k' := by
    intro key' k' hk'
    by_cases heq : key' = key
    · simp_all
    · exact .inr (by rwa [update_of_ne heq] at hk')
  refine ⟨?_, ?_, fun hj => h.owned (owns_of_update_none hj).2, ?_, ?_, h.used⟩
  · intro key' k' hk'
    rcases hc hk' with ⟨-, rfl⟩ | hk'
    · exact h.owned hi
    · exact h.tabled hk'
  · intro key1 key2 k' h1 h2
    rcases hc h1 with ⟨hkey, hk⟩ | hk1 <;> rcases hc h2 with ⟨hkey', hk'⟩ | hk2
    · exact hkey.trans hkey'.symm
    · exact absurd (hk ▸ hk2) (h.apart hi)
    · exact absurd (hk' ▸ hk1) (h.apart hi)
    · exact h.keys hk1 hk2
  · intro j k' key' hj hk'
    obtain ⟨hne, hj⟩ := owns_of_update_none hj
    rcases hc hk' with ⟨-, rfl⟩ | hk'
    · exact hne (h.owner hj hi)
    · exact h.apart hj hk'
  · exact fun hj hj' => h.owner (owns_of_update_none hj).2 (owns_of_update_none hj').2

omit [DecidableEq ι] in
theorem drop (h : Ownership table owns uses live) (hi : owns i = some k) (huses : ∀ j, uses j ≠ some k)
    (hlive : ∀ k', k' ≠ k → live k' → live' k') : Ownership table (update owns i none) uses live' where
  tabled := fun hk => hlive _ (fun heq => h.apart hi (heq ▸ hk)) (h.tabled hk)
  keys := h.keys
  owned := by
    intro j k' hj
    obtain ⟨hne, hj⟩ := owns_of_update_none hj
    exact hlive _ (fun heq => hne (h.owner (heq ▸ hj) hi)) (h.owned hj)
  apart := fun hj => h.apart (owns_of_update_none hj).2
  owner := fun hj hj' => h.owner (owns_of_update_none hj).2 (owns_of_update_none hj').2
  used := fun hj => hlive _ (fun heq => huses _ (heq ▸ hj)) (h.used hj)

end Ownership

end AstralOS
