import Mathlib.Data.BitVec

/-!
# Families of lists in which everything occurs at most once

`Once f` says that no element occurs twice in the lists `f k` taken together.  It is kept when the lists shrink, and
when an element is appended to one list that is in no other.
-/

open Function

namespace AstralOS

variable {K α : Type} {f g : K → List α}

/-- Two occurrences of an element are the same occurrence. -/
def Once (f : K → List α) : Prop :=
  ∀ ⦃k k' : K⦄ ⦃n n' : Nat⦄ ⦃a : α⦄, (f k)[n]? = some a → (f k')[n']? = some a → k = k' ∧ n = n'

theorem once_iff : Once f ↔ (∀ k, (f k).Nodup) ∧ ∀ ⦃k k' a⦄, a ∈ f k → a ∈ f k' → k = k' := by
  constructor
  · intro h
    refine ⟨fun k => ?_, fun k k' a ha ha' => ?_⟩
    · rw [List.nodup_iff_getElem?_ne_getElem?]
      intro i j hij hj heq
      obtain ⟨a, ha⟩ : ∃ a, (f k)[j]? = some a := ⟨_, List.getElem?_eq_getElem hj⟩
      have := (h (heq.trans ha) ha).2
      omega
    · obtain ⟨n, hn⟩ := List.mem_iff_getElem?.1 ha
      obtain ⟨n', hn'⟩ := List.mem_iff_getElem?.1 ha'
      exact (h hn hn').1
  · rintro ⟨hno, hdisj⟩ k k' n n' a hn hn'
    obtain rfl := hdisj (List.mem_of_getElem? hn) (List.mem_of_getElem? hn')
    refine ⟨rfl, ?_⟩
    obtain ⟨hlt, -⟩ := List.getElem?_eq_some_iff.1 hn
    exact (List.getElem?_inj hlt (hno k)).1 (hn.trans hn'.symm)

theorem Once.eq (h : Once f) {k k' : K} {a : α} (ha : a ∈ f k) (ha' : a ∈ f k') : k = k' := (once_iff.1 h).2 ha ha'

theorem Once.of_sublist (h : Once f) (hs : ∀ k, (g k).Sublist (f k)) : Once g := by
  obtain ⟨hn, hdisj⟩ := once_iff.1 h
  refine once_iff.2 ⟨fun k => (hn k).sublist (hs k), fun k k' a ha ha' => ?_⟩
  exact hdisj ((hs k).subset ha) ((hs k').subset ha')

theorem Once.push [DecidableEq K] [DecidableEq α] (h : Once f) {k : K} {a : α} (ha : ∀ k', a ∈ f k' → k' = k) :
    Once (update f k (if a ∈ f k then f k else f k ++ [a])) := by
  by_cases hmem : a ∈ f k
  · rwa [if_pos hmem, update_eq_self]
  rw [if_neg hmem]
  obtain ⟨hn, hdisj⟩ := once_iff.1 h
  have hmem_iff : ∀ k' b, b ∈ update f k (f k ++ [a]) k' ↔ b ∈ f k' ∨ k' = k ∧ b = a := by
    intro k' b
    by_cases hk : k' = k
    · subst hk
      simp
    · simp [hk]
  have hnew : ∀ k', a ∉ f k' := fun k' hk' => hmem (ha k' hk' ▸ hk')
  refine once_iff.2 ⟨fun k' => ?_, fun k1 k2 b h1 h2 => ?_⟩
  · by_cases hk : k' = k
    · grind
    · grind
  · rcases (hmem_iff k1 b).1 h1 with hold1 | ⟨hk1, hb1⟩ <;> rcases (hmem_iff k2 b).1 h2 with hold2 | ⟨hk2, hb2⟩
    · exact hdisj hold1 hold2
    · exact absurd (hb2 ▸ hold1) (hnew k1)
    · exact absurd (hb1 ▸ hold2) (hnew k2)
    · exact hk1.trans hk2.symm

end AstralOS
