import Mathlib.Data.BitVec

/-!
# Components behind a separator

`joined sep cs` writes a separator before every component, as in `/usr/lib`, and `pieces sep` reads the non-empty
components back (`pieces_joined`).  A joined list followed by a separator begins another one exactly if its
components properly begin the other's (`joined_snoc_prefix_iff`), so prefixes of texts at a separator are prefixes
of lists of components.
-/

namespace AstralOS

open List

variable {α : Type} {sep : α}

def joined (sep : α) (cs : List (List α)) : List α := cs.flatMap (sep :: ·)

def pieces [DecidableEq α] (sep : α) (s : List α) : List (List α) := (s.splitOn sep).filter (· ≠ [])

@[simp] theorem joined_nil : joined sep [] = [] := rfl

@[simp] theorem joined_cons (c : List α) (cs : List (List α)) : joined sep (c :: cs) = sep :: (c ++ joined sep cs) := by
  simp [joined]

@[simp] theorem joined_append (cs ds : List (List α)) : joined sep (cs ++ ds) = joined sep cs ++ joined sep ds := by
  simp [joined]

theorem joined_eq_nil_or (sep : α) (cs : List (List α)) : joined sep cs = [] ∨ ∃ t, joined sep cs = sep :: t := by
  cases cs with
  | nil => exact Or.inl rfl
  | cons c cs => exact Or.inr ⟨_, joined_cons c cs⟩

theorem length_joined_lt {cs ds : List (List α)} (h : cs <+: ds) (hlt : cs.length < ds.length) :
    (joined sep cs).length < (joined sep ds).length := by
  obtain ⟨rest, rfl⟩ := h
  cases rest with
  | nil => simp at hlt
  | cons c rest => simp

/-! ### Reading the pieces -/

section Pieces

variable [DecidableEq α]

theorem notMem_of_mem_splitOn {s c : List α} (h : c ∈ s.splitOn sep) : sep ∉ c := by
  induction s generalizing c with
  | nil =>
    have hc : c = [] := by simpa [splitOn] using h
    simp [hc]
  | cons x s ih =>
    rw [splitOn, splitOnP_cons_eq_if_modifyHead] at h
    split_ifs at h with hx
    · rcases mem_cons.1 h with rfl | h
      · simp
      · exact ih h
    · obtain ⟨d, ds, hd⟩ := exists_cons_of_ne_nil (splitOnP_ne_nil (· == sep) s)
      rw [hd, modifyHead_cons] at h
      rcases mem_cons.1 h with rfl | h
      · have hd' : sep ∉ d := ih (show d ∈ splitOnP _ s by simp [hd])
        intro hmem
        rcases mem_cons.1 hmem with hmem | hmem
        · exact hx (by simp [hmem])
        · exact hd' hmem
      · exact ih (show c ∈ splitOnP _ s by simp [hd, h])

theorem splitOn_joined {c : List α} {cs : List (List α)} (hc : sep ∉ c) (hcs : ∀ d ∈ cs, sep ∉ d) :
    (c ++ joined sep cs).splitOn sep = c :: cs := by
  induction cs generalizing c with
  | nil =>
    have hne : ∀ x ∈ c, (x == sep) = false := by
      grind
    simpa [splitOn] using splitOnP_eq_singleton hne
  | cons d ds ih =>
    have hne : ∀ x ∈ c, (x == sep) = false := by
      grind
    rw [joined_cons, splitOn, splitOnP_append_cons_of_forall_mem hne sep (by simp)]
    grind [splitOn]

theorem pieces_joined {cs : List (List α)} (hcs : ∀ c ∈ cs, c ≠ [] ∧ sep ∉ c) : pieces sep (joined sep cs) = cs := by
  have hs : (joined sep cs).splitOn sep = [] :: cs := by
    simpa using splitOn_joined (c := []) (by simp) fun d hd => (hcs d hd).2
  simp_all [pieces]

end Pieces

/-! ### Beginnings -/

theorem append_prefix_append {m n s t : List α} (hm : sep ∉ m) (hn : sep ∉ n) (ht : t = [] ∨ ∃ t', t = sep :: t')
    (h : m ++ sep :: s <+: n ++ t) : m = n ∧ sep :: s <+: t := by
  induction m generalizing n with
  | nil =>
    cases n with
    | nil => exact ⟨rfl, h⟩
    | cons y n =>
      grind
  | cons x m ih =>
    cases n with
    | nil =>
      rcases ht with rfl | ⟨t', rfl⟩
      · simp at h
      · grind
    | cons y n =>
      grind

theorem joined_snoc_prefix_iff {ms ns : List (List α)} (hms : ∀ c ∈ ms, sep ∉ c) (hns : ∀ c ∈ ns, sep ∉ c) :
    joined sep ms ++ [sep] <+: joined sep ns ↔ ms <+: ns ∧ ms.length < ns.length := by
  induction ms generalizing ns with
  | nil =>
    cases ns with
    | nil => simp
    | cons n ns => simp
  | cons m ms ih =>
    cases ns with
    | nil => simp
    | cons n ns =>
      have hns' : ∀ c ∈ ns, sep ∉ c := fun c hc => hns c (by simp [hc])
      have ih := ih (fun c hc => hms c (by simp [hc])) hns'
      simp only [joined_cons, cons_append, append_assoc, cons_prefix_cons, true_and, length_cons,
        Nat.add_lt_add_iff_right]
      rw [and_assoc, ← ih]
      obtain ⟨s, hs⟩ : ∃ s, joined sep ms ++ [sep] = sep :: s := by
        rcases joined_eq_nil_or sep ms with h | ⟨t, h⟩ <;> simp [h]
      constructor
      · intro h
        rw [hs] at h ⊢
        exact append_prefix_append (hms m (by simp)) (hns n (by simp)) (joined_eq_nil_or sep ns) h
      · simp_all

end AstralOS
