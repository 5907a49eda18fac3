import Mathlib.Data.BitVec

/-!
# Write-back caches

A cache of lines in front of a store.  A line holds the data of one key; a dirty line is newer than the store.
`Represents` relates the lines and the store to the contents that they stand for together.  The rules below are what a
cache does to its lines: it overwrites one (`Represents.write`), writes one back (`Represents.clean`) and gives the
place of a line that is not dirty to another key (`Represents.replace`), or of any line after writing it back
(`Represents.evict`) or, losing what it held, without (`Represents.discard`).  When no line is dirty the store is the contents
(`Represents.store_eq`).
-/

open Function

namespace AstralOS

structure Line (κ ν : Type) where
  key : κ
  data : ν
  dirty : Bool
  valid : Bool

variable {ι κ ν : Type}

/-- The lines and the store stand for the contents. -/
structure Represents (lines : ι → Line κ ν) (store content : κ → ν) : Prop where
  /-- No two lines are for the same key. -/
  distinct : ∀ {i j}, (lines i).valid → (lines j).valid → (lines i).key = (lines j).key → i = j
  cached : ∀ {i}, (lines i).valid → (lines i).data = content (lines i).key
  missed : ∀ {k}, (∀ i, (lines i).valid → (lines i).key ≠ k) → store k = content k
  /-- The store has what is in the lines that are not dirty. -/
  cleaned : ∀ {i}, (lines i).valid → (lines i).dirty = false → store (lines i).key = content (lines i).key

namespace Represents

variable {lines : ι → Line κ ν} {store content : κ → ν} {i : ι} {k : κ} {v : ν}

theorem of_invalid (h : ∀ i, (lines i).valid = false) (store : κ → ν) : Represents lines store store where
  distinct := fun hi => by simp [h] at hi
  cached := fun hi => by simp [h] at hi
  missed := fun _ => rfl
  cleaned := fun hi => by simp [h] at hi

theorem store_eq (h : Represents lines store content) (hc : ∀ i, (lines i).valid → (lines i).dirty = false) :
    store = content := by
  funext k
  by_cases hk : ∃ i, (lines i).valid ∧ (lines i).key = k
  · obtain ⟨i, hv, rfl⟩ := hk
    exact h.cleaned hv (hc i hv)
  · exact h.missed fun i hv hkey => hk ⟨i, hv, hkey⟩

variable [DecidableEq ι] [DecidableEq κ]

omit [DecidableEq κ] in
theorem apply_update_of_eq {α : Type} (f : Line κ ν → α) {line : Line κ ν} (h : f line = f (lines i)) (j : ι) :
    f (update lines i line j) = f (lines j) := by
  by_cases hj : j = i
  · subst hj
    rw [update_self, h]
  · rw [update_of_ne hj]

section

variable (h : Represents lines store content)
include h

theorem write (hv : (lines i).valid) :
    Represents (update lines i { lines i with data := v, dirty := true }) store
      (update content (lines i).key v) := by
  -- the keys and which lines are in use stay
  have hkey : ∀ j, (update lines i { lines i with data := v, dirty := true } j).key = (lines j).key :=
    apply_update_of_eq Line.key rfl
  have huse : ∀ j, (update lines i { lines i with data := v, dirty := true } j).valid = (lines j).valid :=
    apply_update_of_eq Line.valid rfl
  refine ⟨?_, ?_, ?_, ?_⟩
  · intro j j' hj hj' heq
    rw [huse] at hj hj'
    rw [hkey, hkey] at heq
    exact h.distinct hj hj' heq
  · intro j hj
    rw [huse] at hj
    by_cases hji : j = i
    · subst hji
      simp
    · have hne : (lines j).key ≠ (lines i).key := fun heq => hji (h.distinct hj hv heq)
      simp [hji, hne, h.cached hj]
  · intro k hmiss
    have hne : k ≠ (lines i).key := by
      intro heq
      exact hmiss i (by rwa [huse]) (by rw [hkey, heq])
    rw [update_of_ne hne]
    exact h.missed fun j hj => hkey j ▸ hmiss j (by rwa [huse])
  · intro j hj hc
    rw [huse] at hj
    rw [hkey]
    by_cases hji : j = i
    · subst hji
      simp at hc
    · have hne : (lines j).key ≠ (lines i).key := fun heq => hji (h.distinct hj hv heq)
      rw [update_of_ne hne]
      exact h.cleaned hj (by simpa [hji] using hc)

theorem clean (hv : (lines i).valid) :
    Represents (update lines i { lines i with dirty := false })
      (update store (lines i).key (lines i).data) content := by
  have hkey : ∀ j, (update lines i { lines i with dirty := false } j).key = (lines j).key :=
    apply_update_of_eq Line.key rfl
  have huse : ∀ j, (update lines i { lines i with dirty := false } j).valid = (lines j).valid :=
    apply_update_of_eq Line.valid rfl
  have hs : ∀ k, store k = content k →
      update store (lines i).key (lines i).data k = content k := by
    intro k hk
    by_cases heq : k = (lines i).key
    · subst heq
      rw [update_self, h.cached hv]
    · rwa [update_of_ne heq]
  refine ⟨?_, ?_, ?_, ?_⟩
  · intro j j' hj hj' heq
    rw [huse] at hj hj'
    rw [hkey, hkey] at heq
    exact h.distinct hj hj' heq
  · intro j hj
    rw [huse] at hj
    by_cases hji : j = i
    · subst hji
      simp [h.cached hj]
    · simp [hji, h.cached hj]
  · exact fun hmiss => hs _ (h.missed fun j hj => hkey j ▸ hmiss j (by rwa [huse]))
  · intro j hj hc
    rw [huse] at hj
    rw [hkey]
    by_cases hji : j = i
    · subst hji
      rw [update_self, h.cached hj]
    · exact hs _ (h.cleaned hj (by simpa [hji] using hc))

theorem replace (hc : (lines i).valid → (lines i).dirty = false)
    (hmiss : ∀ j, (lines j).valid → (lines j).key ≠ k) {dirty : Bool} (hdata : dirty = false → v = store k) :
    Represents (update lines i ⟨k, v, dirty, true⟩) store (update content k v) := by
  have ho : ∀ j, j ≠ i → update lines i ⟨k, v, dirty, true⟩ j = lines j := fun j hj =>
    update_of_ne hj _ _
  have hself : update lines i ⟨k, v, dirty, true⟩ i = ⟨k, v, dirty, true⟩ := update_self _ _ _
  refine ⟨?_, ?_, ?_, ?_⟩
  · intro j j' hj hj' heq
    by_cases hji : j = i <;> by_cases hji' : j' = i
    · rw [hji, hji']
    · grind
    · simp_all
    · rw [ho j hji, ho j' hji'] at heq
      rw [ho j hji] at hj
      rw [ho j' hji'] at hj'
      exact h.distinct hj hj' heq
  · intro j hj
    by_cases hji : j = i
    · subst hji
      simp
    · rw [ho j hji] at hj ⊢
      rw [update_of_ne (hmiss j hj), h.cached hj]
  · intro k' hmiss'
    have hne : k' ≠ k := by
      grind
    rw [update_of_ne hne]
    -- the line that is gone was not dirty
    by_cases hold : (lines i).valid ∧ (lines i).key = k'
    · obtain ⟨hv, rfl⟩ := hold
      exact h.cleaned hv (hc hv)
    · refine h.missed fun j hj hkey => ?_
      by_cases hji : j = i
      · exact hold ⟨hji ▸ hj, hji ▸ hkey⟩
      · exact hmiss' j (by rwa [ho j hji]) (by rwa [ho j hji])
  · intro j hj hd
    by_cases hji : j = i
    · simp_all [update_self]
    · rw [ho j hji] at hj hd ⊢
      rw [update_of_ne (hmiss j hj)]
      exact h.cleaned hj hd

end

omit [DecidableEq κ] in
theorem missed_update {line : Line κ ν} (hkey : line.key = (lines i).key) (huse : line.valid = (lines i).valid)
    (hmiss : ∀ j, (lines j).valid → (lines j).key ≠ k) (j : ι) (hj : (update lines i line j).valid) :
    (update lines i line j).key ≠ k := by
  simp_all [apply_update_of_eq Line.key hkey j, apply_update_of_eq Line.valid huse j]

section

variable (h : Represents lines store content)
include h

theorem evict (i : ι) (hmiss : ∀ j, (lines j).valid → (lines j).key ≠ k)
    {dirty : Bool} (hdata : dirty = false → v = store k) :
    Represents (update lines i ⟨k, v, dirty, true⟩)
      (if (lines i).dirty ∧ (lines i).valid then update store (lines i).key (lines i).data else store)
      (update content k v) := by
  split
  case isTrue hback =>
    have hdata' : dirty = false → v = update store (lines i).key (lines i).data k := by
      intro hd
      rw [update_of_ne (hmiss i hback.2).symm]
      exact hdata hd
    have hr := (h.clean hback.2).replace (i := i) (by simp) (missed_update rfl rfl hmiss) hdata'
    rwa [update_idem] at hr
  case isFalse hback =>
    refine h.replace (fun hv => ?_) hmiss hdata
    simp_all

theorem forget (hv : (lines i).valid) :
    Represents (update lines i { lines i with data := store (lines i).key, dirty := false }) store
      (update content (lines i).key (store (lines i).key)) := by
  have hw := h.write (v := store (lines i).key) hv
  have hc := hw.clean (i := i) (by simpa using hv)
  simpa using hc

theorem discard (hv : (lines i).valid)
    (hmiss : ∀ j, (lines j).valid → (lines j).key ≠ k) {dirty : Bool} (hdata : dirty = false → v = store k) :
    Represents (update lines i ⟨k, v, dirty, true⟩) store
      (update (update content (lines i).key (store (lines i).key)) k v) := by
  have hr := (h.forget hv).replace (i := i) (by simp) (missed_update rfl rfl hmiss) hdata
  rwa [update_idem] at hr

end

end Represents

end AstralOS
