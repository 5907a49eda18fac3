import AstralOS.Lib.Linked

/-!
# A stack of nodes shared by several parties

Nodes are in a linked list or belong to one of several parties.  `SharedStack` says that the links lead through the nodes
of the list, and that no node is in two places.  A party may write the links of its own nodes (`relink`), take the first
node of the list if its link leads to the new head (`pop`), and put one of its nodes in front if its link leads to the old
head (`push`).
-/

open Function

namespace AstralOS

variable {α ι : Type}

/-- The nodes of the list and those of the parties. -/
structure SharedStack (next : α → α) (null head : α) (xs : List α) (mine : ι → List α) : Prop where
  list : Linked next null head xs
  nodup : xs.Nodup
  /-- A node that belongs to a party is not in the list. -/
  apart : ∀ {i x}, x ∈ mine i → x ∉ xs
  /-- A node belongs to one party only. -/
  owner : ∀ {i j x}, x ∈ mine i → x ∈ mine j → i = j
  once : ∀ i, (mine i).Nodup

namespace SharedStack

variable {next next' : α → α} {null head x : α} {xs ys : List α} {mine : ι → List α} {i : ι}

theorem relink (h : SharedStack next null head xs mine) (hsame : ∀ y ∈ xs, next' y = next y) :
    SharedStack next' null head xs mine where
  list := h.list.congr hsame
  nodup := h.nodup
  apart := h.apart
  owner := h.owner
  once := h.once

variable [DecidableEq ι]

theorem mem_update {j : ι} {y : α} (hj : y ∈ update mine i ys j) :
    (j = i ∧ y ∈ ys) ∨ (j ≠ i ∧ y ∈ mine j) := by
  by_cases hij : j = i
  · simp_all [update_self]
  · rw [update_of_ne hij] at hj
    exact Or.inr ⟨hij, hj⟩

theorem change (h : SharedStack next null head xs mine) (hlist : Linked next' null x ys) (hys : ys.Nodup) {zs : List α}
    (hzs : zs.Nodup) (hz : ∀ z ∈ zs, z ∉ ys ∧ ∀ j, z ∈ mine j → j = i) (hy : ∀ y ∈ ys, y ∈ xs ∨ y ∈ mine i) :
    SharedStack next' null x ys (update mine i zs) where
  list := hlist
  nodup := hys
  apart := by
    intro j z hj
    rcases mem_update hj with ⟨-, hz'⟩ | ⟨hne, hz'⟩
    · exact (hz z hz').1
    · intro hmem
      rcases hy z hmem with hxs | hi
      · exact h.apart hz' hxs
      · exact hne (h.owner hz' hi)
  owner := by
    intro j k z hj hk
    rcases mem_update hj with ⟨rfl, hz'⟩ | ⟨hne, hz'⟩
    · rcases mem_update hk with ⟨rfl, -⟩ | ⟨-, hk'⟩
      · rfl
      · exact ((hz z hz').2 k hk').symm
    · rcases mem_update hk with ⟨rfl, hk'⟩ | ⟨-, hk'⟩
      · exact (hz z hk').2 j hz'
      · exact h.owner hz' hk'
  once := by
    intro j
    by_cases hij : j = i
    · subst hij
      rw [update_self]
      exact hzs
    · rw [update_of_ne hij]
      exact h.once j

theorem reorder (h : SharedStack next null head xs mine) (hperm : (mine i).Perm ys) :
    SharedStack next null head xs (update mine i ys) := by
  refine h.change h.list h.nodup (hperm.nodup_iff.1 (h.once i)) ?_ fun y hy => Or.inl hy
  intro z hz
  have hmem : z ∈ mine i := hperm.mem_iff.2 hz
  exact ⟨h.apart hmem, fun j hj => h.owner hj hmem⟩

theorem pop (h : SharedStack next null head (x :: xs) mine) :
    SharedStack next null (next x) xs (update mine i (x :: mine i)) := by
  obtain ⟨-, -, hlist⟩ := h.list
  obtain ⟨hx, hxs⟩ := List.nodup_cons.1 h.nodup
  have hout : ∀ j, x ∉ mine j := fun j hj => h.apart hj (by simp)
  refine h.change hlist hxs (List.nodup_cons.2 ⟨hout i, h.once i⟩) ?_ fun y hy => Or.inl (by simp [hy])
  intro z hz
  rcases List.mem_cons.1 hz with rfl | hz
  · exact ⟨hx, fun j hj => absurd hj (hout j)⟩
  · exact ⟨fun hmem => h.apart hz (by simp [hmem]), fun j hj => h.owner hj hz⟩

theorem push (h : SharedStack next null head xs mine) (hperm : (mine i).Perm (x :: ys)) (hx : x ≠ null)
    (hlink : next x = head) : SharedStack next null x (x :: xs) (update mine i ys) := by
  have hmem : x ∈ mine i := hperm.mem_iff.2 (by simp)
  obtain ⟨hxys, hys⟩ := List.nodup_cons.1 (hperm.nodup_iff.1 (h.once i))
  refine h.change (h.list.push hx hlink fun _ _ => rfl) (List.nodup_cons.2 ⟨h.apart hmem, h.nodup⟩) hys ?_ ?_
  · intro z hz
    have hz' : z ∈ mine i := hperm.mem_iff.2 (by simp [hz])
    refine ⟨?_, fun j hj => h.owner hj hz'⟩
    rw [List.mem_cons]
    rintro (rfl | hin)
    · exact hxys hz
    · exact h.apart hz' hin
  · intro y hy
    rcases List.mem_cons.1 hy with rfl | hy
    · exact Or.inr hmem
    · exact Or.inl hy

end SharedStack

end AstralOS
