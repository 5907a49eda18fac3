import Mathlib.Data.BitVec

/-!
# Singly linked lists

Nodes with a link to the next node, over an arbitrary type of node addresses with one address `null` for the end.
`Linked next null p xs` says that the links lead from `p` through exactly the nodes `xs` to the end.  A list is changed
by writing links: `Linked.push` puts a node in front, `Linked.unlink` takes one out behind its predecessor.  `scan` and
`scanPrev` are the two walks along a list, with a bound on their steps; `Linked.scan` and `Linked.scanPrev` say where
they end on a list shorter than the bound.
-/

namespace AstralOS

variable {α β : Type} {next next' : α → α} {null p x y : α} {xs pre post : List α}

/-- The links lead from `p` through the nodes of the list, none of them `null`, to `null`. -/
def Linked (next : α → α) (null : α) : α → List α → Prop
  | p, [] => p = null
  | p, x :: xs => p = x ∧ x ≠ null ∧ Linked next null (next x) xs

/-- Follow the links from `p` to the first node at which `f` has an answer: `some none` if the end comes first, and
`none` if the bound runs out. -/
def scan [DecidableEq α] (next : α → α) (null : α) (f : α → Option β) : Nat → α → Option (Option (α × β))
  | 0, _ => none
  | n + 1, p =>
    if p = null then some none
    else
      match f p with
      | some b => some (some (p, b))
      | none => scan next null f n (next p)

/-- Follow the links from `p`, which comes behind `prev`, to the node `x`, and answer with the node before it. -/
def scanPrev [DecidableEq α] (next : α → α) (null x : α) : Nat → α → α → Option (Option α)
  | 0, _, _ => none
  | n + 1, prev, p =>
    if p = null then some none else if p = x then some (some prev) else scanPrev next null x n p (next p)

namespace Linked

section

variable (h : Linked next null p xs)
include h

theorem ne_null (hx : x ∈ xs) : x ≠ null := by
  induction xs generalizing p with
  | nil => cases hx
  | cons y ys ih =>
    rcases List.mem_cons.1 hx with rfl | hx
    · exact h.2.1
    · exact ih h.2.2 hx

theorem congr (hsame : ∀ x ∈ xs, next' x = next x) : Linked next' null p xs := by
  induction xs generalizing p with
  | nil => exact h
  | cons y ys ih =>
    obtain ⟨hp, hy, hys⟩ := h
    refine ⟨hp, hy, ?_⟩
    grind

theorem push (hx : x ≠ null) (hlink : next' x = p) (hsame : ∀ y ∈ xs, next' y = next y) :
    Linked next' null x (x :: xs) := by
  refine ⟨rfl, hx, ?_⟩
  rw [hlink]
  exact h.congr hsame

end

theorem unlink (h : Linked next null p (pre ++ y :: x :: post)) (hlink : next' y = next x)
    (hsame : ∀ z ∈ pre ++ post, next' z = next z) : Linked next' null p (pre ++ y :: post) := by
  induction pre generalizing p with
  | nil =>
    obtain ⟨hp, hy, -, -, hpost⟩ := h
    refine ⟨hp, hy, ?_⟩
    rw [hlink]
    exact hpost.congr fun z hz => hsame z (by simpa using hz)
  | cons z zs ih =>
    obtain ⟨hp, hz, hzs⟩ := h
    refine ⟨hp, hz, ?_⟩
    simp_all [List.cons_append, List.mem_cons]

section Walks

variable [DecidableEq α]

theorem scan (h : Linked next null p xs) (f : α → Option β) {n : Nat} (hn : xs.length < n) :
    AstralOS.scan next null f n p = some (xs.findSome? fun x => (f x).map fun b => (x, b)) := by
  induction xs generalizing p n with
  | nil =>
    obtain rfl : p = null := h
    cases n with
    | zero => omega
    | succ n => simp [AstralOS.scan]
  | cons x xs ih =>
    obtain ⟨rfl, hx, hxs⟩ := h
    cases n with
    | zero => omega
    | succ n =>
      grind [AstralOS.scan]

theorem scanPrev (prev : α) (h : Linked next null p (pre ++ x :: post)) (hx : x ∉ pre) {n : Nat}
    (hn : (pre ++ x :: post).length < n) :
    AstralOS.scanPrev next null x n prev p = some (some (pre.getLast?.getD prev)) := by
  induction pre generalizing p prev n with
  | nil =>
    obtain ⟨rfl, hne, -⟩ := h
    cases n with
    | zero => omega
    | succ n => simp [AstralOS.scanPrev, hne]
  | cons z zs ih =>
    obtain ⟨rfl, hne, hzs⟩ := h
    cases n with
    | zero => omega
    | succ n =>
      have hpx : p ≠ x := fun he => hx (by simp [he])
      rw [AstralOS.scanPrev, if_neg hne, if_neg hpx, ih p hzs (fun hm => hx (by simp [hm])) (by simpa using hn),
        List.getLast?_cons]
      rfl

end Walks

end Linked

end AstralOS
