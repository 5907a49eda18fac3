import Mathlib.Data.BitVec
import Mathlib.Data.List.ProdSigma

/-!
# Drawing loops

A loop visits places one after the other, and each place changes one cell of a buffer, or none.  What happens to a cell is
decided by the places that lead to it, in their order (`draw_apply`): nothing if there are none (`draw_of_forall_ne`), and
one change if there is one (`draw_of_unique`).  A loop inside a loop is one over pairs (`foldl_product`); the loops over the
rows and columns of a rectangle change its cells (`foldl_rect_apply`).
-/

namespace AstralOS

open List

variable {ι κ β : Type} [DecidableEq κ] {cell : ι → Option κ} {f : ι → β → β} {m : κ → β} {is : List ι} {k : κ}

def dot (cell : ι → Option κ) (f : ι → β → β) (m : κ → β) (i : ι) : κ → β :=
  match cell i with
  | some k => Function.update m k (f i (m k))
  | none => m

def draw (cell : ι → Option κ) (f : ι → β → β) (m : κ → β) (is : List ι) : κ → β := is.foldl (dot cell f) m

theorem dot_apply (i : ι) : dot cell f m i k = if cell i = some k then f i (m k) else m k := by
  unfold dot
  cases hi : cell i with
  | none => simp
  | some l =>
    by_cases hl : l = k
    · subst hl
      simp
    · grind

theorem draw_apply : draw cell f m is k = (is.filter fun i => cell i = some k).foldl (fun b i => f i b) (m k) := by
  induction is generalizing m with
  | nil => rfl
  | cons i is ih =>
    have hrest : draw cell f m (i :: is) = draw cell f (dot cell f m i) is := rfl
    rw [hrest, ih, dot_apply]
    by_cases hi : cell i = some k
    · simp [hi]
    · simp [hi]

theorem draw_of_forall_ne (h : ∀ i ∈ is, cell i ≠ some k) : draw cell f m is k = m k := by
  grind [filter_eq_nil_iff, draw_apply]

theorem draw_of_forall_none (h : ∀ i ∈ is, cell i = none) : draw cell f m is = m := by
  funext k
  refine draw_of_forall_ne fun i hi => ?_
  simp [h i hi]

theorem draw_of_unique [DecidableEq ι] {i : ι} (hn : is.Nodup) (hi : i ∈ is)
    (h : ∀ j ∈ is, cell j = some k ↔ j = i) : draw cell f m is k = f i (m k) := by
  have hone : is.filter (fun j => cell j = some k) = [i] := by
    rw [filter_congr fun j hj => decide_eq_decide.2 (h j hj), filter_eq, hn.count, if_pos hi]
    rfl
  rw [draw_apply, hone]
  rfl

theorem foldl_product {α β γ : Type} (g : γ → α × β → γ) (m : γ) (rows : List α) (cols : List β) :
    (rows ×ˢ cols).foldl g m = rows.foldl (fun m r => cols.foldl (fun m c => g m (r, c)) m) m := by
  induction rows generalizing m with
  | nil => rfl
  | cons r rows ih => rw [product_cons, foldl_append, foldl_map, ih, foldl_cons]

/-! ### Buffers with rows -/

theorem cell_eq_iff {n a b x y : Nat} (hx : x < n) (hy : y < n) : a * n + x = b * n + y ↔ a = b ∧ x = y := by
  constructor
  · intro h
    have hdiv := congrArg (· / n) h
    have hmod := congrArg (· % n) h
    simp only [Nat.mul_comm a n, Nat.mul_comm b n, Nat.mul_add_div (Nat.zero_lt_of_lt hx), Nat.div_eq_of_lt hx,
      Nat.div_eq_of_lt hy, Nat.mul_add_mod, Nat.mod_eq_of_lt hx, Nat.mod_eq_of_lt hy] at hdiv hmod
    exact ⟨hdiv, hmod⟩
  · rintro ⟨rfl, rfl⟩
    rfl

theorem foldl_rect_apply {β : Type} (f : Nat → Nat → β → β) (m : Nat → β) {n left right top bottom x y : Nat}
    (hr : right ≤ n) (hx : x < n) :
    (List.range (bottom - top)).foldl (fun m row =>
        (List.range (right - left)).foldl (fun m col =>
          Function.update m ((top + row) * n + left + col) (f row col (m ((top + row) * n + left + col)))) m) m (y * n + x) =
      if (left ≤ x ∧ x < right) ∧ top ≤ y ∧ y < bottom then f (y - top) (x - left) (m (y * n + x)) else m (y * n + x) := by
  let cell : Nat × Nat → Option Nat := fun i => some ((top + i.1) * n + left + i.2)
  let rect : List (Nat × Nat) := range (bottom - top) ×ˢ range (right - left)
  have hmem : ∀ i : Nat × Nat, i ∈ rect ↔ i.1 < bottom - top ∧ i.2 < right - left := by
    grind [mem_product, mem_range]
  have hcell : ∀ i ∈ rect, cell i = some (y * n + x) ↔ top + i.1 = y ∧ left + i.2 = x := by
    intro i hi
    have hi' := (hmem i).1 hi
    rw [Option.some.injEq, Nat.add_assoc]
    exact cell_eq_iff (by omega) hx
  have hloop : _ = draw cell (fun i => f i.1 i.2) m rect (y * n + x) :=
    congrFun (foldl_product (dot cell fun i => f i.1 i.2) m _ _).symm _
  refine hloop.trans ?_
  by_cases hin : (left ≤ x ∧ x < right) ∧ top ≤ y ∧ y < bottom
  · rw [if_pos hin]
    have hi : (y - top, x - left) ∈ rect := (hmem _).2 (by dsimp only; omega)
    refine draw_of_unique (nodup_range.product nodup_range) hi fun j hj => ?_
    grind
  · rw [if_neg hin]
    refine draw_of_forall_ne fun i hi h => hin ?_
    grind

end AstralOS
