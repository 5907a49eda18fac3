import Mathlib.Data.BitVec
import Mathlib.Algebra.Order.Group.Nat

/-!
# Free lists of blocks

Blocks of an address range, and the two operations of an address-ordered free list: `alloc` takes the first block
that holds an aligned request and gives back what is left behind it, `release` puts a block back and joins it with
the blocks it touches.  Both keep the list `Sorted`: increasing, with a gap between any two blocks.  What happens to the
bytes is said by `covered_alloc` and `covered_release`; `tight_iff` says when an allocation loses none.
-/

namespace AstralOS

open List

/-- A block of `size` bytes at `start`. -/
structure Block where
  start : Nat
  size : Nat
  deriving DecidableEq

namespace Block

def stop (b : Block) : Nat := b.start + b.size

instance : Membership Nat Block := ⟨fun b x => b.start ≤ x ∧ x < b.stop⟩

theorem mem_def {b : Block} {x : Nat} : x ∈ b ↔ b.start ≤ x ∧ x < b.start + b.size := Iff.rfl

def Disjoint (b c : Block) : Prop := ∀ x, x ∈ b → x ∉ c

theorem Disjoint.symm {b c : Block} (h : Disjoint b c) : Disjoint c b := fun x hc hb => h x hb hc

end Block

/-! ### Alignment -/

def roundUp (align x : Nat) : Nat := (x + align - 1) / align * align

/-- The bytes skipped to reach the next multiple of `align`. -/
def padding (align x : Nat) : Nat := roundUp align x - x

section Align

variable {align x a : Nat}

theorem dvd_roundUp : align ∣ roundUp align x := Nat.dvd_mul_left align _

section

variable (h : 0 < align)
include h

theorem le_roundUp : x ≤ roundUp align x := by
  have hm := Nat.div_add_mod (x + align - 1) align
  have hlt := Nat.mod_lt (x + align - 1) h
  unfold roundUp
  rw [Nat.mul_comm]
  omega

theorem roundUp_lt : roundUp align x < x + align := by
  have hm := Nat.div_add_mod (x + align - 1) align
  unfold roundUp
  rw [Nat.mul_comm]
  omega

theorem roundUp_le (ha : align ∣ a) (hx : x ≤ a) : roundUp align x ≤ a := by
  obtain ⟨k, rfl⟩ := ha
  unfold roundUp
  rw [Nat.mul_comm]
  apply Nat.mul_le_mul_left
  apply Nat.le_of_lt_succ
  rw [Nat.div_lt_iff_lt_mul h, Nat.succ_mul, Nat.mul_comm k]
  omega

theorem padding_lt : padding align x < align := by
  have := roundUp_lt (x := x) h
  simp [padding]
  omega

theorem add_padding : x + padding align x = roundUp align x := by
  have := le_roundUp (x := x) h
  unfold padding
  omega

end

end Align

namespace FreeList

/-- A block that holds `size` bytes behind the padding it needs. -/
def Fits (align size : Nat) (b : Block) : Prop := padding align b.start + size ≤ b.size

instance (align size : Nat) (b : Block) : Decidable (Fits align size b) := inferInstanceAs (Decidable (_ ≤ _))

/-- What is left of a block behind the request, kept when it is larger than a header. -/
def rest (align size header : Nat) (b : Block) : List Block :=
  if padding align b.start + size + header < b.size then
    [⟨b.start + (padding align b.start + size), b.size - (padding align b.start + size)⟩]
  else []

/-- Take `size` bytes at a multiple of `align` from the first block that holds them. -/
def alloc (align size header : Nat) : List Block → Option (Nat × List Block)
  | [] => none
  | b :: bs =>
    if Fits align size b then some (roundUp align b.start, rest align size header b ++ bs)
    else (alloc align size header bs).map fun r => (r.1, b :: r.2)

/-- Put a block before a list, joined with the first block of the list if that starts where it ends. -/
def join (b : Block) : List Block → List Block
  | [] => [b]
  | c :: cs => if b.stop = c.start then ⟨b.start, b.size + c.size⟩ :: cs else b :: c :: cs

/-- Put the block `b` between the blocks `pre` and `post`, joined with both neighbours it touches. -/
def release (pre : List Block) (b : Block) (post : List Block) : List Block :=
  match pre.getLast? with
  | none => join b post
  | some p => pre.dropLast ++ join p (join b post)

def Sorted (bs : List Block) : Prop := bs.Pairwise fun b c => b.stop < c.start

def Covered (bs : List Block) (x : Nat) : Prop := ∃ b ∈ bs, x ∈ b

def total (bs : List Block) : Nat := (bs.map Block.size).sum

variable {align size header : Nat} {b : Block} {bs pre post : List Block}

@[simp] theorem covered_nil (x : Nat) : ¬ Covered [] x := by simp [Covered]

@[simp] theorem covered_cons (b : Block) (bs : List Block) (x : Nat) : Covered (b :: bs) x ↔ x ∈ b ∨ Covered bs x := by
  simp [Covered]

@[simp] theorem covered_append (bs cs : List Block) (x : Nat) : Covered (bs ++ cs) x ↔ Covered bs x ∨ Covered cs x := by
  simp [Covered, or_and_right, exists_or]

/-! ### Allocation -/

theorem fits_iff (h : 0 < align) :
    Fits align size b ↔ ∃ a, align ∣ a ∧ b.start ≤ a ∧ a + size ≤ b.stop := by
  have hpad := add_padding (x := b.start) h
  constructor
  · intro hf
    refine ⟨roundUp align b.start, dvd_roundUp, le_roundUp h, ?_⟩
    grind [Fits, Block.stop]
  · intro hex
    obtain ⟨a, ha, hle, hstop⟩ := hex
    have := roundUp_le h ha hle
    grind [Block.stop, Fits]

theorem alloc_cases (align size header : Nat) (bs : List Block) :
    (alloc align size header bs = none ∧ ∀ b ∈ bs, ¬ Fits align size b) ∨
      ∃ pre b post, bs = pre ++ b :: post ∧ (∀ c ∈ pre, ¬ Fits align size c) ∧ Fits align size b ∧
        alloc align size header bs = some (roundUp align b.start, pre ++ (rest align size header b ++ post)) := by
  induction bs with
  | nil => exact Or.inl ⟨rfl, by simp⟩
  | cons b bs ih =>
    unfold alloc
    by_cases hb : Fits align size b
    · exact Or.inr ⟨[], b, bs, rfl, by simp, hb, by simp [hb]⟩
    · rcases ih with ⟨hnone, hno⟩ | ⟨pre, c, post, rfl, hpre, hc, hsome⟩
      · simpa [hnone, hb] using hno
      · grind

theorem mem_rest {c : Block} (h : c ∈ rest align size header b) :
    header < c.size ∧ c.start = b.start + (padding align b.start + size) ∧ c.stop = b.stop := by
  unfold rest at h
  by_cases hlt : padding align b.start + size + header < b.size
  · grind [Block.stop, mem_singleton]
  · rw [if_neg hlt] at h
    cases h

theorem sorted_alloc (h : Sorted (pre ++ b :: post)) : Sorted (pre ++ (rest align size header b ++ post)) := by
  unfold Sorted at h ⊢
  rw [pairwise_append, pairwise_cons] at h
  obtain ⟨hpre, ⟨hb, hpost⟩, hcr⟩ := h
  rw [pairwise_append, pairwise_append]
  refine ⟨hpre, ⟨?_, hpost, ?_⟩, ?_⟩
  · grind [rest]
  · intro c hc d hd
    have := mem_rest hc
    have := hb d hd
    omega
  · intro c hc d hd
    rcases mem_append.1 hd with hd | hd
    · have := mem_rest hd
      have := hcr c hc b (by simp)
      omega
    · exact hcr c hc d (by simp [hd])

theorem lt_start_of_sorted (h : Sorted (pre ++ b :: post)) {x : Nat} (hx : x ∈ b) :
    ¬ Covered pre x ∧ ¬ Covered post x := by
  unfold Sorted at h
  rw [pairwise_append, pairwise_cons] at h
  obtain ⟨-, ⟨hb, -⟩, hcr⟩ := h
  have hx := Block.mem_def.1 hx
  constructor
  · intro hc
    obtain ⟨c, hc, hxc⟩ := hc
    have := hcr c hc b (by simp)
    have := hxc.2
    omega
  · intro hc
    obtain ⟨c, hc, hxc⟩ := hc
    have := hb c hc
    have := hxc.1
    unfold Block.stop at *
    omega

/-- The bytes left free by an allocation were free before and are not part of what was handed out; the bytes handed
out were free. -/
theorem covered_alloc (header : Nat) (h : 0 < align) (hs : Sorted (pre ++ b :: post)) (hf : Fits align size b) (x : Nat) :
    (Covered (pre ++ (rest align size header b ++ post)) x →
      Covered (pre ++ b :: post) x ∧ x ∉ (⟨roundUp align b.start, size⟩ : Block)) ∧
    (x ∈ (⟨roundUp align b.start, size⟩ : Block) → Covered (pre ++ b :: post) x) := by
  have hpad := add_padding (x := b.start) h
  have hin : x ∈ (⟨roundUp align b.start, size⟩ : Block) → x ∈ b := by
    grind [Fits, Block.mem_def]
  constructor
  · intro hc
    rcases (covered_append _ _ _).1 hc with hpre | hc
    · refine ⟨by simp [hpre], fun hx => ?_⟩
      exact (lt_start_of_sorted hs (hin hx)).1 hpre
    · rcases (covered_append _ _ _).1 hc with hrest | hpost
      · obtain ⟨c, hc, hxc⟩ := hrest
        have hmem := mem_rest hc
        have hxc := Block.mem_def.1 hxc
        unfold Block.stop at hmem
        have hxb : x ∈ b := by
          rw [Block.mem_def]
          omega
        refine ⟨by simp [hxb], fun hx => ?_⟩
        have hx := Block.mem_def.1 hx
        dsimp only at hx
        omega
      · refine ⟨by simp [hpost], fun hx => ?_⟩
        exact (lt_start_of_sorted hs (hin hx)).2 hpost
  · intro hx
    simp [hin hx]

/-- The first block that holds the request starts at an aligned address and is used up, or leaves a rest that is kept. -/
def Tight (align size header : Nat) (bs : List Block) : Prop :=
  ∀ b, bs.find? (fun b => decide (Fits align size b)) = some b →
    align ∣ b.start ∧ (b.size = size ∨ size + header < b.size)

theorem tight_of_not_fits (h : ∀ b ∈ bs, ¬ Fits align size b) : Tight align size header bs := by
  intro b hb
  grind

theorem tight_singleton (align size header : Nat) (b : Block) :
    Tight align size header [b] ↔ (Fits align size b → align ∣ b.start ∧ (b.size = size ∨ size + header < b.size)) := by
  unfold Tight
  by_cases hb : Fits align size b
  · simp [hb]
  · simp [hb]

theorem find?_fits (hpre : ∀ c ∈ pre, ¬ Fits align size c) (hf : Fits align size b) :
    (pre ++ b :: post).find? (fun b => decide (Fits align size b)) = some b := by
  grind

theorem padding_eq_zero_iff (h : 0 < align) {x : Nat} : padding align x = 0 ↔ align ∣ x := by
  have hadd := add_padding (x := x) h
  constructor
  · intro h0
    rw [h0, Nat.add_zero] at hadd
    rw [hadd]
    exact dvd_roundUp
  · intro hd
    have := roundUp_le h hd (Nat.le_refl x)
    omega

theorem tight_iff (header : Nat) (h : 0 < align) (hs : Sorted (pre ++ b :: post))
    (hpre : ∀ c ∈ pre, ¬ Fits align size c) (hf : Fits align size b) :
    Tight align size header (pre ++ b :: post) ↔
      ∀ x, Covered (pre ++ b :: post) x →
        x ∈ (⟨roundUp align b.start, size⟩ : Block) ∨ Covered (pre ++ (rest align size header b ++ post)) x := by
  have hpad := add_padding (x := b.start) h
  have hfit := hf
  unfold Fits at hfit
  constructor
  · intro ht x hx
    obtain ⟨hd, hsize⟩ := ht b (find?_fits hpre hf)
    have hzero := (padding_eq_zero_iff h).2 hd
    simp only [covered_append, covered_cons] at hx ⊢
    rcases hx with hx | hx | hx
    · exact Or.inr (Or.inl hx)
    · rw [Block.mem_def] at hx
      by_cases hlt : x < b.start + size
      · exact Or.inl ⟨by dsimp only; omega, by unfold Block.stop; dsimp only; omega⟩
      · -- behind the request: the rest is not empty, so it is large enough to be kept
        refine Or.inr (Or.inr (Or.inl ?_))
        unfold rest
        rw [if_pos (by omega), covered_cons, Block.mem_def]
        dsimp only
        omega
    · exact Or.inr (Or.inr (Or.inr hx))
  · intro hall c hc
    rw [find?_fits hpre hf] at hc
    cases hc
    -- a byte of the block outside what is ha out lies in the kept rest
    have hkept : ∀ x, x ∈ b → (x < roundUp align b.start ∨ roundUp align b.start + size ≤ x) →
        b.start + (padding align b.start + size) ≤ x ∧ padding align b.start + size + header < b.size := by
      intro x hx hout
      rcases hall x (by simp [hx]) with hin | hcov
      · rw [Block.mem_def] at hin
        dsimp only at hin
        omega
      · have hnot := lt_start_of_sorted hs hx
        simp only [covered_append, hnot.1, hnot.2, false_or, or_false] at hcov
        obtain ⟨c, hc, hxc⟩ := hcov
        have hmem := mem_rest hc
        have := hxc.1
        unfold Block.stop at hmem
        omega
    have hzero : padding align b.start = 0 := by
      by_contra hne
      have := hkept b.start (by rw [Block.mem_def]; omega) (Or.inl (by omega))
      omega
    refine ⟨(padding_eq_zero_iff h).1 hzero, ?_⟩
    by_cases heq : b.size = size
    · exact Or.inl heq
    · have := hkept (b.start + size) (by rw [Block.mem_def]; omega) (Or.inr (by omega))
      exact Or.inr (by omega)

/-! ### Release -/

@[simp] theorem join_nil (b : Block) : join b [] = [b] := rfl

theorem join_cons (b c : Block) (cs : List Block) :
    join b (c :: cs) = if b.stop = c.start then ⟨b.start, b.size + c.size⟩ :: cs else b :: c :: cs := rfl

@[simp] theorem release_concat (pre : List Block) (p b : Block) (post : List Block) :
    release (pre ++ [p]) b post = pre ++ join p (join b post) := by
  simp [release, dropLast_concat]

theorem covered_join (b : Block) (bs : List Block) (x : Nat) :
    Covered (join b bs) x ↔ x ∈ b ∨ Covered bs x := by
  cases bs with
  | nil => simp
  | cons c cs =>
    rw [join_cons]
    by_cases hc : b.stop = c.start
    · grind [Block.stop, covered_cons, Block.mem_def]
    · rw [if_neg hc, covered_cons]

theorem covered_release (pre : List Block) (b : Block) (post : List Block) (x : Nat) :
    Covered (release pre b post) x ↔ x ∈ b ∨ Covered (pre ++ post) x := by
  rcases eq_nil_or_concat pre with rfl | ⟨pre, p, rfl⟩
  · exact covered_join b post x
  · rw [concat_eq_append, release_concat]
    simp only [covered_append, covered_join, covered_cons, covered_nil, or_false]
    tauto

theorem mem_join {c : Block} (h : c ∈ join b bs) :
    c ∈ bs ∨ c.start = b.start ∧ b.size ≤ c.size ∧ (c.stop = b.stop ∨ ∃ d ∈ bs, c.stop = d.stop) := by
  cases bs with
  | nil =>
    simp_all
  | cons d ds =>
    rw [join_cons] at h
    by_cases hd : b.stop = d.start
    · rw [if_pos hd] at h
      rcases mem_cons.1 h with rfl | h
      · refine Or.inr ⟨rfl, Nat.le_add_right _ _, Or.inr ⟨d, by simp, ?_⟩⟩
        grind [Block.stop]
      · exact Or.inl (by simp [h])
    · rw [if_neg hd] at h
      rcases mem_cons.1 h with rfl | h
      · exact Or.inr ⟨rfl, Nat.le_refl _, Or.inl rfl⟩
      · exact Or.inl h

theorem join_ne_nil (b : Block) (bs : List Block) : join b bs ≠ [] := by
  cases bs with
  | nil => simp
  | cons c cs =>
    grind [join_cons]

theorem sorted_join (hs : Sorted bs) (h : ∀ c ∈ bs, b.stop ≤ c.start) : Sorted (join b bs) := by
  cases bs with
  | nil => exact pairwise_singleton _ _
  | cons c cs =>
    obtain ⟨hc, hcs⟩ := pairwise_cons.1 hs
    have hbc := h c (by simp)
    rw [join_cons]
    by_cases he : b.stop = c.start
    · rw [if_pos he]
      refine pairwise_cons.2 ⟨fun d hd => ?_, hcs⟩
      grind [Block.stop]
    · rw [if_neg he]
      refine pairwise_cons.2 ⟨fun d hd => ?_, hs⟩
      rcases mem_cons.1 hd with rfl | hd
      · omega
      · grind [Block.stop]

theorem sorted_release (hs : Sorted (pre ++ post)) (hpre : ∀ c ∈ pre, c.stop ≤ b.start)
    (hpost : ∀ c ∈ post, b.stop ≤ c.start) : Sorted (release pre b post) := by
  rcases eq_nil_or_concat pre with rfl | ⟨pre, p, rfl⟩
  · exact sorted_join hs hpost
  · rw [concat_eq_append] at *
    rw [release_concat]
    unfold Sorted at hs
    rw [append_assoc, pairwise_append, singleton_append, pairwise_cons] at hs
    obtain ⟨h1, ⟨h2, h3⟩, h4⟩ := hs
    have hp := hpre p (by simp)
    have hjoin := sorted_join h3 hpost
    refine pairwise_append.2 ⟨h1, sorted_join hjoin ?_, ?_⟩
    · intro c hc
      rcases mem_join hc with hc | hc
      · exact Nat.le_of_lt (h2 c hc)
      · omega
    · intro c hc d hd
      have hcp := h4 c hc p (by simp)
      rcases mem_join hd with hd | hd
      · rcases mem_join hd with hd | hd
        · exact h4 c hc d (by simp [hd])
        · have : p.start ≤ p.stop := Nat.le_add_right _ _
          omega
      · omega

theorem le_size_of_mem_release {n : Nat} (hb : n ≤ b.size) (hs : ∀ c ∈ pre ++ post, n ≤ c.size) {c : Block}
    (hc : c ∈ release pre b post) : n ≤ c.size := by
  rcases eq_nil_or_concat pre with rfl | ⟨pre, p, rfl⟩
  · rcases mem_join hc with hc | hc
    · exact hs c (by simp [hc])
    · omega
  · rw [concat_eq_append] at *
    rw [release_concat] at hc
    have hp := hs p (by simp)
    rcases mem_append.1 hc with hc | hc
    · exact hs c (by simp [hc])
    · rcases mem_join hc with hc | hc
      · rcases mem_join hc with hc | hc
        · exact hs c (by simp [hc])
        · omega
      · omega

theorem start_of_mem_release {c : Block} (hc : c ∈ release pre b post) :
    c.start = b.start ∨ ∃ d ∈ pre ++ post, c.start = d.start := by
  rcases eq_nil_or_concat pre with rfl | ⟨pre, p, rfl⟩
  · rcases mem_join hc with hc | hc
    · exact Or.inr ⟨c, by simp [hc], rfl⟩
    · exact Or.inl hc.1
  · rw [concat_eq_append] at *
    rw [release_concat] at hc
    rcases mem_append.1 hc with hc | hc
    · exact Or.inr ⟨c, by simp [hc], rfl⟩
    · rcases mem_join hc with hc | hc
      · rcases mem_join hc with hc | hc
        · exact Or.inr ⟨c, by simp [hc], rfl⟩
        · exact Or.inl hc.1
      · exact Or.inr ⟨p, by simp, hc.1⟩

/-! ### Sizes -/

theorem Sorted.disjoint (h : Sorted bs) : bs.Pairwise Block.Disjoint := by
  refine List.Pairwise.imp ?_ h
  intro b c hbc x hb hc
  have := hb.2
  have := hc.1
  omega

theorem nodup_bytes (h : bs.Pairwise Block.Disjoint) :
    (bs.flatMap fun b => List.range' b.start b.size).Nodup := by
  rw [nodup_flatMap]
  refine ⟨fun b _ => nodup_range', ?_⟩
  refine List.Pairwise.imp ?_ h
  intro b c hbc x hb hc
  exact hbc x (mem_range'_1.1 hb) (mem_range'_1.1 hc)

theorem total_le {lo hi : Nat} (h : bs.Pairwise Block.Disjoint) (hin : ∀ b ∈ bs, ∀ x ∈ b, lo ≤ x ∧ x < hi) :
    total bs ≤ hi - lo := by
  have hsub : (bs.flatMap fun b => range' b.start b.size) ⊆ range' lo (hi - lo) := by
    intro x hx
    obtain ⟨b, hb, hx⟩ := mem_flatMap.1 hx
    have := hin b hb x (mem_range'_1.1 hx)
    rw [mem_range'_1]
    omega
  have hlen := (nodup_bytes h).length_le_of_subset hsub
  simpa [total, length_flatMap, Function.comp_def] using hlen

theorem length_le_total (h : ∀ b ∈ bs, 0 < b.size) : bs.length ≤ total bs := by
  induction bs with
  | nil => simp
  | cons b bs ih =>
    grind [total, length_cons]

theorem eq_singleton_of_covered {lo hi : Nat} (hlt : lo < hi) (hs : Sorted bs)
    (hin : ∀ b ∈ bs, lo ≤ b.start ∧ 0 < b.size ∧ b.stop ≤ hi) (hcov : ∀ x, lo ≤ x → x < hi → Covered bs x) :
    bs = [⟨lo, hi - lo⟩] := by
  cases bs with
  | nil => exact absurd (hcov lo (Nat.le_refl _) hlt) (covered_nil lo)
  | cons b bs =>
    unfold Sorted at hs
    rw [pairwise_cons] at hs
    obtain ⟨hbs, -⟩ := hs
    have hb := hin b (by simp)
    have hst : b.start = lo := by
      rcases (covered_cons b bs lo).1 (hcov lo (Nat.le_refl _) hlt) with hx | ⟨c, hc, hx⟩
      · have := hx.1
        omega
      · have := hbs c hc
        have := hx.1
        unfold Block.stop at *
        omega
    have hstop : b.stop = hi := by
      by_contra hne
      rcases (covered_cons b bs b.stop).1 (hcov b.stop (by unfold Block.stop; omega) (by omega)) with hx | ⟨c, hc, hx⟩
      · exact absurd hx.2 (Nat.lt_irrefl _)
      · have := hbs c hc
        have := hx.1
        omega
    have hnil : bs = [] := by
      rw [eq_nil_iff_forall_not_mem]
      intro c hc
      have := hbs c hc
      have := hin c (by simp [hc])
      unfold Block.stop at *
      omega
    rw [hnil]
    unfold Block.stop at hstop
    cases b
    simp only [cons.injEq, Block.mk.injEq, and_true] at hst hstop ⊢
    omega

end FreeList

end AstralOS
