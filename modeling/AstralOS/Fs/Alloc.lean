import AstralOS.Fs.Blocks

/-!
# The allocation loop of `fs_write`

`allocateBlocks` asks for the whole rest as one run and falls back to a single block.  Marking block `b` sets the
bit of block `b + 128`, so `b` itself stays the lowest free block: once the loop has fallen back to a single block
it hands out the same block again until the rest fits or the four extent slots are used up.  An `Outcome` is one of
the ways the loop can end; `allocateBlocks_spec` says that it ends in one of them, and with which blocks and counts.
-/

namespace AstralOS.Fs

/-- How the allocation of `k` blocks ends. -/
inductive Outcome where
  /-- No data block is free. -/
  | full
  /-- One run of `k` blocks, from `r` on. -/
  | run (r : Nat)
  /-- Block `b` given out `j` times, then a run of `k - j` blocks from `r` on. -/
  | split (b j r : Nat)
  /-- Block `b` given out four times and no slot left, for the run found at `r` or for another single block. -/
  | noSlot (b : Nat) (r : Option Nat)

namespace Outcome

def claimN (b : Nat) : Nat → Counts → Counts
  | 0, c => c
  | j + 1, c => (claimN b j c).claim b 1

/-- No run of `k` blocks is free, `b` is the lowest free block, and for `i` from `1` to `j` no run of `k - i` blocks
is free once `b` has been marked. -/
structure Stuck (c : Counts) (k b j : Nat) : Prop where
  lt : j < k
  none : ∀ r, ¬ IsRun c.Free k r
  first : IsFirstRun c.Free 1 b
  later : ∀ i, 1 ≤ i → i ≤ j → ∀ r, ¬ IsRun (c.claim b 1).Free (k - i) r

def Valid (c : Counts) (k : Nat) : Outcome → Prop
  | full => ∀ b, ¬ c.Free b
  | run r => IsFirstRun c.Free k r
  | split b j r => 1 ≤ j ∧ j ≤ 3 ∧ j < k ∧ Stuck c k b (j - 1) ∧ IsFirstRun (c.claim b 1).Free (k - j) r
  | noSlot b r => 4 < k ∧ Stuck c k b 3 ∧
    match r with
    | some r => IsFirstRun (c.claim b 1).Free (k - 4) r
    | none => ∀ r, ¬ IsRun (c.claim b 1).Free (k - 4) r

def blocks (k : Nat) : Outcome → Option (List Nat)
  | full => none
  | run r => some (List.range' r k)
  | split b j r => some (List.replicate j b ++ List.range' r (k - j))
  | noSlot _ _ => none

def counts (c : Counts) (k : Nat) : Outcome → Counts
  | full => c
  | run r => c.claim r k
  | split b j r => (claimN b j c).claim r (k - j)
  | noSlot b (some r) => (claimN b 4 c).claim r (k - 4)
  | noSlot b none => claimN b 5 c

end Outcome

open Outcome (claimN Stuck)

/-! ### Free blocks along the loop -/

theorem Counts.free_claim_one (c : Counts) (b : Nat) : (c.claim b 1).Free = fun x => c.Free x ∧ x ≠ b + 128 := by
  funext x
  simp [Counts.free_claim]
  omega

theorem Counts.free_claimN (c : Counts) (b : Nat) {j : Nat} (hj : 1 ≤ j) (x : Nat) :
    (claimN b j c).Free x ↔ (c.claim b 1).Free x := by
  induction j, hj using Nat.le_induction with
  | base => rfl
  | succ j hj ih =>
    simp [claimN, Counts.free_claim, ih]

theorem Counts.free_claimN_eq (c : Counts) (b : Nat) {j : Nat} (hj : 1 ≤ j) :
    (claimN b j c).Free = (c.claim b 1).Free :=
  funext fun x => propext (c.free_claimN b hj x)

variable {b : Nat} {c : Counts}

theorem Counts.isFirstRun_claim (h : IsFirstRun c.Free 1 b) : IsFirstRun (c.claim b 1).Free 1 b := by
  constructor
  · rw [isRun_one, Counts.free_claim]
    exact ⟨isRun_one.1 h.1, by omega⟩
  · intro r hr
    rw [isRun_one, Counts.free_claim] at hr
    exact h.le_of_free hr.1

theorem Counts.isFirstRun_claimN (h : IsFirstRun c.Free 1 b) (j : Nat) : IsFirstRun (claimN b j c).Free 1 b := by
  induction j with
  | zero => exact h
  | succ j ih => exact Counts.isFirstRun_claim ih

variable {k r : Nat}

theorem Counts.IsRun.bounds (h : IsRun c.Free k r) (hk : 0 < k) : 128 ≤ r ∧ r + k ≤ 8192 := by
  have h0 := h 0 hk
  have h1 := h (k - 1) (by omega)
  exact ⟨by simpa using h0.1, by have := h1.2.1; omega⟩

/-! ### One iteration -/

def SameHead (inode inode' : Inode) : Prop :=
  inode' = { inode with extents := inode'.extents, lastExtentIdx := inode'.lastExtentIdx,
                        extentCount := inode'.extentCount, extentIndirect := inode'.extentIndirect }

theorem SameHead.trans {a b c : Inode} (h : SameHead a b) (h' : SameHead b c) : SameHead a c := by
  unfold SameHead at *
  rw [h', h]

variable {s : FsState} {pfs : PsychicFs} {inode : Inode} {runs : List (Nat × Nat)}

def FsState.withCounts (s : FsState) (pfs : PsychicFs) (c : Counts) : FsState :=
  { s with psychicFs := some (pfs.setCounts c) }

theorem Ready.withCounts (h : Ready s pfs) (c : Counts) : Ready (s.withCounts pfs c) (pfs.setCounts c) := h.setCounts c

theorem findContiguousBlocks_of_first (h : Ready s pfs) (hk : 0 < k)
    (hr : IsFirstRun pfs.counts.Free k r) : findContiguousBlocks k s = some r := by
  have := findContiguousBlocks_spec h hk
  cases hf : findContiguousBlocks k s with
  | some r' =>
    rw [hf] at this
    rw [hr.unique this]
  | none =>
    rw [hf] at this
    exact absurd hr.1 (this r)

theorem findContiguousBlocks_of_none (h : Ready s pfs) (hk : 0 < k)
    (hr : ∀ r, ¬ IsRun pfs.counts.Free k r) : findContiguousBlocks k s = none := by
  have := findContiguousBlocks_spec h hk
  cases hf : findContiguousBlocks k s with
  | some r' =>
    rw [hf] at this
    exact absurd this.1 (hr r')
  | none => rfl

variable {m : Nat}

theorem allocateBlocks_run (h : Ready s pfs) (hi : inode.HasRuns runs) (hm : 0 < m)
    (hr : IsFirstRun pfs.counts.Free m r) (ht : total runs ≤ 4) :
    ((addRun runs r m).length = 5 ∧
      allocateBlocks m inode s = (false, inode, s.withCounts pfs (pfs.counts.claim r m))) ∨
    (∃ inode', allocateBlocks m inode s = (true, inode', s.withCounts pfs (pfs.counts.claim r m)) ∧
      inode'.HasRuns (addRun runs r m) ∧ SameHead inode inode') := by
  have hb := Counts.IsRun.bounds hr.1 hm
  have hmin : min m 65535 = m := by omega
  rw [allocateBlocks]
  simp only [hmin, findContiguousBlocks_of_first h hm hr, allocateContiguousBlocks_eq h.fs_eq]
  rw [if_neg (by omega)]
  rcases hi.addExtent_eq hm (show r + m < 2 ^ 32 by omega) (by omega) with ⟨hlen, hadd⟩ | ⟨-, inode', hadd, hruns, heq⟩
  · left
    refine ⟨hlen, ?_⟩
    rw [hadd]
    rfl
  · right
    refine ⟨inode', ?_, hruns, by unfold SameHead; rw [heq]⟩
    simp only [hadd, Nat.sub_self]
    rw [allocateBlocks, if_pos rfl]
    rfl

theorem allocateBlocks_single (h : Ready s pfs) (hi : inode.HasRuns runs) (hm : 1 < m)
    (hnone : ∀ r, ¬ IsRun pfs.counts.Free m r) (hb : IsFirstRun pfs.counts.Free 1 b) (ht : total runs ≤ 4) :
    ((addRun runs b 1).length = 5 ∧
      allocateBlocks m inode s = (false, inode, s.withCounts pfs (pfs.counts.claim b 1))) ∨
    (∃ inode', allocateBlocks m inode s = allocateBlocks (m - 1) inode' (s.withCounts pfs (pfs.counts.claim b 1)) ∧
      inode'.HasRuns (addRun runs b 1) ∧ SameHead inode inode') := by
  have hbd := Counts.IsRun.bounds hb.1 (by omega)
  -- a run of 65535 blocks never exists, so capping the request changes nothing
  have hnone' : ∀ r, ¬ IsRun pfs.counts.Free (min m 65535) r := by
    intro r hr
    have := Counts.IsRun.bounds hr (by omega)
    grind
  rw [allocateBlocks]
  simp only [findContiguousBlocks_of_none h (show 0 < min m 65535 by omega) hnone',
    findContiguousBlocks_of_first h Nat.one_pos hb, allocateContiguousBlocks_eq h.fs_eq]
  rw [if_neg (by omega), if_pos (by omega)]
  rcases hi.addExtent_eq Nat.one_pos (show b + 1 < 2 ^ 32 by omega) (by omega)
    with ⟨hlen, hadd⟩ | ⟨-, inode', hadd, hruns, heq⟩
  · left
    refine ⟨hlen, ?_⟩
    rw [show (1 : BitVec 16) = BitVec.ofNat 16 1 from rfl, hadd]
    rfl
  · right
    refine ⟨inode', ?_, hruns, by unfold SameHead; rw [heq]⟩
    rw [show (1 : BitVec 16) = BitVec.ofNat 16 1 from rfl, hadd]
    rfl

theorem allocateBlocks_full (h : Ready s pfs) (hm : 0 < m) (hnone : ∀ b, ¬ pfs.counts.Free b) :
    allocateBlocks m inode s = (false, inode, s) := by
  have hf : ∀ k, 0 < k → findContiguousBlocks k s = none := by
    intro k hk
    exact findContiguousBlocks_of_none h hk fun r hr => hnone r (by simpa using hr 0 hk)
  rw [allocateBlocks]
  grind

/-! ### The whole loop -/

/-- The allocation ends in the given outcome. -/
structure Ends (s : FsState) (pfs : PsychicFs) (k : Nat) (inode : Inode) (o : Outcome)
    (res : Bool × Inode × FsState) : Prop where
  state : res.2.2 = s.withCounts pfs (o.counts pfs.counts k)
  ok : ∀ bs, o.blocks k = some bs →
    res.1 = true ∧ SameHead inode res.2.1 ∧ ∃ runs, res.2.1.HasRuns runs ∧ blocksOf runs = bs
  fail : o.blocks k = none → res.1 = false

theorem total_replicate (j b : Nat) : total (List.replicate j (b, 1)) = j := by
  induction j with
  | zero => rfl
  | succ j ih => rw [List.replicate_succ, total_cons, ih]; omega

theorem blocksOf_replicate (j b : Nat) : blocksOf (List.replicate j (b, 1)) = List.replicate j b := by
  induction j with
  | zero => rfl
  | succ j ih => rw [List.replicate_succ, blocksOf_cons, ih]; rfl

theorem addRun_replicate (j b r m : Nat) (hr : r ≠ b + 1) :
    addRun (List.replicate j (b, 1)) r m = List.replicate j (b, 1) ++ [(r, m)] := by
  cases j with
  | zero => rfl
  | succ j => rw [List.replicate_succ', addRun_append, if_neg (by omega)]

theorem ne_succ_of_first (hb : IsFirstRun c.Free 1 b) (hm : 0 < m)
    (hr : IsFirstRun c.Free m r) : r ≠ b + 1 := by
  rcases eq_or_ne r b with h | h
  · omega
  · have := hb.lt_of_ne hr hm h
    omega

theorem allocateBlocks_noSlot (h : Ready s pfs) (head : Inode) {inode : Inode} (hjk : 4 < k)
    (hs : Stuck pfs.counts k b 3) (hruns : inode.HasRuns (List.replicate 4 (b, 1))) :
    ∃ o : Outcome, o.Valid pfs.counts k ∧
      Ends s pfs k head o (allocateBlocks (k - 4) inode (s.withCounts pfs (claimN b 4 pfs.counts))) := by
  have hf := Counts.isFirstRun_claimN hs.first 4
  have hfree := Counts.free_claimN_eq pfs.counts b (show 1 ≤ 4 by omega)
  generalize hc : claimN b 4 pfs.counts = c at hf hfree ⊢
  have hr' := h.withCounts c
  by_cases hex : ∃ r, IsRun c.Free (k - 4) r
  · obtain ⟨r, hr⟩ := exists_isFirstRun hex
    have hadd := addRun_replicate 4 b r (k - 4) (ne_succ_of_first hf (by omega) hr)
    refine ⟨.noSlot b (some r), ⟨hjk, hs, by rw [← hfree]; exact hr⟩, ?_⟩
    rcases allocateBlocks_run hr' hruns (by omega) hr (by rw [total_replicate])
      with ⟨-, heq⟩ | ⟨inode', -, hruns', -⟩
    · rw [heq]
      exact ⟨by rw [Outcome.counts, hc]; rfl, by simp [Outcome.blocks], fun _ => rfl⟩
    · have := hruns'.length_le
      rw [hadd] at this
      simp at this
  · have hnone : ∀ r, ¬ IsRun c.Free (k - 4) r := fun r hr => hex ⟨r, hr⟩
    have hk : 1 < k - 4 := by
      by_contra hle
      obtain hk : k - 4 = 1 := by omega
      exact hnone b (by rw [hk]; exact hf.1)
    have hadd := addRun_replicate 4 b b 1 (by omega)
    refine ⟨.noSlot b none, ⟨hjk, hs, by rw [← hfree]; exact hnone⟩, ?_⟩
    rcases allocateBlocks_single hr' hruns hk hnone hf (by rw [total_replicate])
      with ⟨-, heq⟩ | ⟨inode', -, hruns', -⟩
    · rw [heq]
      exact ⟨by rw [Outcome.counts, claimN, hc]; rfl, by simp [Outcome.blocks], fun _ => rfl⟩
    · have := hruns'.length_le
      rw [hadd] at this
      simp at this

theorem allocateBlocks_stuck (h : Ready s pfs) (head : Inode) (n : Nat) : ∀ (j : Nat) (inode : Inode),
    j + n = 4 → 1 ≤ j → j < k → Stuck pfs.counts k b (j - 1) → inode.HasRuns (List.replicate j (b, 1)) →
    SameHead head inode →
    ∃ o : Outcome, o.Valid pfs.counts k ∧
      Ends s pfs k head o (allocateBlocks (k - j) inode (s.withCounts pfs (claimN b j pfs.counts))) := by
  induction n with
  | zero =>
    intro j inode hj hj1 hjk hs hruns hhead
    obtain rfl : j = 4 := by omega
    exact allocateBlocks_noSlot h head hjk hs hruns
  | succ n ih =>
    intro j inode hj hj1 hjk hs hruns hhead
    have hr' := h.withCounts (claimN b j pfs.counts)
    have hf := Counts.isFirstRun_claimN hs.first j
    have hfree := Counts.free_claimN_eq pfs.counts b hj1
    by_cases hex : ∃ r, IsRun (claimN b j pfs.counts).Free (k - j) r
    · obtain ⟨r, hr⟩ := exists_isFirstRun hex
      have hadd := addRun_replicate j b r (k - j) (ne_succ_of_first hf (by omega) hr)
      refine ⟨.split b j r, ⟨hj1, by omega, hjk, hs, by rw [← hfree]; exact hr⟩, ?_⟩
      rcases allocateBlocks_run hr' hruns (by omega) hr (by rw [total_replicate]; omega)
        with ⟨hlen, -⟩ | ⟨inode', heq, hruns', hsame⟩
      · simp_all
      · rw [heq]
        refine ⟨rfl, ?_, by simp [Outcome.blocks]⟩
        intro bs hbs
        obtain rfl : _ = bs := Option.some.inj hbs
        refine ⟨rfl, hhead.trans hsame, _, hruns', ?_⟩
        rw [blocksOf_addRun, blocksOf_replicate]
    · have hnone : ∀ r, ¬ IsRun (claimN b j pfs.counts).Free (k - j) r := fun r hr => hex ⟨r, hr⟩
      have hk : 1 < k - j := by
        by_contra hle
        obtain hk : k - j = 1 := by omega
        exact hnone b (by rw [hk]; exact hf.1)
      have hadd := addRun_replicate j b b 1 (by omega)
      rcases allocateBlocks_single hr' hruns hk hnone hf (by rw [total_replicate]; omega)
        with ⟨hlen, -⟩ | ⟨inode', heq, hruns', hsame⟩
      · simp_all
      · have hs' : Stuck pfs.counts k b (j + 1 - 1) := by
          refine ⟨by omega, hs.none, hs.first, ?_⟩
          intro i hi hij
          rcases Nat.lt_or_ge i j with hlt | hge
          · exact hs.later i hi (by omega)
          · grind
        rw [heq, Nat.sub_sub]
        rw [hadd, ← List.replicate_succ'] at hruns'
        exact ih (j + 1) inode' (by omega) (by omega) (by omega) hs' hruns' (hhead.trans hsame)

theorem allocateBlocks_spec (h : Ready s pfs) (hi : inode.HasRuns []) (hk : 0 < k) :
    ∃ o : Outcome, o.Valid pfs.counts k ∧ Ends s pfs k inode o (allocateBlocks k inode s) := by
  by_cases hfull : ∀ b, ¬ pfs.counts.Free b
  · refine ⟨.full, hfull, ?_⟩
    rw [allocateBlocks_full h hk hfull]
    refine ⟨?_, by simp [Outcome.blocks], fun _ => rfl⟩
    obtain ⟨disk, fs, clock⟩ := s
    have hfs : fs = some pfs := h.fs_eq
    subst hfs
    rfl
  simp only [not_forall, not_not] at hfull
  obtain ⟨b, hb⟩ := exists_isFirstRun (hfull.imp fun b hb => isRun_one.2 hb)
  by_cases hex : ∃ r, IsRun pfs.counts.Free k r
  · obtain ⟨r, hr⟩ := exists_isFirstRun hex
    refine ⟨.run r, hr, ?_⟩
    rcases allocateBlocks_run h hi hk hr (by simp) with ⟨hlen, -⟩ | ⟨inode', heq, hruns, hsame⟩
    · simp [addRun] at hlen
    · rw [heq]
      refine ⟨rfl, ?_, by simp [Outcome.blocks]⟩
      intro bs hbs
      obtain rfl : _ = bs := Option.some.inj hbs
      exact ⟨rfl, hsame, _, hruns, by rw [blocksOf_addRun]; rfl⟩
  · have hnone : ∀ r, ¬ IsRun pfs.counts.Free k r := fun r hr => hex ⟨r, hr⟩
    have hk1 : 1 < k := by
      by_contra hle
      obtain rfl : k = 1 := by omega
      exact hnone b hb.1
    have hs : Stuck pfs.counts k b (1 - 1) := ⟨by omega, hnone, hb, fun i h1 h2 => by omega⟩
    rcases allocateBlocks_single h hi hk1 hnone hb (by simp) with ⟨hlen, -⟩ | ⟨inode', heq, hruns, hsame⟩
    · simp [addRun] at hlen
    · rw [heq]
      exact allocateBlocks_stuck h inode 3 1 inode' (by omega) (by omega) hk1 hs hruns hsame

end AstralOS.Fs
