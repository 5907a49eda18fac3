import AstralOS.Fs.Alloc

/-!
# How large a file gets

The bitmap has bits for 8192 blocks, and no file is larger than that: on no disk does `fs_write` allocate more than 8192
blocks to a file (`allocateBlocks_le`).  The loop cannot go beyond by taking single blocks: the bit it marks is not the one
of the block it takes, so it takes the same block again until the four extents are used up.  An empty file system hands out
any number of blocks up to that in one run (`allocateBlocks_empty`).  The size of a file in its inode is not bounded by its
blocks; what no extent covers reads as zeros (`readBlocks_sparse`).
-/

namespace AstralOS.Fs

/-! ### Free blocks -/

variable {pfs : PsychicFs} {s : FsState} {inode : Inode} {b : Nat}

theorem PsychicFs.FreeBlock.bounds (h : pfs.FreeBlock b) : 128 ≤ b ∧ b < 8320 := by
  obtain ⟨hlo, -, hfree⟩ := h
  refine ⟨hlo, ?_⟩
  unfold isBlockAllocated at hfree
  rw [if_neg (by omega)] at hfree
  by_cases hidx : (b - 128) / 8 ≥ 1024
  · rw [if_pos hidx] at hfree
    cases hfree
  · omega

theorem freeBlock_claim_one (pfs : PsychicFs) (start b : Nat) :
    (pfs.setCounts (pfs.counts.claim start 1)).FreeBlock b ↔ pfs.FreeBlock b ∧ b ≠ start + 128 := by
  have ha : ∀ c, 128 ≤ c → c < 8320 → (pfs.setCounts (pfs.counts.claim start 1)).isBlockAllocated c =
      (pfs.isBlockAllocated c || decide (c = start + 128)) := by
    intro c hlo hhi
    have htest := Counts.test_claim pfs.counts start 1 (c - 128)
    unfold PsychicFs.isBlockAllocated
    rw [if_neg (by omega), if_neg (by omega)]
    rw [if_neg (by omega), if_neg (by omega)]
    refine htest.trans ?_
    congr 1
    rw [decide_eq_decide]
    omega
  constructor
  · intro h
    have hb := h.bounds
    obtain ⟨hlo, hhi, hfree⟩ := h
    rw [ha b hb.1 hb.2, Bool.or_eq_false_iff, decide_eq_false_iff_not] at hfree
    exact ⟨⟨hlo, hhi, hfree.1⟩, hfree.2⟩
  · intro h
    obtain ⟨h, hne⟩ := h
    have hb := h.bounds
    obtain ⟨hlo, hhi, hfree⟩ := h
    refine ⟨hlo, hhi, ?_⟩
    grind

/-- The lowest free block is `b`, and block `b + 128` is not free: the state of the loop once it has taken `b`. -/
structure Blocked (pfs : PsychicFs) (b : Nat) : Prop where
  first : IsFirstRun pfs.FreeBlock 1 b
  hole : ¬pfs.FreeBlock (b + 128)

theorem Blocked.claim (h : IsFirstRun pfs.FreeBlock 1 b) : Blocked (pfs.setCounts (pfs.counts.claim b 1)) b where
  first := by
    constructor
    · rw [isRun_one, freeBlock_claim_one]
      exact ⟨isRun_one.1 h.1, by omega⟩
    · intro r hr
      rw [isRun_one, freeBlock_claim_one] at hr
      exact h.le_of_free hr.1
  hole := fun hfree => ((freeBlock_claim_one pfs b _).1 hfree).2 rfl

theorem Blocked.run_le (h : Blocked pfs b) {m r : Nat} (hm : 0 < m) (hr : IsRun pfs.FreeBlock m r) : m ≤ 8063 := by
  have hb := (isRun_one.1 h.first.1).bounds
  have hlo := h.first.le_of_free (hr 0 hm)
  have hhi := (hr (m - 1) (by omega)).bounds
  by_contra hlong
  -- the hole would lie inside the run
  have hin := hr (b + 128 - r) (by omega)
  rw [show r + (b + 128 - r) = b + 128 by omega] at hin
  exact h.hole hin

/-! ### The loop -/

theorem allocateBlocks_step (hs : s.psychicFs = some pfs) {m : Nat} (hm : 8063 < m)
    (hnone : ∀ r, ¬IsRun pfs.FreeBlock (min m 65535) r) {k : Nat} (hi : inode.HasRuns (List.replicate k (b, 1)))
    (hk : k = 0 ∨ Blocked pfs b) (hok : (allocateBlocks m inode s).1 = true) :
    ∃ b' inode' s', IsFirstRun pfs.FreeBlock 1 b' ∧ (k = 0 ∨ b' = b) ∧ k < 4 ∧
      inode'.HasRuns (List.replicate (k + 1) (b', 1)) ∧
      s'.psychicFs = some (pfs.setCounts (pfs.counts.claim b' 1)) ∧ (allocateBlocks (m - 1) inode' s').1 = true := by
  have hpos : 0 < min m 65535 := by omega
  have hfind := findContiguousBlocks_first hs hpos
  have hfi1 := findContiguousBlocks_first hs Nat.one_pos
  rw [allocateBlocks, if_neg (by omega)] at hok
  dsimp only at hok
  cases hf : findContiguousBlocks (min m 65535) s with
  | some r =>
    rw [hf] at hfind
    exact absurd hfind.1 (hnone r)
  | none =>
    rw [hf] at hok
    rw [if_pos (by omega)] at hok
    cases hf1 : findContiguousBlocks 1 s with
    | none =>
      rw [hf1] at hok
      cases hok
    | some b' =>
      rw [hf1] at hok hfi1
      have hb' := (isRun_one.1 hfi1.1).bounds
      have hsame : k = 0 ∨ b' = b := hk.imp_right fun hbl => hfi1.unique hbl.first
      have hadd : addRun (List.replicate k (b, 1)) b' 1 = List.replicate (k + 1) (b', 1) := by
        rcases hsame with rfl | rfl
        · rfl
        · rw [addRun_replicate k b' b' 1 (by omega), ← List.replicate_succ']
      have ht : total (List.replicate k (b, 1)) + 1 < 2 ^ 16 := by
        have := hi.length_le
        rw [List.length_replicate] at this
        rw [total_replicate]
        omega
      dsimp only at hok
      rw [allocateContiguousBlocks_eq hs, show (1 : BitVec 16) = BitVec.ofNat 16 1 from rfl] at hok
      rcases hi.addExtent_eq Nat.one_pos (show b' + 1 < 2 ^ 32 by omega) ht with
        ⟨-, hfull⟩ | ⟨hlen, inode', hroom, hruns, -⟩
      · rw [hfull] at hok
        cases hok
      · grind

theorem allocateBlocks_blocked (n : Nat) : ∀ {k m : Nat} {inode : Inode} {s : FsState} {pfs : PsychicFs},
    k + n = 4 → 8063 + n < m → s.psychicFs = some pfs → Blocked pfs b → inode.HasRuns (List.replicate k (b, 1)) →
    (allocateBlocks m inode s).1 = false := by
  -- each iteration uses up a slot, and after the fourth none is left
  induction n with
  | zero =>
    intro k m inode s pfs hk hm hs hbl hi
    by_contra hok
    have hnone : ∀ r, ¬IsRun pfs.FreeBlock (min m 65535) r := fun r hr => by
      have := hbl.run_le (by omega) hr
      omega
    obtain ⟨-, -, -, -, -, hlt, -⟩ := allocateBlocks_step hs (by omega) hnone hi (.inr hbl) (by simpa using hok)
    omega
  | succ n ih =>
    intro k m inode s pfs hk hm hs hbl hi
    by_contra hok
    have hnone : ∀ r, ¬IsRun pfs.FreeBlock (min m 65535) r := fun r hr => by
      have := hbl.run_le (by omega) hr
      omega
    obtain ⟨b', inode', s', hf, -, -, hruns, hs', hok'⟩ :=
      allocateBlocks_step hs (by omega) hnone hi (.inr hbl) (by simpa using hok)
    obtain rfl := hf.unique hbl.first
    have := ih (k := k + 1) (m := m - 1) (by omega) (by omega) hs' (Blocked.claim hf) hruns
    rw [hok'] at this
    cases this

theorem allocateBlocks_le (hi : inode.HasRuns []) {n : Nat} (hok : (allocateBlocks n inode s).1 = true) : n ≤ 8192 := by
  by_contra hn
  cases hs : s.psychicFs with
  | none =>
    have hnone : ∀ count, findContiguousBlocks count s = none := fun count => by
      unfold findContiguousBlocks
      rw [hs]
    rw [allocateBlocks, if_neg (by omega)] at hok
    simp_all [hnone, ite_self]
  | some pfs =>
    have hnone : ∀ r, ¬IsRun pfs.FreeBlock (min n 65535) r := fun r hr => by
      have hlo := (hr 0 (by omega)).bounds
      have hhi := (hr (min n 65535 - 1) (by omega)).bounds
      omega
    obtain ⟨b, inode', s', hf, -, -, hruns, hs', hok'⟩ :=
      allocateBlocks_step (k := 0) (b := 0) hs (by omega) hnone hi (.inl rfl) hok
    have := allocateBlocks_blocked 3 (k := 1) (m := n - 1) rfl (by omega) hs' (Blocked.claim hf) hruns
    rw [hok'] at this
    cases this

/-! ### An empty file system -/

/-- A mounted file system of the largest size, with nothing allocated. -/
def emptyFs : PsychicFs :=
  { PsychicFs.new with mounted := true, superblock := { PsychicFs.new.superblock with totalBlocks := 8320 } }

theorem freeBlock_emptyFs (b : Nat) : emptyFs.FreeBlock b ↔ 128 ≤ b ∧ b < 8320 := by
  constructor
  · exact fun h => h.bounds
  · intro h
    refine ⟨h.1, h.2, ?_⟩
    unfold PsychicFs.isBlockAllocated
    rw [if_neg (by omega)]
    rw [if_neg (by omega)]
    exact Bitmap.test_replicate_zero (by decide) (b - 128)

theorem allocateBlocks_empty (hs : s.psychicFs = some emptyFs) (hi : inode.HasRuns []) {n : Nat} (hn : 0 < n)
    (hle : n ≤ 8192) :
    ∃ inode' s', allocateBlocks n inode s = (true, inode', s') ∧ inode'.HasRuns [(128, n)] ∧ s'.disk = s.disk := by
  have hfi : IsFirstRun emptyFs.FreeBlock n 128 := by
    constructor
    · intro j hj
      rw [freeBlock_emptyFs]
      omega
    · intro r hr
      exact (hr 0 hn).bounds.1
  have hfind : findContiguousBlocks n s = some 128 := by
    have := findContiguousBlocks_first hs hn
    cases hf : findContiguousBlocks n s with
    | some r =>
      rw [hf] at this
      rw [this.unique hfi]
    | none =>
      rw [hf] at this
      exact absurd hfi.1 (this 128)
  have hmin : min n 65535 = n := by omega
  rw [allocateBlocks, if_neg (by omega)]
  simp only [hmin, hfind, allocateContiguousBlocks_eq hs]
  rcases hi.addExtent_eq hn (show 128 + n < 2 ^ 32 by omega) (by rw [total_nil]; omega) with
    ⟨hlen, -⟩ | ⟨-, inode', hadd, hruns, -⟩
  · cases hlen
  · refine ⟨inode', s.withCounts emptyFs (emptyFs.counts.claim 128 n), ?_, hruns, rfl⟩
    rw [hadd]
    dsimp only
    rw [Nat.sub_self, allocateBlocks, if_pos rfl]
    rfl

/-! ### Sparse files -/

theorem length_readBlocks (hi : inode.HasRuns []) (size : Nat) (d : Disk) (blocks : List Nat) :
    ∀ data : List Byte, data.length ≤ size →
      ∃ out, readBlocks inode size d blocks data = some out ∧ out.length = min size (data.length + 512 * blocks.length) := by
  have hnone : ∀ logical, inode.getPhysicalBlock logical = none := by
    intro logical
    have := hi.getPhysicalBlock_eq logical.isLt
    rwa [BitVec.ofNat_toNat, BitVec.setWidth_eq] at this
  induction blocks with
  | nil =>
    intro data hle
    exact ⟨data, rfl, by simp; omega⟩
  | cons l blocks ih =>
    grind [readBlocks, List.length_append, List.length_replicate, List.length_cons]

theorem readBlocks_sparse (hi : inode.HasRuns []) (size : Nat) (d : Disk) :
    ∃ out, readBlocks inode size d (List.range ((size + 512 - 1) / 512)) [] = some out ∧ out.length = size := by
  obtain ⟨out, hout, hlen⟩ := length_readBlocks hi size d (List.range ((size + 512 - 1) / 512)) [] (Nat.zero_le _)
  grind

theorem fsRead_sparse {s : FsState} {name : String} {k : Nat} (hfind : findInodeByName name s.disk = some (k, inode))
    (hi : inode.HasRuns []) : ∃ data, fsRead name s = some data ∧ data.length = inode.size.toNat := by
  unfold fsRead
  rw [hfind]
  dsimp only
  by_cases hz : inode.size.toNat = 0
  · simp [hz]
  · rw [if_neg hz]
    exact readBlocks_sparse hi _ _

theorem length_readBlocks_le (inode : Inode) (size : Nat) (d : Disk) (blocks : List Nat) :
    ∀ acc out : List Byte, acc.length ≤ size → readBlocks inode size d blocks acc = some out → out.length ≤ size := by
  induction blocks with
  | nil =>
    intro acc out hacc hout
    cases hout
    exact hacc
  | cons l blocks ih =>
    intro acc out hacc hout
    rw [readBlocks] at hout
    cases hp : inode.getPhysicalBlock (BitVec.ofNat 16 l) with
    | none =>
      grind
    | some phys =>
      rw [hp] at hout
      dsimp only at hout
      cases hr : d.diskReadSector phys.toNat with
      | none =>
        rw [hr] at hout
        cases hout
      | some buffer =>
        rw [hr] at hout
        exact ih _ out (by simp; omega) hout

theorem length_fsRead_lt {name : String} {data : List Byte} (h : fsRead name s = some data) : data.length < 2 ^ 32 := by
  unfold fsRead at h
  cases hf : findInodeByName name s.disk with
  | none =>
    rw [hf] at h
    cases h
  | some found =>
    rw [hf] at h
    dsimp only at h
    by_cases hz : found.2.size.toNat = 0
    · simp_all
    · rw [if_neg hz] at h
      have := length_readBlocks_le _ _ _ _ _ _ (Nat.zero_le _) h
      omega

end AstralOS.Fs
