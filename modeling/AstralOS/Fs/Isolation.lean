import AstralOS.Fs.Clean

/-!
# Isolation of files

A write is isolated if, when it succeeds, the file reads back as the data and every other file as before.  Marking a
block sets the bit of the block 128 further on, so the blocks that a write takes can belong to another file, and the
same block can be handed out twice in one write.  `SafeWrite` says from the bitmap and the extents before the call
when neither happens; a write of a given length is isolated for all data exactly then (`isolated_iff_safeWrite`).
-/

namespace AstralOS.Fs

open List

/-- If writing data of this length under the name succeeds, the data reads back and no other file changes. -/
def Isolated (s : FsState) (name : String) (len : Nat) : Prop :=
  ∀ data : List Byte, data.length = len → (fsWrite name data s).1 = true →
    fsRead name (fsWrite name data s).2 = some data ∧
      ∀ other, other ≠ name → fsRead other (fsWrite name data s).2 = fsRead other s

def Taken (s : FsState) (name : String) (b : Nat) : Prop :=
  ∃ k other, Named s.disk k other ∧ other ≠ name ∧ b ∈ (inodeAt s.disk k).blocks

/-- Given the blocks `F` that are free and the blocks `T` of other files, an allocation of `n` blocks fails or hands
out distinct blocks outside `T`.  Either nothing is free; or the lowest free run of `n` blocks avoids `T`; or there
is no such run, and with `b` the lowest free block and block `b + 128` marked, `b` and the lowest run of `n - 1`
blocks are disjoint and avoid `T`, or not even `n - 3` blocks are found in one run and the four extents do not
suffice. -/
def SafeChoice (F T : Nat → Prop) (n : Nat) : Prop :=
  (∀ b, ¬ F b) ∨
  (∃ r, IsFirstRun F n r ∧ ∀ x, r ≤ x → x < r + n → ¬ T x) ∨
  ((∀ r, ¬ IsRun F n r) ∧ ∃ b, IsFirstRun F 1 b ∧
    ((∃ r, IsFirstRun (fun x => F x ∧ x ≠ b + 128) (n - 1) r ∧ r ≠ b ∧ ¬ T b ∧
        ∀ x, r ≤ x → x < r + (n - 1) → ¬ T x) ∨
      (4 < n ∧ ∀ r, ¬ IsRun (fun x => F x ∧ x ≠ b + 128) (n - 3) r)))

def SafeWrite (s : FsState) (name : String) (len : Nat) : Prop :=
  len = 0 ∨ ((∀ k, ¬ Named s.disk k name) ∧ ¬ Creatable s.disk name) ∨
    SafeChoice (FreeFor s name) (Taken s name) ((len + 512 - 1) / 512)

/-! ### Safe outcomes of the allocation -/

theorem nodup_split {b r m : Nat} : (List.replicate 1 b ++ List.range' r m).Nodup ↔ ¬ (r ≤ b ∧ b < r + m) := by
  grind

theorem Outcome.Valid.safe_iff {c : Counts} {n : Nat} {o : Outcome} (ho : o.Valid c n) (hn : 0 < n) (T : Nat → Prop) :
    (∀ bs, o.blocks n = some bs → bs.Nodup ∧ ∀ x ∈ bs, ¬ T x) ↔ SafeChoice c.Free T n := by
  cases o with
  | full => exact ⟨fun _ => Or.inl ho, fun _ bs hbs => by cases hbs⟩
  | run r =>
    have hfree : c.Free r := by simpa using ho.1 0 hn
    constructor
    · intro h
      refine Or.inr (Or.inl ⟨r, ho, fun x h1 h2 => ?_⟩)
      exact (h _ rfl).2 x (mem_range'_1.2 ⟨h1, h2⟩)
    · rintro (h | ⟨r', hr', hT⟩ | ⟨h, -⟩) bs hbs
      · exact absurd hfree (h r)
      · obtain rfl : _ = bs := Option.some.inj hbs
        obtain rfl := ho.unique hr'
        grind
      · exact absurd ho.1 (h r)
  | split b j r =>
    obtain ⟨h1, h3, hjn, hs, hr⟩ := ho
    have hb : c.Free b := isRun_one.1 hs.first.1
    have hb' := Counts.isFirstRun_claim hs.first
    constructor
    · intro h
      obtain ⟨hno, hT⟩ := h _ rfl
      -- a block ha out twice rules out everything but a single block and a run elsewhere
      obtain rfl : j = 1 := by
        grind
      rw [nodup_split] at hno
      rw [Counts.free_claim_one] at hr
      refine Or.inr (Or.inr ⟨hs.none, b, hs.first, Or.inl ⟨r, hr, by omega, hT b (by simp), ?_⟩⟩)
      simp_all
    · rintro (h | ⟨r', hr', -⟩ | ⟨-, b', hb'', h⟩) bs hbs
      · exact absurd hb (h b)
      · exact absurd hr'.1 (hs.none r')
      · obtain rfl : _ = bs := Option.some.inj hbs
        obtain rfl := hs.first.unique hb''
        rw [← Counts.free_claim_one] at h
        rcases h with ⟨r', hr', hne, hTb, hT⟩ | ⟨hn4, h⟩
        · obtain rfl : j = 1 := by
            by_contra hj
            exact hs.later 1 (by omega) (by omega) r' hr'.1
          obtain rfl := hr.unique hr'
          have hlt := hb'.lt_of_ne hr (by omega) hne
          refine ⟨nodup_split.2 (by omega), fun x hx => ?_⟩
          rcases mem_append.1 hx with hx | hx
          · simp_all
          · rw [mem_range'_1] at hx
            exact hT x hx.1 hx.2
        · exact absurd (hr.1.mono (by omega)) (h r)
  | noSlot b r =>
    obtain ⟨hn4, hs, -⟩ := ho
    constructor
    · intro _
      refine Or.inr (Or.inr ⟨hs.none, b, hs.first, Or.inr ⟨hn4, ?_⟩⟩)
      rw [← Counts.free_claim_one]
      exact hs.later 3 (by omega) (by omega)
    · intro _ bs hbs
      cases hbs

/-! ### Reading a file -/

variable {s : FsState} {pfs : PsychicFs} {name : String} {k : Nat}

theorem fsRead_none (hd : s.disk.Sound) (h : ∀ k, ¬ Named s.disk k name) : fsRead name s = none := by
  unfold fsRead
  rcases findInodeByName_cases hd name with ⟨k, hn, -⟩ | ⟨-, hfind⟩
  · exact absurd hn (h k)
  · rw [hfind]

theorem fsRead_eq (h : Inv s) (hdist : Distinct s.disk) (hn : Named s.disk k name) :
    fsRead name s = some (fileContent s.disk (inodeAt s.disk k).blocks (inodeAt s.disk k).size.toNat) := by
  unfold fsRead
  rcases findInodeByName_cases h.sound name with ⟨j, hj, hfind⟩ | ⟨hnone, -⟩
  · obtain rfl := hdist j k name hj hn
    have hok := h.fileOk hn
    obtain ⟨runs, hr⟩ := hok.runs
    simp only [hfind]
    split
    · rename_i hz
      rw [hz]
      rfl
    · exact readBlocks_eq h.sound hr (fun b hb => (hok.bounds b hb).2) hok.length
  · exact absurd hn (hnone k)

theorem size_le (h : Inv s) (hn : Named s.disk k name) :
    (inodeAt s.disk k).size.toNat ≤ 512 * (inodeAt s.disk k).blocks.length := by
  have := (h.fileOk hn).length
  omega

theorem Taken.ne_slot (hn : Named s.disk k name) {j : Nat} {other : String} (hj : Named s.disk j other)
    (hne : other ≠ name) : j ≠ k := by
  rintro rfl
  exact hne (hj.2.2.symm.trans hn.2.2)

/-! ### Writing an existing file -/

theorem findInodeByName_of_named (hd : s.disk.Sound) (hdist : Distinct s.disk) (hn : Named s.disk k name) :
    findInodeByName name s.disk = some (k, inodeAt s.disk k) := by
  rcases findInodeByName_cases hd name with ⟨j, hj, hfind⟩ | ⟨hnone, -⟩
  · obtain rfl := hdist j k name hj hn
    exact hfind
  · exact absurd hn (hnone k)

section

variable {bs : List Nat} {data : List Byte} {c : Counts} {s' : FsState}

theorem Wrote.fsRead_self (hdist : Distinct s.disk) (hw : Wrote s k bs data c s') (hn : Named s.disk k name)
    (hb : ∀ b ∈ bs, 128 ≤ b) (hlen : data.length ≤ 512 * bs.length) :
    fsRead name s' = some (fileContent (storeBlocks data bs (List.range bs.length) s.disk) bs data.length) := by
  rw [fsRead_eq hw.inv (hw.distinct hdist) ((hw.named k name).2 hn), hw.blocks, hw.size]
  congr 1
  exact fileContent_congr hlen fun b hbm => hw.sectors b (hb b hbm)

theorem Wrote.fsRead_other (h : Inv s) (hdist : Distinct s.disk) (hw : Wrote s k bs data c s')
    (hn : Named s.disk k name) (hT : ∀ x ∈ bs, ¬ Taken s name x) {other : String} (hne : other ≠ name) :
    fsRead other s' = fsRead other s := by
  by_cases hex : ∃ j, Named s.disk j other
  · obtain ⟨j, hj⟩ := hex
    have hat := hw.other j hj.1 (Taken.ne_slot hn hj hne)
    rw [fsRead_eq h hdist hj, fsRead_eq hw.inv (hw.distinct hdist) ((hw.named j other).2 hj), hat]
    congr 1
    apply fileContent_congr (size_le h hj)
    intro b hb
    rw [hw.sectors b ((h.fileOk hj).bounds b hb).1]
    exact sectors_storeBlocks_of_notMem data s.disk fun hmem => hT b hmem ⟨j, other, hj, hne, hb⟩
  · have hnone : ∀ j, ¬ Named s.disk j other := fun j hj => hex ⟨j, hj⟩
    rw [fsRead_none h.sound hnone, fsRead_none hw.inv.sound fun j hj => hnone j ((hw.named j other).1 hj)]

end

theorem byteAt_storeBlocks (data : List Byte) (bs : List Nat) (d : Disk) {i : Nat} (hi : i < bs.length) :
    ∃ l, i ≤ l ∧ l < bs.length ∧ bs.getD l 0 = bs.getD i 0 ∧
      (∀ l', l' < bs.length → bs.getD l' 0 = bs.getD i 0 → l' ≤ l) ∧
      byteAt ((storeBlocks data bs (List.range bs.length) d).sectors (bs.getD i 0)) 0 = data.getD (512 * l) 0 := by
  rcases sectors_storeBlocks data bs d (bs.getD i 0) bs.length with ⟨hnone, -⟩ | ⟨l, hl, hbl, hlast, heq⟩
  · exact absurd rfl (hnone i hi)
  · have hmax : ∀ l', l' < bs.length → bs.getD l' 0 = bs.getD i 0 → l' ≤ l := by
      grind
    refine ⟨l, hmax i hi rfl, hl, hbl, hmax, ?_⟩
    rw [heq, byteAt_dataSector _ _ (by omega), Nat.add_zero]

theorem length_bounds {len n l : Nat} (hlen : (len + 512 - 1) / 512 = n) (hl : l < n) : 512 * l < len := by
  omega

theorem nodup_of_isolated (hdist : Distinct s.disk) (hn : Named s.disk k name) {bs : List Nat} {len : Nat}
    (hlen : (len + 512 - 1) / 512 = bs.length) (hb : ∀ b ∈ bs, 128 ≤ b) {c : Counts} {s' : List Byte → FsState}
    (hw : ∀ data : List Byte, data.length = len → Wrote s k bs data c (s' data))
    (hread : ∀ data : List Byte, data.length = len → fsRead name (s' data) = some data) : bs.Nodup := by
  rw [List.Nodup, pairwise_iff_getElem]
  intro i j hi hj hij heq
  -- data whose block `i` differs from all others in its first byte
  let data : List Byte := (range len).map fun p => if p / 512 = i then 0 else 1
  have hdlen : data.length = len := by simp [data]
  have h1 := hread data hdlen
  rw [(hw data hdlen).fsRead_self hdist hn hb (by omega)] at h1
  have h2 := congrArg (fun l : List Byte => l[512 * i]?) (Option.some.inj h1)
  rw [getElem?_fileContent _ _ (by omega), show 512 * i / 512 = i by omega, show 512 * i % 512 = 0 by omega] at h2
  obtain ⟨l, -, hl, hbl, hmax, hbyte⟩ := byteAt_storeBlocks data bs s.disk hi
  grind

theorem not_taken_of_isolated (h : Inv s) (hdist : Distinct s.disk) (hn : Named s.disk k name) {bs : List Nat}
    {len : Nat} (hlen : (len + 512 - 1) / 512 = bs.length) {c : Counts}
    {s' : List Byte → FsState} (hw : ∀ data : List Byte, data.length = len → Wrote s k bs data c (s' data))
    (hread : ∀ data : List Byte, data.length = len → ∀ other, other ≠ name → fsRead other (s' data) = fsRead other s)
    {x : Nat} (hx : x ∈ bs) : ¬ Taken s name x := by
  rintro ⟨j, other, hj, hne, hxj⟩
  obtain ⟨i, hi, hix⟩ := getElem_of_mem hx
  obtain ⟨i', hi', hix'⟩ := getElem_of_mem hxj
  have hok := h.fileOk hj
  -- data whose first byte in every block differs from the one the block holds
  let data : List Byte := replicate len (byteAt (s.disk.sectors x) 0 + 1)
  have hdlen : data.length = len := by simp [data]
  have hw' := hw data hdlen
  have hread' := hread data hdlen other hne
  have hat := hw'.other j hj.1 (Taken.ne_slot hn hj hne)
  rw [fsRead_eq h hdist hj, fsRead_eq hw'.inv (hw'.distinct hdist) ((hw'.named j other).2 hj), hat] at hread'
  have hpos : 512 * i' < (inodeAt s.disk j).size.toNat := length_bounds hok.length.symm hi'
  have hbyte := congrArg (fun l : List Byte => l[512 * i']?) (Option.some.inj hread')
  have hgetx' : (inodeAt s.disk j).blocks.getD i' 0 = x := by
    rw [getD_eq_getElem?_getD, getElem?_eq_getElem hi', Option.getD_some, hix']
  rw [getElem?_fileContent _ _ hpos, getElem?_fileContent _ _ hpos, show 512 * i' / 512 = i' by omega,
    show 512 * i' % 512 = 0 by omega, hgetx', hw'.sectors x (hok.bounds x hxj).1] at hbyte
  obtain ⟨l, -, hl, -, -, hs⟩ := byteAt_storeBlocks data bs s.disk hi
  grind

theorem isolated_writeFile_iff (h : Inv s) (hr : Ready s pfs) (hdist : Distinct s.disk)
    (hn : Named s.disk k name) {len : Nat} (hlen : 0 < len) :
    (∀ data : List Byte, data.length = len → (writeFile k (inodeAt s.disk k) data s).1 = true →
      fsRead name (writeFile k (inodeAt s.disk k) data s).2 = some data ∧
        ∀ other, other ≠ name → fsRead other (writeFile k (inodeAt s.disk k) data s).2 = fsRead other s) ↔
    SafeChoice (FreeFor s name) (Taken s name) ((len + 512 - 1) / 512) := by
  have hpos : 0 < (len + 512 - 1) / 512 := by omega
  obtain ⟨s1, pfs1, o, hrel, hv, hca⟩ := writeFile_wrote h hr hn.1 rfl (h.fileOk hn) hpos
  rw [← free_released hr (h.fileOk hn) (findInodeByName_of_named h.sound hdist hn) hrel, ← hv.safe_iff hpos]
  constructor
  · intro hiso bs hbs
    obtain ⟨hbo, hbsl⟩ := hv.bounds hpos hbs
    have hw : ∀ data : List Byte, data.length = len → (writeFile k (inodeAt s.disk k) data s).1 = true ∧
        Wrote s k bs data (o.counts pfs1.counts ((len + 512 - 1) / 512))
          (writeFile k (inodeAt s.disk k) data s).2 := by
      intro data hdata
      rcases hca data (by rw [hdata]) with ⟨hnone, -⟩ | ⟨bs', hbs', htrue, hwr⟩
      · rw [hnone] at hbs
        cases hbs
      · simp_all
    refine ⟨?_, fun x hx => ?_⟩
    · exact nodup_of_isolated hdist hn hbsl.symm (fun b hb => (hbo b hb).1) (fun data hd => (hw data hd).2)
        fun data hd => (hiso data hd (hw data hd).1).1
    · exact not_taken_of_isolated h hdist hn hbsl.symm (fun data hd => (hw data hd).2)
        (fun data hd => (hiso data hd (hw data hd).1).2) hx
  · intro hsafe data hdata htrue
    rcases hca data (by rw [hdata]) with ⟨-, hf⟩ | ⟨bs, hbs, -, hwr⟩
    · rw [hf] at htrue
      cases htrue
    · obtain ⟨hno, hT⟩ := hsafe bs hbs
      obtain ⟨hbo, hbsl⟩ := hv.bounds hpos hbs
      refine ⟨?_, fun other hne => hwr.fsRead_other h hdist hn hT hne⟩
      rw [hwr.fsRead_self hdist hn (fun b hb => (hbo b hb).1) (by omega),
        fileContent_storeBlocks s.disk hno (by omega)]

/-! ### Writing any file -/

theorem fsRead_congr {s' : FsState} (h : Inv s) (h' : Inv s') (hdist : Distinct s.disk)
    (hdist' : Distinct s'.disk) (hn : ∀ j, Named s'.disk j name ↔ Named s.disk j name)
    (hat : ∀ j, Named s.disk j name → inodeAt s'.disk j = inodeAt s.disk j)
    (hsec : ∀ b, 128 ≤ b → s'.disk.sectors b = s.disk.sectors b) : fsRead name s' = fsRead name s := by
  by_cases hex : ∃ j, Named s.disk j name
  · obtain ⟨j, hj⟩ := hex
    rw [fsRead_eq h hdist hj, fsRead_eq h' hdist' ((hn j).2 hj), hat j hj]
    congr 1
    exact fileContent_congr (size_le h hj) fun b hb => hsec b ((h.fileOk hj).bounds b hb).1
  · have hnone : ∀ j, ¬ Named s.disk j name := fun j hj => hex ⟨j, hj⟩
    rw [fsRead_none h.sound hnone, fsRead_none h'.sound fun j hj => hnone j ((hn j).1 hj)]

theorem isolated_writeFile_nil (h : Inv s) (hdist : Distinct s.disk) (hn : Named s.disk k name) :
    fsRead name (writeFile k (inodeAt s.disk k) [] s).2 = some [] ∧
      ∀ other, other ≠ name → fsRead other (writeFile k (inodeAt s.disk k) [] s).2 = fsRead other s := by
  have hinv := h.writeFile hn.1 (h.fileOk hn) []
  have hna := fun j x => named_writeFile (j := j) (x := x) h hn.1 rfl (h.fileOk hn) []
  have hdist' : Distinct (writeFile k (inodeAt s.disk k) [] s).2.disk :=
    fun i j x hi hj => hdist i j x ((hna i x).1 hi) ((hna j x).1 hj)
  constructor
  · rw [fsRead_eq hinv hdist' ((hna k name).2 hn), writeFile_nil h.sound hn.1]
    simp only [inodeAt_setInode, ↓reduceIte]
    rfl
  · intro other hne
    apply fsRead_congr h hinv hdist hdist' fun j => hna j other
    · intro j hj
      rw [writeFile_nil h.sound hn.1]
      simp only [inodeAt_setInode, if_neg (Taken.ne_slot hn hj hne)]
    · intro b hb
      rw [writeFile_nil h.sound hn.1]
      exact Disk.sectors_setInode hn.1 (by omega) _

theorem isolated_named_iff (h : Inv s) (hr : Ready s pfs) (hdist : Distinct s.disk) (hn : Named s.disk k name)
    (len : Nat) :
    (∀ data : List Byte, data.length = len → (writeFile k (inodeAt s.disk k) data s).1 = true →
      fsRead name (writeFile k (inodeAt s.disk k) data s).2 = some data ∧
        ∀ other, other ≠ name → fsRead other (writeFile k (inodeAt s.disk k) data s).2 = fsRead other s) ↔
    len = 0 ∨ SafeChoice (FreeFor s name) (Taken s name) ((len + 512 - 1) / 512) := by
  rcases Nat.eq_zero_or_pos len with rfl | hlen
  · refine ⟨fun _ => Or.inl rfl, fun _ data hdata _ => ?_⟩
    obtain rfl := length_eq_zero_iff.1 hdata
    exact isolated_writeFile_nil h hdist hn
  · simp [isolated_writeFile_iff h hr hdist hn hlen]
    omega

section Created

variable (h : Inv s) (hk : k < 256) (hfree : (inodeAt s.disk k).inUse = 0) (hc : Creatable s.disk name)
  (hnul : (0 : Byte) ∉ strBytes name)

include hk hfree hc hnul

theorem named_created_self : Named (created k name s).disk k name :=
  (named_created hk hfree hc.1 hnul).2 (Or.inr ⟨rfl, rfl⟩)

theorem named_created_other {other : String} (hne : other ≠ name) (j : Nat) :
    Named (created k name s).disk j other ↔ Named s.disk j other := by
  simp_all [named_created hk hfree hc.1 hnul]

omit hc hnul in
theorem inodeAt_created_other {j : Nat} {other : String} (hj : Named s.disk j other) :
    inodeAt (created k name s).disk j = inodeAt s.disk j := by
  have hjk : j ≠ k := by
    rintro rfl
    exact hj.2.1 hfree
  unfold created
  rw [inodeAt_setInode, if_neg hjk]

include h in
theorem fsRead_created (hdist : Distinct s.disk) {other : String} (hne : other ≠ name) :
    fsRead other (created k name s) = fsRead other s :=
  fsRead_congr h (h.created hk name) hdist (hdist.created hk hfree hc hnul)
    (named_created_other hk hfree hc hnul hne) (fun _ hj => inodeAt_created_other hk hfree hj)
    fun b hb => Disk.sectors_setInode hk (by omega) _

include h in
theorem freeFor_created (hdist : Distinct s.disk) : FreeFor (created k name s) name = FreeFor s name := by
  have hold : findInodeByName name s.disk = none := by
    rcases findInodeByName_cases h.sound name with ⟨j, hj, -⟩ | ⟨-, hfind⟩
    · exact absurd hj (hc.2.1 j)
    · exact hfind
  have hnew := findInodeByName_of_named (h.created hk name).sound (hdist.created hk hfree hc hnul)
    (named_created_self hk hfree hc hnul)
  rw [inodeAt_created] at hnew
  have hb : (newFile name (s.clock 0) (s.clock 1)).blocks = [] := (hasRuns_newFile _ _ _).blocks_eq
  funext b
  have hnone : ¬ ∃ j inode, findInodeByName name s.disk = some (j, inode) ∧ b ∈ inode.blocks := by
    simp [hold]
  have hnone' : ¬ ∃ j inode, findInodeByName name (created k name s).disk = some (j, inode) ∧ b ∈ inode.blocks := by
    simp [hnew, hb]
  unfold FreeFor
  rw [eq_false hnone, eq_false hnone']
  rfl

theorem taken_created : Taken (created k name s) name = Taken s name := by
  funext b
  apply propext
  constructor
  · rintro ⟨j, other, hj, hne, hb⟩
    rw [named_created_other hk hfree hc hnul hne] at hj
    rw [inodeAt_created_other hk hfree hj] at hb
    exact ⟨j, other, hj, hne, hb⟩
  · rintro ⟨j, other, hj, hne, hb⟩
    have hat : inodeAt (created k name s).disk j = inodeAt s.disk j := inodeAt_created_other hk hfree hj
    rw [← hat] at hb
    exact ⟨j, other, (named_created_other hk hfree hc hnul hne j).2 hj, hne, hb⟩

end Created

theorem isolated_iff_safeWrite (h : Inv s) (hr : Ready s pfs) (hdist : Distinct s.disk)
    (hnul : (0 : Byte) ∉ strBytes name) (len : Nat) : Isolated s name len ↔ SafeWrite s name len := by
  unfold Isolated SafeWrite
  rcases fsWrite_cases h.sound name with ⟨k, hn, -, heq⟩ | ⟨hnone, hnot, heq⟩ | ⟨hc, -, k, hk, hfree, heq⟩
  · simp only [heq]
    rw [isolated_named_iff h hr hdist hn]
    constructor
    · exact Or.imp_right Or.inr
    · rintro (h0 | ⟨hnone, -⟩ | hsafe)
      · exact Or.inl h0
      · exact absurd hn (hnone k)
      · exact Or.inr hsafe
  · simp_all
  · -- the new file is written like an existing one, in the state in which it has just been created
    have hr' : Ready (created k name s) pfs := hr.setDisk (h.toFormatted.setInode hk _) _
    have hiff := isolated_named_iff (h.created hk name) hr' (hdist.created hk hfree hc hnul)
      (named_created_self hk hfree hc hnul) len
    rw [freeFor_created h hk hfree hc hnul hdist, taken_created hk hfree hc hnul, inodeAt_created] at hiff
    have ho : ∀ other, other ≠ name → fsRead other (created k name s) = fsRead other s :=
      fun other hne => fsRead_created h hk hfree hc hnul hdist hne
    simp +contextual only [ne_eq, ho, not_false_eq_true] at hiff ⊢
    simp only [heq]
    rw [hiff]
    constructor
    · exact Or.imp_right Or.inr
    · rintro (h0 | ⟨-, hnot⟩ | hsafe)
      · exact Or.inl h0
      · exact absurd hc hnot
      · exact Or.inr hsafe

theorem fsWrite_one (h : Inv s) (hr : Ready s pfs) (hc : Creatable s.disk name)
    (hnul : (0 : Byte) ∉ strBytes name) (hfree : pfs.counts.Free 128) (x : Byte) :
    ∃ k, k < 256 ∧ (inodeAt s.disk k).inUse = 0 ∧ (fsWrite name [x] s).1 = true ∧
      Wrote (created k name s) k [128] [x] (pfs.counts.claim 128 1) (fsWrite name [x] s).2 := by
  rcases fsWrite_cases h.sound name with ⟨k, hn, -⟩ | ⟨-, hnot, -⟩ | ⟨-, -, k, hk, hslot, heq⟩
  · exact absurd hn (hc.2.1 k)
  · exact absurd ⟨hc, hnul⟩ hnot
  have hr' : Ready (created k name s) pfs := hr.setDisk (h.toFormatted.setInode hk _) _
  obtain ⟨s1, pfs1, o, hrel, hv, hca⟩ :=
    writeFile_wrote (h.created hk name) hr' hk inodeAt_created (fileOk_newFile _ _ _) Nat.one_pos
  obtain ⟨rfl, rfl⟩ := hrel.nil (hasRuns_newFile _ _ _).blocks_eq
  have hf : IsFirstRun pfs1.counts.Free 1 128 :=
    ⟨isRun_one.2 hfree, fun r hr => (isRun_one.1 hr).1⟩
  rw [heq]
  refine ⟨k, hk, hslot, ?_⟩
  cases o with
  | full => exact absurd hfree (hv 128)
  | split b j r => exact absurd hv.2.2.1 (by have := hv.1; omega)
  | noSlot b r => exact absurd hv.1 (by omega)
  | run r =>
    obtain rfl := hf.unique hv
    rcases hca [x] (by simp) with ⟨hnone, -⟩ | ⟨bs, hbs, htrue, hw⟩
    · cases hnone
    · obtain rfl : _ = bs := Option.some.inj hbs
      exact ⟨htrue, hw⟩

theorem fsRead_second_write (hd : s.disk.Sound) {a b : String} (hab : b ≠ a) (ha : (strBytes a).length < 48)
    (hb : (strBytes b).length < 48) (hanul : (0 : Byte) ∉ strBytes a) (hbnul : (0 : Byte) ∉ strBytes b) (x y : Byte) :
    fsRead a (run exec (formatMount s) [.write a [x]]) = some [x] ∧
      (fsWrite b [y] (run exec (formatMount s) [.write a [x]])).1 = true ∧
      fsRead a (fsWrite b [y] (run exec (formatMount s) [.write a [x]])).2 = some [y] := by
  obtain ⟨⟨pfs, hcl⟩, hem⟩ := clean_formatMount hd
  have hnone : ∀ j z, ¬ Named (formatMount s).disk j z := fun j z hj => hj.2.1 (hem j hj.1)
  have hdist : Distinct (formatMount s).disk := fun i j z hi => absurd hi (hnone i z)
  have hca : Creatable (formatMount s).disk a := ⟨ha, fun j => hnone j a, 0, by omega, hem 0 (by omega)⟩
  obtain ⟨k, hk, hslot, -, hw⟩ :=
    fsWrite_one hcl.inv hcl.ready hca hanul ((hcl.free_iff 128).2 ⟨by omega, by omega⟩) x
  change Wrote _ _ _ _ _ (run exec (formatMount s) [.write a [x]]) at hw
  generalize run exec (formatMount s) [.write a [x]] = s1 at hw
  have hna := named_created_self hk hslot hca hanul
  have hdist0 := hdist.created hk hslot hca hanul
  have hdist1 := hw.distinct hdist0
  -- block 128 is now in use, but the bit set is that of block 256
  obtain ⟨pfs1, hr1, hco1, -⟩ := hw.ready
  have hfree1 : pfs1.counts.Free 128 := by
    rw [hco1, Counts.free_claim]
    exact ⟨(hcl.free_iff 128).2 ⟨by omega, by omega⟩, by omega⟩
  have hcb : Creatable s1.disk b := by
    refine ⟨hb, fun j hj => ?_, ?_⟩
    · rw [hw.named, named_created_other hk hslot hca hanul hab] at hj
      exact hnone j b hj
    · obtain ⟨j, hj, hjk⟩ : ∃ j, j < 256 ∧ j ≠ k := ⟨if k = 0 then 1 else 0, by split <;> omega, by split <;> omega⟩
      refine ⟨j, hj, ?_⟩
      simp_all [created, hw.other j hj hjk, inodeAt_setInode]
  obtain ⟨k', hk', hslot', htrue, hw'⟩ := fsWrite_one hw.inv hr1 hcb hbnul hfree1 y
  have hna1 : Named s1.disk k a := (hw.named k a).2 hna
  have hna₀' : Named (created k' b s1).disk k a := (named_created_other hk' hslot' hcb hbnul (Ne.symm hab) k).2 hna1
  have hdist2 := hw'.distinct (hdist1.created hk' hslot' hcb hbnul)
  have hne : k ≠ k' := by
    rintro rfl
    exact hna1.2.1 hslot'
  refine ⟨?_, htrue, ?_⟩
  · rw [hw.fsRead_self hdist0 hna (by simp) (by simp), fileContent_storeBlocks _ (by simp) (by simp)]
  · rw [fsRead_eq hw'.inv hdist2 ((hw'.named k a).2 hna₀'), hw'.other k hk hne,
      inodeAt_created_other hk' hslot' hna1, hw.blocks, hw.size]
    have hsec : fileContent (fsWrite b [y] s1).2.disk [128] 1 =
        fileContent (storeBlocks [y] [128] (range 1) (created k' b s1).disk) [128] 1 :=
      fileContent_congr (by simp) fun c hc => hw'.sectors c (by simp at hc; omega)
    have hs : fileContent (storeBlocks [y] [128] (range 1) (created k' b s1).disk) [128] 1 = [y] :=
      fileContent_storeBlocks _ (by simp) (by simp)
    exact congrArg some (hsec.trans hs)

/-- In every state that calls reach from a fresh file system, a write is isolated for all data of its length exactly
if it is safe. -/
theorem fs_write_isolated_iff {s : FsState} (hd : s.disk.Sound) {cs : List Call} (hon : ∀ c ∈ cs, c.Online)
    (hnames : ∀ c ∈ cs, c.NulFree) {name : String} (hnul : (0 : Byte) ∉ strBytes name) (len : Nat) :
    Isolated (run exec (formatMount s) cs) name len ↔ SafeWrite (run exec (formatMount s) cs) name len := by
  obtain ⟨pfs, hr⟩ := mounted_run hd hon
  exact isolated_iff_safeWrite (inv_run hd cs) hr (distinct_run hd hnames) hnul len

theorem fs_write_isolated_iff_fresh :
    blankState.disk.Sound ∧ (0 : Byte) ∉ strBytes "a" ∧
      (Isolated (run exec (formatMount blankState) []) "a" 1 ↔
        SafeWrite (run exec (formatMount blankState) []) "a" 1) :=
  ⟨sound_blankState, by decide,
    fs_write_isolated_iff sound_blankState (fun _ h => by simp at h) (fun _ h => by simp at h) (by decide) 1⟩

/-- After `"a"` has been written, writing `"b"` changes what `"a"` reads as. -/
theorem fs_write_overwrites_other_file :
    (fsWrite "b" [2] (run exec (formatMount blankState) [.write "a" [1]])).1 = true ∧
      fsRead "a" (fsWrite "b" [2] (run exec (formatMount blankState) [.write "a" [1]])).2 ≠
        fsRead "a" (run exec (formatMount blankState) [.write "a" [1]]) := by
  obtain ⟨hread, htrue, hread'⟩ := fsRead_second_write (a := "a") (b := "b") sound_blankState (by decide) (by decide)
    (by decide) (by decide) (by decide) 1 2
  rw [hread, hread']
  exact ⟨htrue, by decide⟩

end AstralOS.Fs
