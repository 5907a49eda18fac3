import AstralOS.Fs.Runs
import AstralOS.Fs.Table

/-!
# File contents

The bytes of a file are read off its blocks (`fileContent`).  On a sound disk `readBlocks` returns them
(`readBlocks_eq`), and `writeBlocks` stores the data block by block (`storeBlocks`); where a block occurs twice in
the list the last store wins (`sectors_storeBlocks`).
-/

namespace AstralOS.Fs

open List

variable {d : Disk} {inode : Inode} {runs : List (Nat × Nat)}

def fileContent (d : Disk) (bs : List Nat) (size : Nat) : List Byte :=
  (List.range size).map fun p => byteAt (d.sectors (bs.getD (p / 512) 0)) (p % 512)

def storeBlocks (data : List Byte) (bs ls : List Nat) (d : Disk) : Disk :=
  ls.foldl (fun d l => d.setSector (bs.getD l 0) (dataSector data l)) d

/-! ### Reading -/

theorem getPhysicalBlock_of_lt (h : inode.HasRuns runs) (hb : ∀ b ∈ inode.blocks, b < 8192) {l : Nat}
    (hl : l < inode.blocks.length) :
    ∃ phys, inode.getPhysicalBlock (BitVec.ofNat 16 l) = some phys ∧ phys.toNat = inode.blocks.getD l 0 ∧
      inode.blocks.getD l 0 < 8192 := by
  have heq := h.blocks_eq
  have hlt : l < 2 ^ 16 := by
    have := h.total_lt
    rw [heq, length_blocksOf] at hl
    omega
  have hmem := hb _ (getElem_mem hl)
  rw [h.getPhysicalBlock_eq hlt, ← heq, getElem?_eq_getElem hl, getD_eq_getElem?_getD,
    getElem?_eq_getElem hl]
  simp [BitVec.toNat_ofNat, Option.getD_some]
  omega

theorem map_range_append_slice (d : Disk) (bs : List Nat) (size l : Nat) :
    (List.range (min (512 * l) size)).map (fun p => byteAt (d.sectors (bs.getD (p / 512) 0)) (p % 512)) ++
      slice (d.sectors (bs.getD l 0)) 0 (min (size - min (512 * l) size) 512) =
    (List.range (min (512 * (l + 1)) size)).map fun p => byteAt (d.sectors (bs.getD (p / 512) 0)) (p % 512) := by
  have hsum : min (512 * (l + 1)) size = min (512 * l) size + min (size - min (512 * l) size) 512 := by omega
  rw [hsum, range_add, map_append, map_map]
  congr 1
  apply map_congr_left
  grind

theorem readBlocks_range' (hd : d.Sound) (h : inode.HasRuns runs) (hb : ∀ b ∈ inode.blocks, b < 8192)
    (size n : Nat) : ∀ l, l + n = inode.blocks.length →
    readBlocks inode size d (List.range' l n) (fileContent d inode.blocks (min (512 * l) size)) =
      some (fileContent d inode.blocks (min (512 * (l + n)) size)) := by
  induction n with
  | zero => intro l _; rfl
  | succ n ih =>
    intro l hl
    obtain ⟨phys, hphys, heq, hlt⟩ := getPhysicalBlock_of_lt h hb (show l < inode.blocks.length by omega)
    have hlen : (fileContent d inode.blocks (min (512 * l) size)).length = min (512 * l) size := by
      simp [fileContent]
    rw [range'_succ, readBlocks]
    simp only [hphys, heq, hd.diskReadSector_eq hlt, hlen]
    have hstep := map_range_append_slice d inode.blocks size l
    rw [show fileContent d inode.blocks (min (512 * l) size) ++ _ = fileContent d inode.blocks (min (512 * (l + 1)) size)
      from hstep, ih (l + 1) (by omega), show l + 1 + n = l + (n + 1) by omega]

theorem readBlocks_eq (hd : d.Sound) (h : inode.HasRuns runs) (hb : ∀ b ∈ inode.blocks, b < 8192) {size : Nat}
    (hsize : inode.blocks.length = (size + 512 - 1) / 512) :
    readBlocks inode size d (List.range ((size + 512 - 1) / 512)) [] =
      some (fileContent d inode.blocks size) := by
  have := readBlocks_range' hd h hb size inode.blocks.length 0 (by omega)
  rw [range_eq_range', ← hsize]
  rwa [Nat.zero_add, show min (512 * inode.blocks.length) size = size by omega, Nat.mul_zero, Nat.zero_min] at this

theorem fileContent_congr {d' : Disk} {bs : List Nat} {size : Nat} (hsize : size ≤ 512 * bs.length)
    (h : ∀ b ∈ bs, d'.sectors b = d.sectors b) : fileContent d' bs size = fileContent d bs size := by
  apply map_congr_left
  grind

theorem getElem?_fileContent (d : Disk) (bs : List Nat) {size p : Nat} (hp : p < size) :
    (fileContent d bs size)[p]? = some (byteAt (d.sectors (bs.getD (p / 512) 0)) (p % 512)) := by
  simp_all [fileContent]

/-! ### Writing -/

theorem writeBlocks_eq (hd : d.Sound) (h : inode.HasRuns runs) (hb : ∀ b ∈ inode.blocks, b < 8192) (data : List Byte)
    {ls : List Nat} (hls : ∀ l ∈ ls, l < inode.blocks.length) :
    writeBlocks data inode ls d = (true, storeBlocks data inode.blocks ls d) := by
  induction ls generalizing d with
  | nil => rfl
  | cons l ls ih =>
    obtain ⟨phys, hphys, heq, hlt⟩ := getPhysicalBlock_of_lt h hb (hls l (by simp))
    rw [writeBlocks]
    simp only [hphys, heq, hd.diskWriteSector_eq hlt]
    rw [ih (hd.setSector _ _) fun l hl => hls l (by simp [hl])]
    rfl

theorem Disk.Sound.storeBlocks (hd : d.Sound) (data : List Byte) (bs ls : List Nat) :
    (storeBlocks data bs ls d).Sound := by
  unfold Fs.storeBlocks
  induction ls generalizing d with
  | nil => exact hd
  | cons l ls ih => exact ih (hd.setSector _ _)

theorem sectors_storeBlocks (data : List Byte) (bs : List Nat) (d : Disk) (n k : Nat) :
    ((∀ l, l < k → bs.getD l 0 ≠ n) ∧ (storeBlocks data bs (List.range k) d).sectors n = d.sectors n) ∨
    (∃ l, l < k ∧ bs.getD l 0 = n ∧ (∀ l', l < l' → l' < k → bs.getD l' 0 ≠ n) ∧
      (storeBlocks data bs (List.range k) d).sectors n = dataSector data l) := by
  induction k with
  | zero => exact Or.inl ⟨fun l hl => by omega, rfl⟩
  | succ k ih =>
    have hstep : (storeBlocks data bs (range (k + 1)) d).sectors n =
        if n = bs.getD k 0 then dataSector data k else (storeBlocks data bs (range k) d).sectors n := by
      unfold storeBlocks
      rw [range_succ, foldl_append, foldl_cons, foldl_nil, Disk.sectors_setSector]
    rw [hstep]
    by_cases hk : bs.getD k 0 = n
    · grind
    · rw [if_neg (Ne.symm hk)]
      have hext : ∀ l, l < k + 1 → l = k ∨ l < k := fun l hl => by omega
      rcases ih with ⟨hnone, heq⟩ | ⟨l, hl, hbl, hlast, heq⟩
      · left
        refine ⟨fun l hl => ?_, heq⟩
        rcases hext l hl with rfl | hlt
        · exact hk
        · exact hnone l hlt
      · right
        refine ⟨l, by omega, hbl, fun l' h1 h2 => ?_, heq⟩
        rcases hext l' h2 with rfl | hlt
        · exact hk
        · exact hlast l' h1 hlt

theorem sectors_storeBlocks_of_notMem (data : List Byte) {bs : List Nat} (d : Disk) {n : Nat} (hn : n ∉ bs) :
    (storeBlocks data bs (List.range bs.length) d).sectors n = d.sectors n := by
  rcases sectors_storeBlocks data bs d n bs.length with ⟨-, h⟩ | ⟨l, hl, hbl, -⟩
  · exact h
  · grind

theorem byteAt_dataSector (data : List Byte) (l : Nat) {i : Nat} (hi : i < 512) :
    byteAt (dataSector data l) i = data.getD (512 * l + i) 0 := by
  unfold dataSector
  rw [byteAt_splice _ _ _ hi]
  have hlen : ((data.drop (l * 512)).take (min (l * 512 + 512) data.length - l * 512)).length =
      min (l * 512 + 512) data.length - l * 512 := by
    simp
    omega
  split
  · grind
  · have hge : data.length ≤ 512 * l + i := by omega
    simp_all [byteAt_of_lt _ hi, emptySector]

theorem fileContent_storeBlocks {data : List Byte} {bs : List Nat} (d : Disk) (hn : bs.Nodup)
    (hlen : data.length ≤ 512 * bs.length) :
    fileContent (storeBlocks data bs (List.range bs.length) d) bs data.length = data := by
  apply ext_getElem?
  intro p
  rcases Nat.lt_or_ge p data.length with hp | hp
  · have hl : p / 512 < bs.length := by omega
    rw [getElem?_fileContent _ _ hp]
    have hsec : (storeBlocks data bs (range bs.length) d).sectors (bs.getD (p / 512) 0) =
        dataSector data (p / 512) := by
      rcases sectors_storeBlocks data bs d (bs.getD (p / 512) 0) bs.length with ⟨hnone, -⟩ | ⟨l, hl', hbl, -, heq⟩
      · exact absurd rfl (hnone _ hl)
      · simp_all [Option.getD_some, hn.getElem_inj_iff]
    rw [hsec, byteAt_dataSector _ _ (Nat.mod_lt _ (by omega)), Nat.div_add_mod, getD_eq_getElem?_getD,
      getElem?_eq_getElem hp, Option.getD_some]
  · rw [getElem?_eq_none hp, getElem?_eq_none (by simp [fileContent, hp])]

end AstralOS.Fs
