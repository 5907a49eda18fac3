import AstralOS.Fs.PsychicFs

/-!
# The inode table

On a disk whose sector operations succeed (`Disk.Sound`) the 64 sectors of the inode table are an array of 256
inodes, `inodeAt d k`.  The two searches are searches of this array (`findInodeByName_cases`,
`findFreeInode_cases`), and `writeInode` updates one entry of it (`writeInode_eq`, `inodeAt_setInode`).  Writes to
the other sectors leave the array alone (`inodeAt_setSector`).
-/

namespace AstralOS.Fs

open List

section

variable (d : Disk)

/-- A disk of at least 8192 sectors whose sector reads and writes always succeed. -/
def Disk.Sound : Prop := d.present = true ∧ ∀ n, n < 8192 → d.fails n = false

def Disk.setSector (n : Nat) (b : Sector) : Disk :=
  { d with sectors := Function.update d.sectors n b }

def inodeAt (k : Nat) : Inode := inodeOfSector (d.sectors (1 + k / 4)) (k % 4)

def Named (k : Nat) (name : String) : Prop :=
  k < 256 ∧ (inodeAt d k).inUse ≠ 0 ∧ (inodeAt d k).getName = name

def Disk.setInode (k : Nat) (inode : Inode) : Disk :=
  d.setSector (1 + k / 4) (splice (d.sectors (1 + k / 4)) (k % 4 * 128) (inodeToBytes inode))

end

/-! ### Sectors -/

variable {d : Disk}

theorem Disk.Sound.diskReadSector_eq (hd : d.Sound) {n : Nat} (h : n < 8192) :
    d.diskReadSector n = some (d.sectors n) := by
  simp [diskReadSector, hd.2 n h]

theorem Disk.Sound.diskWriteSector_eq (hd : d.Sound) {n : Nat} (h : n < 8192) (b : Sector) :
    d.diskWriteSector n b = some (d.setSector n b) := by
  simp [diskWriteSector, setSector, hd.2 n h]

theorem Disk.Sound.setSector (hd : d.Sound) (n : Nat) (b : Sector) : (d.setSector n b).Sound := hd

theorem Disk.Sound.setInode (hd : d.Sound) (k : Nat) (inode : Inode) : (d.setInode k inode).Sound := hd

@[simp] theorem Disk.sectors_setSector (n : Nat) (b : Sector) (m : Nat) :
    (d.setSector n b).sectors m = if m = n then b else d.sectors m := by
  simp [setSector, Function.update_apply]

theorem inodeAt_congr {d' : Disk} {k : Nat} (hk : k < 256) (h : ∀ n, 1 ≤ n → n ≤ 64 → d'.sectors n = d.sectors n) :
    inodeAt d' k = inodeAt d k := by
  grind [inodeAt]

theorem inodeAt_setSector {n k : Nat} (hk : k < 256) (hn : n = 0 ∨ 65 ≤ n) (b : Sector) :
    inodeAt (d.setSector n b) k = inodeAt d k := by
  apply inodeAt_congr hk
  simp [Disk.sectors_setSector]
  omega

theorem Disk.sectors_setInode {k n : Nat} (hk : k < 256) (hn : n = 0 ∨ 65 ≤ n) (inode : Inode) :
    (d.setInode k inode).sectors n = d.sectors n := by
  simp [setInode, sectors_setSector]
  omega

theorem inodeOfSector_splice_same (buffer : Sector) {i : Nat} (hi : i < 4) (inode : Inode) :
    inodeOfSector (splice buffer (i * 128) (inodeToBytes inode)) i = inode := by
  have hlen := length_inodeToBytes inode
  have := slice_splice_same buffer (i * 128) (inodeToBytes inode) (by omega)
  rw [hlen] at this
  rw [inodeOfSector, this, bytesToInode_inodeToBytes]

theorem inodeOfSector_splice_ne (buffer : Sector) {i j : Nat} (hj : j < 4) (hij : i ≠ j) (inode : Inode) :
    inodeOfSector (splice buffer (i * 128) (inodeToBytes inode)) j = inodeOfSector buffer j := by
  have hlen := length_inodeToBytes inode
  unfold inodeOfSector
  rw [slice_splice_disjoint buffer (by omega)]
  omega

theorem inodeAt_setInode (k : Nat) (inode : Inode) (j : Nat) :
    inodeAt (d.setInode k inode) j = if j = k then inode else inodeAt d j := by
  unfold inodeAt Disk.setInode
  rw [Disk.sectors_setSector]
  by_cases hjk : j = k
  · subst hjk
    rw [if_pos rfl, if_pos rfl, inodeOfSector_splice_same _ (Nat.mod_lt _ (by omega))]
  · split
    · rw [inodeOfSector_splice_ne _ (Nat.mod_lt _ (by omega)) (by omega)]
      congr 2
      omega
    · rfl

theorem writeInode_eq (hd : d.Sound) {k : Nat} (hk : k < 256) (inode : Inode) :
    writeInode k inode d = (true, d.setInode k inode) := by
  have hread := hd.diskReadSector_eq (show 1 + k / 4 < 8192 by omega)
  have hw := hd.diskWriteSector_eq (show 1 + k / 4 < 8192 by omega)
    (splice (d.sectors (1 + k / 4)) (k % 4 * 128) (inodeToBytes inode))
  have hv := (hd.setInode k inode).diskReadSector_eq (show 1 + k / 4 < 8192 by omega)
  have hslot : inodeOfSector ((d.setInode k inode).sectors (1 + k / 4)) (k % 4) = inode := by
    have := inodeAt_setInode (d := d) k inode k
    rwa [if_pos rfl] at this
  unfold writeInode
  simp only [hread, hw]
  rw [show d.setSector (1 + k / 4) (splice (d.sectors (1 + k / 4)) (k % 4 * 128) (inodeToBytes inode)) =
    d.setInode k inode from rfl]
  simp [hv, hslot]

/-! ### The searches -/

theorem findSome?_flatMap' {α β γ : Type} (l : List α) (g : α → List β) (f : β → Option γ) :
    (l.flatMap g).findSome? f = l.findSome? fun a => (g a).findSome? f := by
  induction l with
  | nil => rfl
  | cons a l ih =>
    grind

theorem findSome?_congr' {α γ : Type} {l : List α} {f g : α → Option γ} (h : ∀ a ∈ l, f a = g a) :
    l.findSome? f = l.findSome? g := by
  induction l with
  | nil => rfl
  | cons a l ih =>
    rw [findSome?_cons, findSome?_cons, h a (by simp), ih fun b hb => h b (by simp [hb])]

theorem range_slots (n : Nat) :
    List.range (n * 4) = (List.range n).flatMap fun s => (List.range 4).map fun i => s * 4 + i := by
  induction n with
  | zero => rfl
  | succ n ih =>
    rw [Nat.succ_mul, range_add, ih, @range_succ n, flatMap_append, flatMap_singleton]

theorem findSome?_slots {γ : Type} (f : Nat → Option γ) :
    ((List.range 64).findSome? fun s => (List.range 4).findSome? fun i => f (s * 4 + i)) =
      (List.range 256).findSome? f := by
  rw [show 256 = 64 * 4 from rfl, range_slots, findSome?_flatMap']
  simp only [findSome?_map, Function.comp_def]

theorem inodeAt_slot (d : Disk) {s i : Nat} (hi : i < 4) :
    inodeAt d (s * 4 + i) = inodeOfSector (d.sectors (1 + s)) i := by
  grind [inodeAt]

theorem findInodeByName_eq (hd : d.Sound) (name : String) :
    findInodeByName name d = (List.range 256).findSome? fun k =>
      if (inodeAt d k).inUse ≠ 0 ∧ (inodeAt d k).getName = name then some (k, inodeAt d k) else none := by
  rw [← findSome?_slots]
  apply findSome?_congr'
  intro s hs
  have hs' := mem_range.1 hs
  rw [hd.diskReadSector_eq (by omega)]
  apply findSome?_congr'
  intro i hi
  rw [inodeAt_slot d (mem_range.1 hi)]

theorem findFreeInode_eq (hd : d.Sound) :
    findFreeInode d = (List.range 256).findSome? fun k => if (inodeAt d k).inUse = 0 then some k else none := by
  rw [← findSome?_slots]
  apply findSome?_congr'
  intro s hs
  have hs' := mem_range.1 hs
  rw [hd.diskReadSector_eq (by omega)]
  apply findSome?_congr'
  intro i hi
  rw [inodeAt_slot d (mem_range.1 hi)]

theorem fsList_eq {s : FsState} (hd : s.disk.Sound) :
    fsList s = (List.range 256).filterMap fun k =>
      if (inodeAt s.disk k).inUse ≠ 0 then some (inodeAt s.disk k).getName else none := by
  rw [show 256 = 64 * 4 from rfl, range_slots, filterMap_flatMap]
  apply flatMap_congr
  intro n hn
  have hn' := mem_range.1 hn
  rw [hd.diskReadSector_eq (by omega), filterMap_map]
  apply filterMap_congr
  intro i hi
  rw [Function.comp_apply, inodeAt_slot s.disk (mem_range.1 hi)]

theorem findInodeByName_congr {d' : Disk} (hd : d.Sound) (hd' : d'.Sound)
    (h : ∀ k, k < 256 → inodeAt d' k = inodeAt d k) (name : String) :
    findInodeByName name d' = findInodeByName name d := by
  rw [findInodeByName_eq hd, findInodeByName_eq hd']
  apply findSome?_congr'
  intro k hk
  rw [h k (mem_range.1 hk)]

theorem findSome?_range_cases (n : Nat) (p : Nat → Prop) [DecidablePred p] (g : Nat → γ) :
    (∃ k, k < n ∧ p k ∧ (List.range n).findSome? (fun k => if p k then some (g k) else none) = some (g k)) ∨
      ((∀ k, k < n → ¬p k) ∧ (List.range n).findSome? (fun k => if p k then some (g k) else none) = none) := by
  cases h : (range n).findSome? fun k => if p k then some (g k) else none with
  | none =>
    grind
  | some r =>
    obtain ⟨l1, k, l2, hl, hf, -⟩ := findSome?_eq_some_iff.1 h
    have hk : k < n := mem_range.1 (by rw [hl]; simp)
    split at hf
    · grind
    · cases hf

theorem findInodeByName_cases (hd : d.Sound) (name : String) :
    (∃ k, Named d k name ∧ findInodeByName name d = some (k, inodeAt d k)) ∨
      ((∀ k, ¬ Named d k name) ∧ findInodeByName name d = none) := by
  rw [findInodeByName_eq hd]
  rcases findSome?_range_cases 256 (fun k => (inodeAt d k).inUse ≠ 0 ∧ (inodeAt d k).getName = name)
    (fun k => (k, inodeAt d k)) with ⟨k, hk, hp, heq⟩ | ⟨hno, heq⟩
  · exact Or.inl ⟨k, ⟨hk, hp⟩, heq⟩
  · exact Or.inr ⟨fun k hn => hno k hn.1 hn.2, heq⟩

theorem findFreeInode_cases (hd : d.Sound) :
    (∃ k, k < 256 ∧ (inodeAt d k).inUse = 0 ∧ findFreeInode d = some k) ∨
      ((∀ k, k < 256 → (inodeAt d k).inUse ≠ 0) ∧ findFreeInode d = none) := by
  rw [findFreeInode_eq hd]
  exact findSome?_range_cases 256 (fun k => (inodeAt d k).inUse = 0) id

end AstralOS.Fs
