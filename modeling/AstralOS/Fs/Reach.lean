import AstralOS.Fs.Calls

/-!
# Reachable states

`fs_write` and `fs_delete` case by case, and the three facts that hold along runs: `Inv` in every state that calls
reach from a formatted disk (`inv_run`), a mounted file system as long as it is not unmounted (`mounted_run`), and
distinct names as long as the names given to the calls have no NUL byte (`distinct_run`).
-/

namespace AstralOS.Fs

variable {s : FsState} {pfs : PsychicFs} {inode : Inode} {name : String} {k : Nat} {data : List Byte}

/-! ### The state after a successful write -/

variable {n : Nat}

theorem sectors_storeBlocks_low (hok : FileOk inode) (d : Disk) (hn : n < 128) :
    (storeBlocks data inode.blocks (List.range inode.blocks.length) d).sectors n = d.sectors n :=
  sectors_storeBlocks_of_notMem data d fun hmem => by have := (hok.bounds n hmem).1; omega

theorem ready_stored (h : Ready s pfs) (hk : k < 256) (hok : FileOk inode) :
    Ready { s with
      disk := (storeBlocks data inode.blocks (List.range inode.blocks.length) s.disk).setInode k inode
      clock := fun n => s.clock (n + 1) } pfs := by
  have hf : Formatted (storeBlocks data inode.blocks (List.range inode.blocks.length) s.disk) :=
    h.toFormatted.congr (h.sound.storeBlocks _ _ _) (sectors_storeBlocks_low hok s.disk (by omega))
  exact h.setDisk (hf.setInode hk inode) _

theorem written_eq (h : Ready s pfs) (hk : k < 256) (hok : FileOk inode) :
    written s k inode data = { s with
      disk := ((storeBlocks data inode.blocks (List.range inode.blocks.length) s.disk).setInode k inode).synced pfs
      psychicFs := some pfs.synced
      clock := fun n => s.clock (n + 1) } := by
  unfold written
  rw [fsSync_eq (ready_stored h hk hok)]

theorem written_ready (h : Ready s pfs) (hk : k < 256) (hok : FileOk inode) :
    Ready (written s k inode data) pfs.synced := by
  rw [written_eq h hk hok]
  exact (ready_stored h hk hok).synced

variable {j : Nat}

theorem inodeAt_written (h : Ready s pfs) (hk : k < 256) (hok : FileOk inode) (hj : j < 256) :
    inodeAt (written s k inode data).disk j = if j = k then inode else inodeAt s.disk j := by
  rw [written_eq h hk hok]
  rw [(sameFiles_synced _ _).inodeAt_eq hj, inodeAt_setInode]
  grind [inodeAt_congr, sectors_storeBlocks_low]

theorem sectors_written (h : Ready s pfs) (hk : k < 256) (hok : FileOk inode) (hn : 128 ≤ n) :
    (written s k inode data).disk.sectors n =
      (storeBlocks data inode.blocks (List.range inode.blocks.length) s.disk).sectors n := by
  rw [written_eq h hk hok]
  rw [(sameFiles_synced _ _).sectors n (by omega) (by omega) (by omega), Disk.sectors_setInode hk (by omega)]

/-! ### Without a mounted file system -/

theorem freeExtents_unmounted (h : s.psychicFs = none) (inode : Inode) : freeExtents inode s = s := by
  have hb : ∀ b, freeBlock b s = s := by
    intro b
    unfold freeBlock
    rw [h]
  have hr : ∀ (l : List Nat) (f : Nat → Nat), l.foldl (fun s i => freeBlock (f i) s) s = s := by
    intro l f
    induction l with
    | nil => rfl
    | cons i l ih => rw [List.foldl_cons, hb, ih]
  unfold freeExtents
  induction inode.extents.toList with
  | nil => rfl
  | cons e es ih =>
    rw [List.foldl_cons]
    split
    · rw [freeBlockRange, hr, ih]
    · exact ih

theorem writeFile_unmounted (h : s.psychicFs = none) (hdata : data ≠ []) :
    writeFile k inode data s = (false, s) := by
  have hpos := blocksNeeded_pos hdata
  grind [findContiguousBlocks, writeFile, allocateBlocks, freeExtents_unmounted]

/-! ### Writing -/

theorem writeFile_nil (hd : s.disk.Sound) (hk : k < 256) (inode : Inode) :
    writeFile k inode [] s =
      (true, { s with disk := s.disk.setInode k { inode with size := 0 }.clearExtents }) := by
  unfold writeFile
  simp only [List.length_nil, Nat.zero_add, Nat.reduceSub, Nat.reduceDiv, ↓reduceIte]
  rw [writeInode_eq hd hk]

theorem fileOk_emptied (inode : Inode) : FileOk { inode with size := 0 }.clearExtents :=
  (Inode.hasRuns_clearExtents _).fileOk_nil rfl

def created (k : Nat) (name : String) (s : FsState) : FsState :=
  { s with disk := s.disk.setInode k (newFile name (s.clock 0) (s.clock 1)), clock := fun n => s.clock (n + 2) }

theorem fsWrite_cases (hd : s.disk.Sound) (name : String) :
    (∃ k, Named s.disk k name ∧ findInodeByName name s.disk = some (k, inodeAt s.disk k) ∧
      ∀ data, fsWrite name data s = writeFile k (inodeAt s.disk k) data s) ∨
    ((∀ k, ¬ Named s.disk k name) ∧ ¬ (Creatable s.disk name ∧ (0 : Byte) ∉ strBytes name) ∧
      ∀ data, fsWrite name data s = (false, (fsCreate name s).2)) ∨
    (Creatable s.disk name ∧ (0 : Byte) ∉ strBytes name ∧ ∃ k, k < 256 ∧ (inodeAt s.disk k).inUse = 0 ∧
      ∀ data, fsWrite name data s =
        writeFile k (newFile name (s.clock 0) (s.clock 1)) data (created k name s)) := by
  unfold fsWrite
  rcases findInodeByName_cases hd name with ⟨k, hn, hfind⟩ | ⟨hnone, hfind⟩
  · simp_all
  right
  rw [hfind]
  rcases fsCreate_cases hd name with ⟨hnot, hcr⟩ | ⟨hc, k, hk, hfree, hcr⟩
  · simp_all
  have hcr' : fsCreate name s = (true, created k name s) := hcr
  have hs : (created k name s).disk.Sound := hd.setInode k _
  rw [hcr']
  -- only the new inode can have the name, and it has it unless the name was cut at a NUL
  have honly : ∀ j, Named (created k name s).disk j name → j = k := by
    intro j hj
    by_contra hne
    refine hnone j ⟨hj.1, ?_⟩
    have := hj.2
    rwa [created, inodeAt_setInode, if_neg hne] at this
  rcases findInodeByName_cases hs name with ⟨j, hj, hfind'⟩ | ⟨hnone', hfind'⟩
  · right
    obtain rfl := honly j hj
    have hnul : (0 : Byte) ∉ strBytes name := by
      rw [← hj.2.2]
      exact Inode.zero_notMem_getName _
    grind [created, inodeAt_setInode]
  · left
    refine ⟨hnone, fun h => ?_, fun data => by simp only [hfind']⟩
    apply hnone' k
    refine ⟨hk, ?_⟩
    rw [created, inodeAt_setInode, if_pos rfl]
    exact ⟨by simp [newFile], getName_newFile h.1.1 h.2⟩

/-! ### Deleting -/

def deletedInode (inode : Inode) : Inode := { inode.clearExtents with inUse := 0, size := 0 }

theorem fsDelete_cases (h : Inv s) (name : String) :
    ((∀ k, ¬ Named s.disk k name) ∧ fsDelete name s = (false, s)) ∨
    (∃ k, Named s.disk k name ∧
      fsDelete name s = (true, { freeExtents (inodeAt s.disk k) s with
        disk := (freeExtents (inodeAt s.disk k) s).disk.setInode k (deletedInode (inodeAt s.disk k)) })) := by
  unfold fsDelete
  rcases findInodeByName_cases h.sound name with ⟨k, hn, hfind⟩ | ⟨hnone, hfind⟩
  · right
    refine ⟨k, hn, ?_⟩
    have hok := h.fileOk hn
    obtain ⟨runs, hr⟩ := hok.runs
    have hs : (freeExtents (inodeAt s.disk k) s).disk.Sound := by
      cases hfs : s.psychicFs with
      | none => rw [freeExtents_unmounted hfs]; exact h.sound
      | some pfs =>
        obtain ⟨pfs1, hrel⟩ := freeExtents_released (h.ready pfs hfs) hok
        exact hrel.ready.sound
    simp only [hfind, hr.indirect_eq, ne_eq, not_true_eq_false, ↓reduceIte, writeInode_eq hs hn.1]
    rfl
  · left
    exact ⟨hnone, by rw [hfind]⟩

/-! ### The invariant -/

section

variable (h : Inv s)
include h

theorem Inv.freeExtents (hok : FileOk inode) : Inv (freeExtents inode s) := by
  cases hfs : s.psychicFs with
  | none => rw [freeExtents_unmounted hfs]; exact h
  | some pfs =>
    obtain ⟨pfs1, hrel⟩ := freeExtents_released (h.ready pfs hfs) hok
    exact hrel.ready.inv (h.files.sameFiles hrel.files)

theorem Inv.created (hk : k < 256) (name : String) : Inv (created k name s) :=
  h.setInode hk (fun _ => fileOk_newFile _ _ _) _

theorem Inv.fsCreate (name : String) : Inv (fsCreate name s).2 := by
  rcases fsCreate_cases h.sound name with ⟨-, heq⟩ | ⟨-, k, hk, -, heq⟩
  · rw [heq]; exact h
  · rw [heq]; exact h.created hk name

theorem Inv.writeFile (hk : k < 256) (hok : FileOk inode) (data : List Byte) :
    Inv (writeFile k inode data s).2 := by
  rcases eq_or_ne data [] with rfl | hdata
  · rw [writeFile_nil h.sound hk]
    exact h.setInode hk (fun _ => fileOk_emptied inode) _
  cases hfs : s.psychicFs with
  | none => rw [writeFile_unmounted hfs hdata]; exact h
  | some pfs =>
    obtain ⟨s1, pfs1, o, hrel, -, hc⟩ := writeFile_cases (h.ready pfs hfs) hk hok (blocksNeeded_pos hdata)
    rcases hc data rfl with ⟨-, heq⟩ | ⟨inode', -, hok', -, -, -, heq⟩
    · rw [heq]
      exact (hrel.ready.withCounts _).inv (h.files.sameFiles hrel.files)
    · rw [heq]
      have hr := hrel.ready.withCounts (o.counts pfs1.counts ((data.length + 512 - 1) / 512))
      refine (written_ready hr hk hok').inv ?_
      intro j hj hu
      have hat : inodeAt (written _ k inode' data).disk j = _ := inodeAt_written hr hk hok' hj
      rw [hat] at hu ⊢
      split at hu
      · grind
      · rename_i hjk
        rw [if_neg hjk]
        exact h.files.sameFiles hrel.files j hj hu

theorem Inv.fsWrite (name : String) (data : List Byte) : Inv (fsWrite name data s).2 := by
  rcases fsWrite_cases h.sound name with ⟨k, hn, -, heq⟩ | ⟨-, -, heq⟩ | ⟨-, -, k, hk, -, heq⟩
  · rw [heq]; exact h.writeFile hn.1 (h.fileOk hn) data
  · rw [heq]; exact h.fsCreate name
  · rw [heq]; exact (h.created hk name).writeFile hk (fileOk_newFile _ _ _) data

theorem Inv.fsDelete (name : String) : Inv (fsDelete name s).2 := by
  rcases fsDelete_cases h name with ⟨-, heq⟩ | ⟨k, hn, heq⟩
  · rw [heq]; exact h
  · rw [heq]
    exact (h.freeExtents (h.fileOk hn)).setInode hn.1 (fun hu => absurd rfl hu) _

theorem Inv.fsSync : Inv (fsSync s) := by
  cases hfs : s.psychicFs with
  | none =>
    unfold Fs.fsSync
    rw [hfs]
    exact h
  | some pfs =>
    have hr := h.ready pfs hfs
    rw [fsSync_eq hr]
    exact hr.synced.inv (h.files.sameFiles (sameFiles_synced _ _))

end

theorem inv_formatMount (hd : s.disk.Sound) : Inv (formatMount s) := by
  obtain ⟨d, heq, hf, -, hfree, -⟩ := fsFormat_spec hd
  unfold formatMount
  rw [heq]
  exact (fsMount_ready hf).inv fun k hk hu => absurd (by rw [fsMount_eq hf]; exact hfree k hk) hu

theorem Inv.exec (h : Inv s) (c : Call) : Inv (exec s c) := by
  cases c with
  | format =>
    obtain ⟨d, heq, hf, -, hfree, -⟩ := fsFormat_spec h.sound
    simp only [Fs.exec, heq]
    exact ⟨hf, fun pfs hpfs => (h.ready pfs hpfs).setDisk hf _, fun k hk hu => absurd (hfree k hk) hu⟩
  | mount =>
    have hr := fsMount_ready h.toFormatted
    refine hr.inv ?_
    rw [fsMount_eq h.toFormatted]
    exact h.files
  | unmount =>
    have hs := h.fsSync
    exact ⟨hs.toFormatted, fun _ hpfs => (Option.some_ne_none _ hpfs.symm).elim, hs.files⟩
  | sync => exact h.fsSync
  | create name => exact h.fsCreate name
  | write name data => exact h.fsWrite name data
  | delete name => exact h.fsDelete name

theorem inv_run (hd : s.disk.Sound) (cs : List Call) : Inv (run exec (formatMount s) cs) :=
  run_invariant (Q := fun _ => True) (fun _ c h _ => h.exec c) (inv_formatMount hd) fun _ _ => trivial

/-! ### Staying mounted -/

def Call.Online : Call → Prop
  | .sync | .create _ | .write _ _ | .delete _ => True
  | _ => False

theorem freeExtents_isSome (h : Inv s) (hok : FileOk inode) (hs : s.psychicFs.isSome) :
    (freeExtents inode s).psychicFs.isSome := by
  obtain ⟨pfs, hpfs⟩ := Option.isSome_iff_exists.1 hs
  obtain ⟨pfs1, hrel⟩ := freeExtents_released (h.ready pfs hpfs) hok
  rw [hrel.ready.fs_eq]
  rfl

theorem fsCreate_isSome (hd : s.disk.Sound) (hs : s.psychicFs.isSome) (name : String) :
    (fsCreate name s).2.psychicFs.isSome := by
  rcases fsCreate_cases hd name with ⟨-, heq⟩ | ⟨-, k, -, -, heq⟩
  · rw [heq]; exact hs
  · rw [heq]; exact hs

theorem writeFile_isSome (h : Inv s) (hk : k < 256) (hok : FileOk inode) (hs : s.psychicFs.isSome) (data : List Byte) :
    (writeFile k inode data s).2.psychicFs.isSome := by
  rcases eq_or_ne data [] with rfl | hdata
  · exact hs
  obtain ⟨pfs, hpfs⟩ := Option.isSome_iff_exists.1 hs
  obtain ⟨s1, pfs1, o, hrel, -, hc⟩ := writeFile_cases (h.ready pfs hpfs) hk hok (blocksNeeded_pos hdata)
  rcases hc data rfl with ⟨-, heq⟩ | ⟨inode', -, hok', -, -, -, heq⟩
  · rw [heq]; rfl
  · rw [heq, (written_ready (hrel.ready.withCounts _) hk hok').fs_eq]
    rfl

theorem exec_isSome (h : Inv s) (hs : s.psychicFs.isSome) {c : Call} (hc : c.Online) :
    (exec s c).psychicFs.isSome := by
  cases c with
  | format | mount | unmount => exact hc.elim
  | sync =>
    obtain ⟨pfs, hpfs⟩ := Option.isSome_iff_exists.1 hs
    simp only [exec, fsSync_eq (h.ready pfs hpfs), Option.isSome_some]
  | create name => exact fsCreate_isSome h.sound hs name
  | write name data =>
    simp only [exec]
    rcases fsWrite_cases h.sound name with ⟨k, hn, -, heq⟩ | ⟨-, -, heq⟩ | ⟨-, -, k, hk, -, heq⟩
    · rw [heq]; exact writeFile_isSome h hn.1 (h.fileOk hn) hs data
    · rw [heq]; exact fsCreate_isSome h.sound hs name
    · rw [heq]; exact writeFile_isSome (h.created hk name) hk (fileOk_newFile _ _ _) hs data
  | delete name =>
    grind [exec, fsDelete_cases, freeExtents_isSome, Inv.fileOk]

theorem formatMount_isSome (hd : s.disk.Sound) : (formatMount s).psychicFs.isSome := by
  obtain ⟨d, heq, hf, -⟩ := fsFormat_spec hd
  unfold formatMount
  rw [heq, (fsMount_ready hf).fs_eq]
  rfl

theorem mounted_run (hd : s.disk.Sound) {cs : List Call} (hcs : ∀ c ∈ cs, c.Online) :
    ∃ pfs, Ready (run exec (formatMount s) cs) pfs := by
  have h : Inv (run exec (formatMount s) cs) ∧ (run exec (formatMount s) cs).psychicFs.isSome :=
    run_invariant (P := fun s => Inv s ∧ s.psychicFs.isSome) (fun _ c h hc => ⟨h.1.exec c, exec_isSome h.1 h.2 hc⟩)
      ⟨inv_formatMount hd, formatMount_isSome hd⟩ hcs
  obtain ⟨pfs, hpfs⟩ := Option.isSome_iff_exists.1 h.2
  exact ⟨pfs, h.1.ready pfs hpfs⟩

/-! ### Distinct names -/

def Distinct (d : Disk) : Prop := ∀ i j name, Named d i name → Named d j name → i = j

variable {d d' : Disk} {x : String}

theorem named_congr (h : ∀ k, k < 256 → inodeAt d' k = inodeAt d k) : Named d' j x ↔ Named d j x := by
  unfold Named
  constructor
  · grind
  · simp_all

theorem SameFiles.named_iff (h : SameFiles d d') : Named d' j x ↔ Named d j x :=
  named_congr fun _ hk => h.inodeAt_eq hk

theorem named_setInode (hk : k < 256) (hu : inode.inUse = (inodeAt d k).inUse) (hn : inode.name = (inodeAt d k).name) :
    Named (d.setInode k inode) j x ↔ Named d j x := by
  grind [Inode.getName, Named, inodeAt_setInode]

theorem named_writeFile (h : Inv s) (hk : k < 256) (hat : inodeAt s.disk k = inode) (hok : FileOk inode)
    (data : List Byte) :
    Named (writeFile k inode data s).2.disk j x ↔ Named s.disk j x := by
  rcases eq_or_ne data [] with rfl | hdata
  · rw [writeFile_nil h.sound hk]
    exact named_setInode hk (by rw [hat]; rfl) (by rw [hat]; rfl)
  cases hfs : s.psychicFs with
  | none => rw [writeFile_unmounted hfs hdata]
  | some pfs =>
    obtain ⟨s1, pfs1, o, hrel, -, hc⟩ := writeFile_cases (h.ready pfs hfs) hk hok (blocksNeeded_pos hdata)
    rcases hc data rfl with ⟨-, heq⟩ | ⟨inode', -, hok', -, hname, huse, heq⟩
    · rw [heq]
      exact hrel.files.named_iff
    · have hset : Named (s1.disk.setInode k inode') j x ↔ Named s1.disk j x :=
        named_setInode hk (by rw [huse, hrel.files.inodeAt_eq hk, hat]) (by rw [hname, hrel.files.inodeAt_eq hk, hat])
      rw [heq, ← hrel.files.named_iff, ← hset]
      apply named_congr
      intro i hi
      rw [inodeAt_written (hrel.ready.withCounts _) hk hok' hi, inodeAt_setInode]
      rfl

theorem inodeAt_created : inodeAt (created k name s).disk k = newFile name (s.clock 0) (s.clock 1) := by
  simp [created, inodeAt_setInode]

theorem named_created (hk : k < 256) (hfree : (inodeAt s.disk k).inUse = 0) (hlen : (strBytes name).length < 48)
    (hnul : (0 : Byte) ∉ strBytes name) :
    Named (created k name s).disk j x ↔ Named s.disk j x ∨ (j = k ∧ x = name) := by
  have hname : (newFile name (s.clock 0) (s.clock 1)).getName = name := getName_newFile hlen hnul
  unfold Named created
  rw [inodeAt_setInode]
  by_cases hjk : j = k
  · subst hjk
    simp only [hk, hfree, hname, ↓reduceIte, true_and, ne_eq, not_true_eq_false, false_and, false_or]
    exact ⟨fun h => h.2.symm, fun h => ⟨by simp [newFile], h.symm⟩⟩
  · simp only [hjk, ↓reduceIte, false_and, or_false]

theorem Distinct.of_imp (h : Distinct d) (himp : ∀ j x, Named d' j x → Named d j x) : Distinct d' :=
  fun i j x hi hj => h i j x (himp i x hi) (himp j x hj)

theorem Distinct.created (h : Distinct s.disk) (hk : k < 256) (hfree : (inodeAt s.disk k).inUse = 0)
    (hc : Creatable s.disk name) (hnul : (0 : Byte) ∉ strBytes name) : Distinct (created k name s).disk := by
  intro i j x hi hj
  rw [named_created hk hfree hc.1 hnul] at hi hj
  rcases hi with hi | ⟨hi, hix⟩
  · rcases hj with hj | ⟨hj, hjx⟩
    · exact h i j x hi hj
    · exact absurd (hjx ▸ hi) (hc.2.1 i)
  · rcases hj with hj | ⟨hj, -⟩
    · exact absurd (hix ▸ hj) (hc.2.1 j)
    · rw [hi, hj]

def Call.NulFree : Call → Prop
  | .create name | .write name _ | .delete name => (0 : Byte) ∉ strBytes name
  | _ => True

theorem Distinct.fsCreate (h : Distinct s.disk) (hd : s.disk.Sound) (hnul : (0 : Byte) ∉ strBytes name) :
    Distinct (fsCreate name s).2.disk := by
  rcases fsCreate_cases hd name with ⟨-, heq⟩ | ⟨hc, k, hk, hfree, heq⟩
  · rw [heq]; exact h
  · rw [heq]; exact h.created hk hfree hc hnul

theorem SameFiles.freeExtents (h : Inv s) (hok : FileOk inode) : SameFiles s.disk (freeExtents inode s).disk := by
  cases hfs : s.psychicFs with
  | none => rw [freeExtents_unmounted hfs]; exact SameFiles.refl _
  | some pfs =>
    obtain ⟨pfs1, hrel⟩ := freeExtents_released (h.ready pfs hfs) hok
    exact hrel.files

theorem SameFiles.fsSync (h : Inv s) : SameFiles s.disk (fsSync s).disk := by
  cases hfs : s.psychicFs with
  | none =>
    unfold Fs.fsSync
    rw [hfs]
    exact SameFiles.refl _
  | some pfs =>
    rw [fsSync_eq (h.ready pfs hfs)]
    exact sameFiles_synced _ _

theorem Distinct.exec (h : Distinct s.disk) (hinv : Inv s) {c : Call} (hc : c.NulFree) : Distinct (exec s c).disk := by
  cases c with
  | format =>
    obtain ⟨d, heq, -, -, hfree, -⟩ := fsFormat_spec hinv.sound
    intro i j x hi
    simp only [Fs.exec, heq] at hi
    exact absurd (hfree i hi.1) hi.2.1
  | mount =>
    simp only [Fs.exec, fsMount_eq hinv.toFormatted]
    exact h
  | unmount | sync => exact h.of_imp fun j x => (SameFiles.fsSync hinv).named_iff.1
  | create name => exact h.fsCreate hinv.sound hc
  | write name data =>
    simp only [Fs.exec]
    rcases fsWrite_cases hinv.sound name with ⟨k, hn, -, heq⟩ | ⟨-, -, heq⟩ | ⟨hcr, hnul, k, hk, hfree, heq⟩
    · rw [heq]
      exact h.of_imp fun j x => (named_writeFile hinv hn.1 rfl (hinv.fileOk hn) data).1
    · rw [heq]
      exact h.fsCreate hinv.sound hc
    · rw [heq]
      exact (h.created hk hfree hcr hnul).of_imp fun j x =>
        (named_writeFile (hinv.created hk name) hk inodeAt_created (fileOk_newFile _ _ _) data).1
  | delete name =>
    simp only [Fs.exec]
    rcases fsDelete_cases hinv name with ⟨-, heq⟩ | ⟨k, hn, heq⟩
    · rw [heq]; exact h
    · rw [heq]
      refine h.of_imp fun j x hj => ?_
      rw [← (SameFiles.freeExtents hinv (hinv.fileOk hn)).named_iff]
      have hj2 := hj.2
      rw [inodeAt_setInode] at hj2
      split at hj2
      · exact absurd rfl hj2.1
      · exact ⟨hj.1, hj2⟩

theorem distinct_run (hd : s.disk.Sound) {cs : List Call} (hcs : ∀ c ∈ cs, c.NulFree) :
    Distinct (run exec (formatMount s) cs).disk := by
  have h0 : Distinct (formatMount s).disk := by
    obtain ⟨d, heq, hf, -, hfree, -⟩ := fsFormat_spec hd
    intro i j x hi
    unfold formatMount at hi
    rw [heq, fsMount_eq hf] at hi
    exact absurd (hfree i hi.1) hi.2.1
  exact (run_invariant (P := fun s => Inv s ∧ Distinct s.disk) (fun _ c h hc => ⟨h.1.exec c, h.2.exec h.1 hc⟩)
    ⟨inv_formatMount hd, h0⟩ hcs).2

/-! ### Writes, summed up -/

/-- Data block `b` is reported free, or it belongs to the file itself and is freed before the allocation. -/
def FreeFor (s : FsState) (name : String) (b : Nat) : Prop :=
  128 ≤ b ∧ b < 8192 ∧ ((∃ pfs, s.psychicFs = some pfs ∧ pfs.isBlockAllocated b = false) ∨
    ∃ k inode, findInodeByName name s.disk = some (k, inode) ∧ b ∈ inode.blocks)

theorem free_released (hr : Ready s pfs) (hok : FileOk inode) (hfind : findInodeByName name s.disk = some (k, inode))
    {s1 : FsState} {pfs1 : PsychicFs} (hrel : Released s pfs inode s1 pfs1) :
    pfs1.counts.Free = FreeFor s name := by
  funext b
  apply propext
  rw [hrel.counts, Counts.free_foldl_release (fun b hb => (hok.bounds b hb).1)]
  have hfree : 128 ≤ b → b < 8192 → ((∃ pfs', s.psychicFs = some pfs' ∧ pfs'.isBlockAllocated b = false) ↔
      pfs.counts.bitmap.test (b - 128) = false) := by
    intro h1 h2
    have := free_iff pfs b
    simp only [Counts.Free, h1, h2, true_and] at this
    simp only [hr.fs_eq, Option.some.injEq, exists_eq_left', this]
  grind [FreeFor]

/-- The data has been written to the file in slot `k`, in the blocks `bs`, and the counts are now `c`. -/
structure Wrote (s : FsState) (k : Nat) (bs : List Nat) (data : List Byte) (c : Counts) (s' : FsState) : Prop where
  inv : Inv s'
  ready : ∃ pfs', Ready s' pfs' ∧ pfs'.counts = c ∧ pfs'.bitmapDirty = false
  named : ∀ j x, Named s'.disk j x ↔ Named s.disk j x
  blocks : (inodeAt s'.disk k).blocks = bs
  size : (inodeAt s'.disk k).size.toNat = data.length
  other : ∀ j, j < 256 → j ≠ k → inodeAt s'.disk j = inodeAt s.disk j
  sectors : ∀ b, 128 ≤ b → s'.disk.sectors b = (storeBlocks data bs (List.range bs.length) s.disk).sectors b
  /-- The bitmap reaches the disk only if it was flagged before or blocks were freed. -/
  onDisk : ∀ pfs, s.psychicFs = some pfs → (inodeAt s.disk k).blocks = [] → pfs.bitmapDirty = false →
    diskBitmap s'.disk = diskBitmap s.disk

theorem Wrote.distinct {bs : List Nat} {c : Counts} {s' : FsState} (hw : Wrote s k bs data c s')
    (hdist : Distinct s.disk) : Distinct s'.disk :=
  hdist.of_imp fun j x => (hw.named j x).1

theorem storeBlocks_congr (hs : SameFiles d d') (data : List Byte) {bs : List Nat} (k : Nat)
    {b : Nat} (hb : 128 ≤ b) :
    (storeBlocks data bs (List.range k) d').sectors b = (storeBlocks data bs (List.range k) d).sectors b := by
  induction k with
  | zero => exact hs.sectors b (by omega) (by omega) (by omega)
  | succ k ih =>
    simp_all [storeBlocks, List.range_succ, List.foldl_append, List.foldl_cons, List.foldl_nil,
      Disk.sectors_setSector, ih]

theorem writeFile_wrote (h : Inv s) (hr : Ready s pfs) (hk : k < 256) (hat : inodeAt s.disk k = inode)
    (hok : FileOk inode) (hn : 0 < n) :
    ∃ s1 pfs1 o, Released s pfs inode s1 pfs1 ∧ Outcome.Valid pfs1.counts n o ∧
      ∀ data : List Byte, (data.length + 512 - 1) / 512 = n →
        (o.blocks n = none ∧ writeFile k inode data s = (false, s1.withCounts pfs1 (o.counts pfs1.counts n))) ∨
        (∃ bs, o.blocks n = some bs ∧ (writeFile k inode data s).1 = true ∧
          Wrote s k bs data (o.counts pfs1.counts n) (writeFile k inode data s).2) := by
  obtain ⟨s1, pfs1, o, hrel, hv, hc⟩ := writeFile_cases hr hk hok hn
  refine ⟨s1, pfs1, o, hrel, hv, fun data hlen => ?_⟩
  have hinv := h.writeFile hk hok data
  have hna := fun j x => named_writeFile (j := j) (x := x) h hk hat hok data
  rcases hc data hlen with ⟨hfail, heq⟩ | ⟨inode', hbs, hok', hsize, -, -, heq⟩
  · exact Or.inl ⟨hfail, heq⟩
  · refine Or.inr ⟨_, hbs, by rw [heq], ?_⟩
    have hr2 := hrel.ready.withCounts (o.counts pfs1.counts n)
    refine ⟨hinv, ⟨_, by rw [heq]; exact written_ready hr2 hk hok', by simp, rfl⟩, hna, ?_, ?_, ?_, ?_, ?_⟩
    · rw [heq, inodeAt_written hr2 hk hok' hk, if_pos rfl]
    · rw [heq, inodeAt_written hr2 hk hok' hk, if_pos rfl, hsize]
    · intro j hj hne
      rw [heq, inodeAt_written hr2 hk hok' hj, if_neg hne]
      exact hrel.files.inodeAt_eq hj
    · intro b hb
      rw [heq, sectors_written hr2 hk hok' hb]
      exact storeBlocks_congr hrel.files data _ hb
    · intro pfs' hpfs' hnil hflag
      obtain rfl : pfs = pfs' := Option.some.inj (hr.fs_eq.symm.trans hpfs')
      obtain ⟨rfl, rfl⟩ := hrel.nil (by rw [← hat]; exact hnil)
      rw [heq, written_eq hr2 hk hok', diskBitmap_synced, if_neg (by simp [PsychicFs.setCounts, hflag])]
      unfold diskBitmap
      rw [Disk.sectors_setInode hk (by omega), Disk.sectors_setInode hk (by omega),
        sectors_storeBlocks_low hok' _ (by omega), sectors_storeBlocks_low hok' _ (by omega)]
      rfl

end AstralOS.Fs
