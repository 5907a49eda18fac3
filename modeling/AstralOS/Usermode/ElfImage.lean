import AstralOS.Usermode.Spawn

/-!
# The memory image of an ELF file

What a program is to find in memory.  `Elf64Header.segments` are the segments that a file asks to load, and
`Elf64Header.WellFormed` says that they can be: their bytes are in the file, and their addresses lie below the user stack
and apart from each other.  `imageView` is memory with the bytes of the segments written to their addresses, over zeros;
for a file that is well formed it shows every segment (`imageView_apply`).

The second part is about the pages of a segment as the loader counts them.
-/

namespace AstralOS.Usermode

open Memory BitVec

namespace Elf64ProgramHeader

section

variable (ph : Elf64ProgramHeader)

def fileBytes (img : Image) : List (BitVec 8) :=
  (img.data.drop ph.offset.toNat).take ph.filesz.toNat

def byteAt (img : Image) (i : Nat) : BitVec 8 :=
  if i < ph.filesz.toNat then (img.data[ph.offset.toNat + i]?).getD 0 else 0

def Covers (a : BitVec 64) : Prop :=
  ph.vaddr.toNat ≤ a.toNat ∧ a.toNat < ph.vaddr.toNat + ph.memsz.toNat

end

/-- The segment has its bytes in the file, no more of them than it takes in memory, and lies below the user stack. -/
structure Fits (ph : Elf64ProgramHeader) (img : Image) : Prop where
  inside : ph.offset.toNat + ph.filesz.toNat ≤ img.data.length
  filesz_le : ph.filesz.toNat ≤ ph.memsz.toNat
  below : ph.memsz ≠ 0 → ph.vaddr.toNat + ph.memsz.toNat ≤ userStackBase.toNat

def InUserSpace (ph : Elf64ProgramHeader) : Prop := ph.memsz ≠ 0 → ph.vaddr.toNat + ph.memsz.toNat ≤ 0x800000000000

theorem Fits.inUserSpace {ph : Elf64ProgramHeader} {img : Image} (h : ph.Fits img) : ph.InUserSpace := by
  intro hz
  exact Nat.le_trans (h.below hz) (by decide)

end Elf64ProgramHeader

namespace Elf64Header

/-- The segments to load: the program headers of type `PT_LOAD`, each `phentsize` bytes behind the one before. -/
def segments (header : Elf64Header) (img : Image) : List Elf64ProgramHeader :=
  ((List.range header.phnum.toNat).map fun i =>
    programHeader img (header.phoff + BitVec.ofNat 64 (i * header.phentsize.toNat))).filter (·.type = ptLoad)

/-- The file can be loaded. -/
structure WellFormed (header : Elf64Header) (img : Image) : Prop where
  phentsize : header.phentsize = 56
  fits : ∀ ph ∈ header.segments img, ph.Fits img
  disjoint : (header.segments img).Pairwise fun p q => ∀ a, p.Covers a → ¬q.Covers a

theorem segments_eq {header : Elf64Header} {img : Image} {headers : List Elf64ProgramHeader}
    (hsize : header.phentsize = 56) (h : header.programHeaders img = .ok headers) :
    header.segments img = headers.filter (·.type = ptLoad) := by
  rw [programHeaders_eq] at h
  split at h
  · cases h
  · grind [segments, place, Nat.mul_comm]

end Elf64Header

/-! ### What a program is to see -/

def imageView (img : Image) (segs : List Elf64ProgramHeader) : ByteMem :=
  segs.foldl (fun m ph => m.writeBytes ph.vaddr (ph.fileBytes img)) fun _ => 0

namespace Elf64ProgramHeader

variable {ph : Elf64ProgramHeader} {img : Image}

section

variable (h : ph.Fits img)
include h

theorem Fits.length_fileBytes : (ph.fileBytes img).length = ph.filesz.toNat := by
  have := h.inside
  unfold fileBytes
  grind

theorem Fits.fileBytes_eq_nil (hz : ph.memsz = 0) : ph.fileBytes img = [] := by
  apply List.eq_nil_of_length_eq_zero
  have hle := h.filesz_le
  simp_all [h.length_fileBytes]

theorem Fits.toNat_add {i : Nat} (hi : i < ph.memsz.toNat) :
    (ph.vaddr + BitVec.ofNat 64 i).toNat = ph.vaddr.toNat + i := by
  have hbase : userStackBase.toNat = 0x7FFFFFE00000 := rfl
  have hne : ph.memsz ≠ 0 := by
    grind
  have hb := h.below hne
  grind

theorem Fits.covers {i : Nat} (hi : i < ph.memsz.toNat) :
    ph.Covers (ph.vaddr + BitVec.ofNat 64 i) := by
  unfold Covers
  rw [h.toNat_add hi]
  omega

theorem Fits.writeBytes_of_not_covers (m : ByteMem) {a : BitVec 64} (ha : ¬ph.Covers a) :
    m.writeBytes ph.vaddr (ph.fileBytes img) a = m a := by
  apply ByteMem.writeBytes_outside
  by_contra hlt
  rw [h.length_fileBytes] at hlt
  have hoff : (a - ph.vaddr).toNat < ph.memsz.toNat := by
    have := h.filesz_le
    omega
  apply ha
  have hcov := h.covers hoff
  rwa [show ph.vaddr + BitVec.ofNat 64 (a - ph.vaddr).toNat = a by bv_omega] at hcov

theorem Fits.writeBytes_apply {m : ByteMem} {i : Nat} (hi : i < ph.memsz.toNat)
    (hm : m (ph.vaddr + BitVec.ofNat 64 i) = 0) :
    m.writeBytes ph.vaddr (ph.fileBytes img) (ph.vaddr + BitVec.ofNat 64 i) = ph.byteAt img i := by
  have hlt : i < 2 ^ 64 := Nat.lt_trans hi ph.memsz.isLt
  have hlen := h.length_fileBytes
  unfold byteAt
  by_cases hfile : i < ph.filesz.toNat
  · have hin : i < (ph.fileBytes img).length := by omega
    have hbyte : img.data[ph.offset.toNat + i]? = some (ph.fileBytes img)[i] := by
      rw [← List.getElem?_eq_getElem hin, fileBytes, List.getElem?_take_of_lt hfile, List.getElem?_drop]
    rw [if_pos hfile, ByteMem.writeBytes_inside m _ hin hlt, hbyte, Option.getD_some]
  · rw [if_neg hfile, ByteMem.writeBytes_outside, hm]
    bv_omega

end

end Elf64ProgramHeader

variable {ph : Elf64ProgramHeader} {img : Image} {segs : List Elf64ProgramHeader}

theorem view_of_not_covers (hfits : ∀ q ∈ segs, q.Fits img) (m : ByteMem) {a : BitVec 64}
    (ha : ∀ q ∈ segs, ¬q.Covers a) : segs.foldl (fun m ph => m.writeBytes ph.vaddr (ph.fileBytes img)) m a = m a := by
  induction segs generalizing m with
  | nil => rfl
  | cons p segs ih =>
    rw [List.foldl_cons, ih (fun q hq => hfits q (by simp [hq])) _ fun q hq => ha q (by simp [hq])]
    exact (hfits p (by simp)).writeBytes_of_not_covers m (ha p (by simp))

theorem view_of_mem (hfits : ∀ q ∈ segs, q.Fits img)
    (hdis : segs.Pairwise fun p q => ∀ a, p.Covers a → ¬q.Covers a) (hph : ph ∈ segs) {m : ByteMem} {i : Nat}
    (hi : i < ph.memsz.toNat) (hm : m (ph.vaddr + BitVec.ofNat 64 i) = 0) :
    segs.foldl (fun m ph => m.writeBytes ph.vaddr (ph.fileBytes img)) m (ph.vaddr + BitVec.ofNat 64 i) =
      ph.byteAt img i := by
  induction segs generalizing m with
  | nil => cases hph
  | cons p segs ih =>
    obtain ⟨hf, hrest⟩ := List.pairwise_cons.1 hdis
    have hcov := (hfits ph hph).covers hi
    rw [List.foldl_cons]
    rcases List.mem_cons.1 hph with rfl | hmem
    · rw [view_of_not_covers (fun q hq => hfits q (by simp [hq])) _ fun q hq => hf q hq _ hcov]
      exact (hfits ph (by simp)).writeBytes_apply hi hm
    · refine ih (fun q hq => hfits q (by simp [hq])) hrest hmem ?_
      rw [(hfits p (by simp)).writeBytes_of_not_covers m fun h => hf ph hmem _ h hcov]
      exact hm

theorem imageView_apply {header : Elf64Header} (h : header.WellFormed img) (hph : ph ∈ header.segments img) {i : Nat}
    (hi : i < ph.memsz.toNat) :
    imageView img (header.segments img) (ph.vaddr + BitVec.ofNat 64 i) = ph.byteAt img i :=
  view_of_mem h.fits h.disjoint hph hi rfl

/-! ### The pages of a segment -/

def pageStart (a : BitVec 64) : BitVec 64 := a &&& ~~~0xFFF

theorem toNat_pageStart (a : BitVec 64) : (pageStart a).toNat = a.toNat / 4096 * 4096 :=
  and_not_lowMask (k := 12) (by decide) a

namespace Elf64ProgramHeader

/-- The page of the segment that `storeByte` finds for an offset. -/
def pageIdx (ph : Elf64ProgramHeader) (offset : Nat) : Nat :=
  (pageStart (ph.vaddr + BitVec.ofNat 64 offset) - ph.virtStart).toNat / pageSize

theorem toNat_virtStart (ph : Elf64ProgramHeader) : ph.virtStart.toNat = ph.vaddr.toNat / 4096 * 4096 :=
  toNat_pageStart ph.vaddr

theorem InUserSpace.numPages_eq (h : ph.InUserSpace) (hz : ph.memsz ≠ 0) :
    ph.numPages = (ph.vaddr.toNat + ph.memsz.toNat + 4095) / 4096 - ph.vaddr.toNat / 4096 := by
  have hsize : pageSize = 4096 := rfl
  have hb := h hz
  have hs := ph.toNat_virtStart
  have hend : (alignUp (ph.vaddr + ph.memsz) (BitVec.ofNat 64 pageSize)).toNat =
      (ph.vaddr.toNat + ph.memsz.toNat + 4095) / 4096 * 4096 := by
    rw [show BitVec.ofNat 64 pageSize = BitVec.twoPow 64 12 by decide, alignUp_eq (by decide), BitVec.toNat_ofNat,
      toNat_add, roundUp]
    omega
  grind [numPages, toNat_sub]

theorem InUserSpace.toNat_page (h : ph.InUserSpace) (hz : ph.memsz ≠ 0) {j : Nat} (hj : j < ph.numPages) :
    (ph.page j).toNat = (ph.vaddr.toNat / 4096 + j) * 4096 := by
  have hsize : pageSize = 4096 := rfl
  have hb := h hz
  have hp := h.numPages_eq hz
  grind [page, toNat_add, ph.toNat_virtStart, toNat_ofNat]

theorem Fits.page_lt (h : ph.Fits img) (hz : ph.memsz ≠ 0) {j : Nat} (hj : j < ph.numPages) :
    (ph.page j).toNat < userStackBase.toNat := by
  have hb := h.below hz
  have hp := h.inUserSpace.numPages_eq hz
  rw [h.inUserSpace.toNat_page hz hj]
  omega

theorem Fits.page_pageIdx (h : ph.Fits img) {i : Nat} (hi : i < ph.memsz.toNat) :
    ph.pageIdx i < ph.numPages ∧ ph.page (ph.pageIdx i) = pageStart (ph.vaddr + BitVec.ofNat 64 i) := by
  have hz : ph.memsz ≠ 0 := by
    grind
  have hsize : pageSize = 4096 := rfl
  have hp := h.inUserSpace.numPages_eq hz
  have haddr := h.toNat_add hi
  have hidx : ph.pageIdx i = (ph.vaddr.toNat + i) / 4096 - ph.vaddr.toNat / 4096 := by
    grind [pageIdx, toNat_sub, toNat_pageStart, ph.toNat_virtStart]
  have hlt : ph.pageIdx i < ph.numPages := by omega
  refine ⟨hlt, eq_of_toNat_eq ?_⟩
  rw [h.inUserSpace.toNat_page hz hlt, toNat_pageStart, haddr, hidx]
  omega

end Elf64ProgramHeader

end AstralOS.Usermode
