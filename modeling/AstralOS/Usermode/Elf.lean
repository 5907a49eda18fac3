import AstralOS.Memory.Paging

/-!
# ELF images

The model of `usermode/elf.rs`.  The structures are overlaid on the bytes: the file header at offset 0, the program
headers at the offset the file gives, 56 bytes apart.  The bound on the program headers is computed with the entry size
the file claims, so a header may lie outside the data; `Image.outside` gives the bytes of memory around it.  Which files
keep the parser inside their data is said by `elf_inside_iff`.
-/

namespace AstralOS.Usermode

open BitVec

open Memory (Stop)

/-- The bytes of an ELF file in memory.  A slice has at most `isize::MAX` bytes. -/
structure Image where
  data : List (BitVec 8)
  length_lt : data.length < 2 ^ 63
  /-- The bytes before and after the data, by their offset from its start. -/
  outside : BitVec 64 → BitVec 8

def Image.byte (img : Image) : ByteMem := fun offset => (img.data[offset.toNat]?).getD (img.outside offset)

/-! ### The file header -/

/-- The fields of the file header that are used after it is checked (`Elf64Header`). -/
structure Elf64Header where
  entry : BitVec 64
  phoff : BitVec 64
  phentsize : BitVec 16
  phnum : BitVec 16
  deriving DecidableEq

def ptLoad : BitVec 32 := 1

/-- A program header (`Elf64ProgramHeader`), without `p_paddr` and `p_align`. -/
structure Elf64ProgramHeader where
  type : BitVec 32
  flags : BitVec 32
  offset : BitVec 64
  vaddr : BitVec 64
  filesz : BitVec 64
  memsz : BitVec 64
  deriving DecidableEq

namespace Elf64Header

def parse (img : Image) : Except Stop Elf64Header :=
  if img.data.length < 64 then .error (.err "Data too small for ELF header")
  else if [img.byte 0, img.byte 1, img.byte 2, img.byte 3] ≠ [0x7F, 0x45, 0x4C, 0x46] then
    .error (.err "Invalid ELF magic")
  else if img.byte 4 ≠ 2 then .error (.err "Not 64-bit ELF")
  else
    .ok { entry := img.byte.read64 24, phoff := img.byte.read64 32, phentsize := img.byte.read16 54,
          phnum := img.byte.read16 56 }

def programHeader (img : Image) (pos : BitVec 64) : Elf64ProgramHeader :=
  { type := img.byte.read32 pos, flags := img.byte.read32 (pos + 4), offset := img.byte.read64 (pos + 8),
    vaddr := img.byte.read64 (pos + 16), filesz := img.byte.read64 (pos + 32), memsz := img.byte.read64 (pos + 40) }

/-- The program headers (`program_headers`); the bound may wrap around. -/
def programHeaders (header : Elf64Header) (img : Image) : Except Stop (List Elf64ProgramHeader) :=
  let phnum := header.phnum.setWidth 64
  let phsize := header.phentsize.setWidth 64
  if (header.phoff + phnum * phsize).toNat > img.data.length then .error (.err "Program headers out of bounds")
  else .ok ((List.range header.phnum.toNat).map fun i => programHeader img (header.phoff + BitVec.ofNat 64 (56 * i)))

end Elf64Header

/-! ### Program headers -/

namespace Elf64ProgramHeader

section

variable (ph : Elf64ProgramHeader)

def isWritable : Bool := ph.flags &&& 0x2 != 0

def isExecutable : Bool := ph.flags &&& 0x1 != 0

/-- The bytes of a segment in the file (`get_data`); the end may wrap around, and then the slice panics. -/
def getData (img : Image) : Except Stop (Option (List (BitVec 8))) :=
  let start := ph.offset
  let stop := start + ph.filesz
  if stop.toNat > img.data.length then .ok none
  else if start > stop then .error .panic
  else .ok (some ((img.data.drop start.toNat).take (stop.toNat - start.toNat)))

end

end Elf64ProgramHeader

/-! ### How far the parser reads -/

namespace Elf64Header

variable {header : Elf64Header} {img : Image}

section

variable (header : Elf64Header)

def place (i : Nat) : BitVec 64 := header.phoff + BitVec.ofNat 64 (56 * i)

def HeadersInside (img : Image) : Prop :=
  ∀ headers, header.programHeaders img = .ok headers →
    headers = (List.range header.phnum.toNat).map (fun i => programHeader img (header.place i)) ∧
      ∀ i < header.phnum.toNat,
        (header.place i).toNat = header.phoff.toNat + i * header.phentsize.toNat ∧
          (header.place i).toNat + 56 ≤ img.data.length

/-- The sum that `program_headers` compares with the length, which may wrap around. -/
def bound : Nat :=
  (header.phoff.toNat + header.phnum.toNat * header.phentsize.toNat) % 2 ^ 64

theorem programHeaders_eq (img : Image) :
    header.programHeaders img =
      if header.bound > img.data.length then .error (.err "Program headers out of bounds")
      else .ok ((List.range header.phnum.toNat).map fun i => programHeader img (header.place i)) := by
  have hb : (header.phoff + header.phnum.setWidth 64 * header.phentsize.setWidth 64).toNat = header.bound := by
    have hn : (header.phnum.setWidth 64).toNat = header.phnum.toNat := toNat_setWidth_of_le (by decide)
    have hs : (header.phentsize.setWidth 64).toNat = header.phentsize.toNat := toNat_setWidth_of_le (by decide)
    rw [toNat_add, toNat_mul, hn, hs, Nat.add_mod_mod]
    rfl
  unfold programHeaders
  dsimp only
  rw [hb]
  rfl

theorem place_toNat {i : Nat} (h : header.phoff.toNat + 56 * i < 2 ^ 64) :
    (header.place i).toNat = header.phoff.toNat + 56 * i := by
  unfold place
  rw [toNat_add, toNat_ofNat]
  omega

end

/-- The program headers are inside the data exactly if the call fails, or there are none, or they all fit at 56 bytes
each and the file says that they are 56 bytes apart. -/
theorem headersInside_iff (header : Elf64Header) (img : Image) :
    header.HeadersInside img ↔
      header.bound > img.data.length ∨ header.phnum = 0 ∨
        header.phoff.toNat + 56 * header.phnum.toNat ≤ img.data.length ∧
          (header.phnum = 1 ∨ header.phentsize = 56) := by
  have hlen := img.length_lt
  have hnum : header.phnum = 0 ↔ header.phnum.toNat = 0 := toNat_eq.trans Iff.rfl
  have hone : header.phnum = 1 ↔ header.phnum.toNat = 1 := toNat_eq.trans Iff.rfl
  have hsize : header.phentsize = 56 ↔ header.phentsize.toNat = 56 := toNat_eq.trans Iff.rfl
  rw [hnum, hone, hsize]
  unfold HeadersInside
  rw [programHeaders_eq]
  by_cases hb : header.bound > img.data.length
  · rw [if_pos hb]
    refine ⟨fun _ => Or.inl hb, fun _ headers h => ?_⟩
    cases h
  rw [if_neg hb]
  constructor
  · intro h
    refine Or.inr ?_
    by_cases hzero : header.phnum.toNat = 0
    · exact Or.inl hzero
    have hin := (h _ rfl).2
    have hf := hin 0 (by omega)
    by_cases h1 : header.phnum.toNat = 1
    · exact Or.inr ⟨by omega, Or.inl h1⟩
    -- the second header is 56 bytes behind the first, and the last one is inside the data
    have hs := hin 1 (by omega)
    have hlast := hin (header.phnum.toNat - 1) (by omega)
    rw [place_toNat header (by omega)] at hs
    have h56 : header.phentsize.toNat = 56 := by omega
    rw [h56] at hlast
    exact Or.inr ⟨by omega, Or.inr h56⟩
  · rintro (h | h | ⟨hfit, hsize⟩) headers hok
    · exact absurd h hb
    · cases hok
      exact ⟨rfl, fun i hi => by omega⟩
    · cases hok
      refine ⟨rfl, fun i hi => ?_⟩
      rw [place_toNat header (by omega)]
      refine ⟨?_, by omega⟩
      rcases hsize with h1 | h56
      · have : i = 0 := by omega
        subst this
        omega
      · rw [h56]
        omega

end Elf64Header

namespace Elf64ProgramHeader

/-- `get_data` gives nothing or exactly the bytes from `p_offset` to `p_offset + p_filesz`, and does not panic. -/
def DataInside (ph : Elf64ProgramHeader) (img : Image) : Prop :=
  ph.getData img = .ok none ∨
    ph.offset.toNat + ph.filesz.toNat ≤ img.data.length ∧
      ph.getData img = .ok (some ((img.data.drop ph.offset.toNat).take ph.filesz.toNat))

theorem dataInside_iff (ph : Elf64ProgramHeader) (img : Image) :
    ph.DataInside img ↔
      ¬(2 ^ 64 ≤ ph.offset.toNat + ph.filesz.toNat ∧
        ph.offset.toNat + ph.filesz.toNat - 2 ^ 64 ≤ img.data.length) := by
  have hsum := toNat_add ph.offset ph.filesz
  unfold DataInside getData
  by_cases hout : (ph.offset + ph.filesz).toNat > img.data.length
  · rw [if_pos hout]
    refine ⟨fun _ => ?_, fun _ => Or.inl rfl⟩
    omega
  rw [if_neg hout]
  by_cases hwrap : 2 ^ 64 ≤ ph.offset.toNat + ph.filesz.toNat
  · have hgt : ph.offset > ph.offset + ph.filesz := by
      rw [gt_iff_lt, lt_def]
      omega
    rw [if_pos hgt]
    refine ⟨?_, fun h => absurd ⟨hwrap, by omega⟩ h⟩
    rintro (h | ⟨-, h⟩)
    · cases h
    · cases h
  · have hle : ¬ph.offset > ph.offset + ph.filesz := by
      rw [gt_iff_lt, lt_def]
      omega
    have hstop : (ph.offset + ph.filesz).toNat - ph.offset.toNat = ph.filesz.toNat := by omega
    rw [if_neg hle, hstop]
    exact ⟨fun _ h => hwrap h.1, fun _ => Or.inr ⟨by omega, rfl⟩⟩

end Elf64ProgramHeader

/-- Which files keep the parser inside their data. -/
theorem elf_inside_iff (header : Elf64Header) (img : Image) :
    (header.HeadersInside img ↔
      header.bound > img.data.length ∨ header.phnum = 0 ∨
        header.phoff.toNat + 56 * header.phnum.toNat ≤ img.data.length ∧
          (header.phnum = 1 ∨ header.phentsize = 56)) ∧
      ∀ ph : Elf64ProgramHeader, ph.DataInside img ↔
        ¬(2 ^ 64 ≤ ph.offset.toNat + ph.filesz.toNat ∧
          ph.offset.toNat + ph.filesz.toNat - 2 ^ 64 ≤ img.data.length) :=
  ⟨header.headersInside_iff img, fun ph => ph.dataInside_iff img⟩

/-- An ELF file of a file header only.  It claims one program header of zero bytes behind its end; the memory there
happens to read as one of a segment of two bytes at the end of the address space. -/
def bareImage : Image where
  data :=
    -- identification, type, machine, version, entry point, offset of the program headers, offset of the sections
    [0x7F, 0x45, 0x4C, 0x46, 2, 1, 1, 0, 0, 0, 0, 0, 0, 0, 0, 0, 2, 0, 0x3E, 0, 1, 0, 0, 0] ++
    [0, 0x10, 0x40, 0, 0, 0, 0, 0] ++ [64, 0, 0, 0, 0, 0, 0, 0] ++ [0, 0, 0, 0, 0, 0, 0, 0] ++
    -- flags, sizes of the header and of a program header, their number, and the same for the sections
    [0, 0, 0, 0, 64, 0, 0, 0, 1, 0, 0, 0, 0, 0, 0, 0]
  length_lt := by decide
  outside := fun offset => if offset < 80 then 0xFF else if offset = 96 then 2 else 0

/-- The file is accepted and its program header is read behind its end, and then `get_data` panics. -/
theorem bareImage_outside :
    Elf64Header.parse bareImage = .ok ⟨0x401000, 64, 0, 1⟩ ∧
      ∃ ph, Elf64Header.programHeaders ⟨0x401000, 64, 0, 1⟩ bareImage = .ok [ph] ∧
        ¬Elf64Header.HeadersInside ⟨0x401000, 64, 0, 1⟩ bareImage ∧ ph.getData bareImage = .error .panic := by
  have hlen : bareImage.data.length = 64 := by decide
  refine ⟨by decide +kernel, _, rfl, ?_, ?_⟩
  · rw [Elf64Header.headersInside_iff, hlen]
    decide
  · decide +kernel

end AstralOS.Usermode
