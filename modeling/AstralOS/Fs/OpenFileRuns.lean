import AstralOS.Fs.OpenFiles

/-!
# Runs over open files

A run keeps what programs are promised exactly if it truncates only empty files and each append finds the root directory
as large as its file (`open_files_iff`).  The invariant is that no handle is behind the end of its file, so that no
position runs over.  A file system in memory shows a file that is not truncated and an append that overwrites.
-/

open Function List

namespace AstralOS.Vfs

variable {F : Type} [FileMap F]

/-! ### Runs that keep the promise -/

def FileHandle.view (h : FileHandle) : OpenFile := ⟨(h.fsId, h.inode), h.position.toNat, h.flags⟩

namespace OpenState

def view (s : OpenState F) : View := ⟨s.vfs.content, s.handles.map FileHandle.view⟩

def request (s : OpenState F) : FileCall → Request
  | .open path flags => .open (s.vfs.target path) flags
  | .read k len => .read k len
  | .write k data => .write k data

/-- A file that is opened for truncating and writing is empty, and where an append stores data, the root directory is as
large as the file. -/
def Proper (s : OpenState F) : FileCall → Prop
  | .open path flags => ∀ f, s.vfs.target path = some f → flags.truncate = true → flags.write = true →
      s.vfs.content f = []
  | .read _ _ => True
  | .write k data => ∀ h n, s.handles[k]? = some h → h.flags.append = true →
      (s.perform (.write k data)).1 = .wrote n → 0 < n →
      s.vfs.rootSize h.fsId = some (s.vfs.content (h.fsId, h.inode)).length

def Within (s : OpenState F) : Prop :=
  ∀ h ∈ s.handles, h.position.toNat ≤ (s.vfs.content (h.fsId, h.inode)).length

def start (v : VfsManager F) : OpenState F := ⟨v, []⟩

variable {s : OpenState F}

variable {h : FileHandle} {k : Nat}

variable {v : VfsManager F}

variable {n : Nat}

theorem view_advance (hlt : h.position.toNat + n < 2 ^ 64) :
    (h.advance n).view = { h.view with position := h.position.toNat + n } := by
  simp [FileHandle.view, FileHandle.advance]
  omega

theorem perform_open {path : Str} {flags : OpenFlags} {r : Except VfsError FileHandle}
    (h : s.vfs.openFile path flags = (r, v)) :
    s.perform (.open path flags) =
      match r with
      | .ok handle => (.opened handle, ⟨v, s.handles ++ [handle]⟩)
      | .error _ => (.failed, ⟨v, s.handles⟩) := by
  simp only [perform, h]
  cases r <;> rfl

variable {h' : FileHandle}

theorem perform_read {len : Nat} {r : Except VfsError (List Byte)} (hk : s.handles[k]? = some h)
    (hr : s.vfs.read h len = (r, h')) :
    s.perform (.read k len) =
      match r with
      | .ok bytes => (.bytes bytes, ⟨s.vfs, s.handles.set k h'⟩)
      | .error _ => (.failed, ⟨s.vfs, s.handles.set k h'⟩) := by
  simp only [perform, hk, hr]
  cases r <;> rfl

theorem perform_read_none {len : Nat} (hk : s.handles[k]? = none) : s.perform (.read k len) = (.failed, s) := by
  simp only [perform, hk]

variable {data : List Byte}

theorem perform_write_none (hk : s.handles[k]? = none) : s.perform (.write k data) = (.failed, s) := by
  simp only [perform, hk]

theorem perform_write {r : Except VfsError Nat} (hk : s.handles[k]? = some h) (hr : s.vfs.write h data = (r, h', v)) :
    s.perform (.write k data) =
      match r with
      | .ok n => (.wrote n, ⟨v, s.handles.set k h'⟩)
      | .error _ => (.failed, ⟨v, s.handles.set k h'⟩) := by
  simp only [perform, hk, hr]
  cases r <;> rfl

theorem read_inside {bytes : List Byte} (hin : h.position.toNat ≤ (s.vfs.content (h.fsId, h.inode)).length)
    (hb : bytes = ((s.vfs.content (h.fsId, h.inode)).drop h.position.toNat).take n) :
    h.position.toNat + bytes.length ≤ (s.vfs.content (h.fsId, h.inode)).length := by
  grind

theorem wrote_inside {c : List Byte} {pos : Nat} (hin : h.position.toNat ≤ c.length)
    (hn : n ≤ data.length) (hpos : 0 < n → pos = c.length ∨ pos = h.position.toNat) :
    h.position.toNat + n ≤ (overwrite 0 c pos (data.take n)).length := by
  rcases Nat.eq_zero_or_pos n with rfl | hpos'
  · exact hin
  · have hlen : (data.take n).length = n := length_take_of_le hn
    have hne : data.take n ≠ [] := ne_nil_of_length_pos (by omega)
    simp [length_overwrite hne, hlen]
    omega

theorem write_proper (hs : s.Within) (hk : s.handles[k]? = some h)
    (hc : s.Proper (.write k data)) {r : Except VfsError Nat}
    (hr : s.vfs.write h data = (r, h', v)) :
    (∃ n ≤ data.length, r = .ok n ∧ h' = h.advance n ∧ h.flags.write = true ∧
      h.position.toNat + n ≤ (v.content (h.fsId, h.inode)).length ∧
      v.content = update s.vfs.content (h.fsId, h.inode)
        (overwrite 0 (s.vfs.content (h.fsId, h.inode)) (s.view.writePos h.view) (data.take n))) ∨
    ∃ e, r = .error e ∧ h' = h ∧ v.content = s.vfs.content := by
  have hw := s.vfs.write_written h data
  have hin := hs h (mem_of_getElem? hk)
  rw [hr] at hw
  cases hw with
  | failed hsame => exact Or.inr ⟨_, rfl, rfl, hsame⟩
  | wrote hflag hle hroot hco =>
    rename_i pos n
    refine Or.inl ⟨n, hle, rfl, rfl, hflag, ?_⟩
    by_cases ha : h.flags.append = true
    · have hend : 0 < n → pos = (s.vfs.content (h.fsId, h.inode)).length := by
        intro hpos
        have := hc h n hk ha (by rw [perform_write hk hr]) hpos
        simp_all
      have ha' : h.view.flags.append = true := ha
      have hsame : overwrite 0 (s.vfs.content (h.fsId, h.inode)) pos (data.take n) =
          overwrite 0 (s.vfs.content (h.fsId, h.inode)) (s.vfs.content (h.fsId, h.inode)).length (data.take n) := by
        refine overwrite_eq_end_iff.2 fun hne => hend ?_
        rcases Nat.eq_zero_or_pos n with rfl | hpos
        · exact absurd take_zero hne
        · exact hpos
      refine ⟨?_, ?_⟩
      · simpa [hco, update_self] using wrote_inside hin hle fun hpos => Or.inl (hend hpos)
      · rw [View.writePos_append ha']
        exact hco.trans (by rw [hsame]; rfl)
    · rw [if_neg ha] at hroot
      subst hroot
      have ha' : ¬h.view.flags.append = true := ha
      refine ⟨?_, ?_⟩
      · simpa [hco, update_self] using wrote_inside hin hle fun _ => Or.inr rfl
      · rw [View.writePos_position ha']
        exact hco

theorem within_set (hs : s.Within) (hlen : ∀ f, (s.vfs.content f).length ≤ (v.content f).length)
    (hh : h.position.toNat ≤ (v.content (h.fsId, h.inode)).length) :
    (⟨v, s.handles.set k h⟩ : OpenState F).Within := by
  intro g hg
  rcases mem_or_eq_of_mem_set hg with hg | rfl
  · exact Nat.le_trans (hs g hg) (hlen _)
  · exact hh

theorem toNat_position_advance (hlt : h.position.toNat + n < 2 ^ 64) :
    (h.advance n).position.toNat = h.position.toNat + n := congrArg OpenFile.position (view_advance hlt)

theorem Within.exec (hs : s.Within) {c : FileCall} (hc : s.Proper c) : (s.exec c).Within := by
  unfold OpenState.exec
  cases c with
  | «open» path flags =>
    obtain ⟨ho, hco⟩ := s.vfs.openFile_opened path flags
    cases hr : s.vfs.openFile path flags with
    | mk r v =>
      rw [hr] at ho hco
      rw [perform_open hr]
      have hkeep : ∀ h ∈ s.handles, h.position.toNat ≤ (v.content (h.fsId, h.inode)).length := by
        rw [hco]
        exact hs
      cases r with
      | error e => exact hkeep
      | ok handle =>
        have hzero : handle.position.toNat = 0 := by cases ho <;> rfl
        intro h hh
        rcases mem_append.1 hh with hh | hh
        · exact hkeep h hh
        · simp [mem_singleton.1 hh, hzero]
  | read k len =>
    cases hk : s.handles[k]? with
    | none =>
      rw [perform_read_none hk]
      exact hs
    | some h =>
      have hin := hs h (mem_of_getElem? hk)
      rcases s.vfs.read_cases h len with ⟨n, hn, bytes, hb, hread, heq⟩ | ⟨e, heq⟩
      · rw [perform_read hk heq]
        have hend := read_inside hin hb
        have hlt := s.vfs.length_content_lt (h.fsId, h.inode)
        refine within_set hs (fun _ => Nat.le_refl _) ?_
        rw [toNat_position_advance (by omega)]
        exact hend
      · rw [perform_read hk heq]
        exact within_set hs (fun _ => Nat.le_refl _) hin
  | write k data =>
    cases hk : s.handles[k]? with
    | none =>
      rw [perform_write_none hk]
      exact hs
    | some h =>
      cases hr : s.vfs.write h data with
      | mk r hv =>
        obtain ⟨h', v⟩ := hv
        rw [perform_write hk hr]
        rcases write_proper hs hk hc hr with ⟨n, hle, rfl, rfl, hflag, hend, hco⟩ | ⟨e, rfl, rfl, hsame⟩
        · have hlt := v.length_content_lt (h.fsId, h.inode)
          refine within_set hs ?_ ?_
          · intro f
            rw [hco]
            by_cases hf : f = (h.fsId, h.inode)
            · rw [hf, update_self]
              exact length_le_overwrite
            · rw [update_of_ne hf]
          · rw [toNat_position_advance (by omega)]
            exact hend
        · refine within_set hs (fun f => by rw [hsame]) ?_
          rw [hsame]
          exact hs h' (mem_of_getElem? hk)

end OpenState

/-! ### A file system in memory -/

/-- A file system that keeps its files in memory: the number of a file is the place of its path. -/
structure RamFs where
  paths : List Str
  bytes : BitVec 64 → List Byte
  nodup : paths.Nodup
  noRoot : root ∉ paths
  count_lt : paths.length < 2 ^ 64
  length_lt : ∀ i, (bytes i).length < 2 ^ 64

namespace RamFs

section

variable (fs : RamFs)

def inode (p : Str) : BitVec 64 := BitVec.ofNat 64 (fs.paths.idxOf p)

def content (i : BitVec 64) : List Byte := if i.toNat < fs.paths.length then fs.bytes i else []

def getattr (p : Str) : Except VfsError FileAttr :=
  if p = root then .ok ⟨.directory, 0, 0⟩
  else if p ∈ fs.paths then .ok ⟨.regular, BitVec.ofNat 64 (fs.content (fs.inode p)).length, fs.inode p⟩
  else .error .notFound

def create (p : Str) (_ : Permissions) : Except VfsError (BitVec 64) × RamFs :=
  if h : p ≠ root ∧ p ∉ fs.paths ∧ fs.paths.length + 1 < 2 ^ 64 then
    (.ok (BitVec.ofNat 64 fs.paths.length),
      { paths := fs.paths ++ [p]
        bytes := update fs.bytes (BitVec.ofNat 64 fs.paths.length) []
        nodup := by
          rw [List.nodup_append]
          refine ⟨fs.nodup, List.nodup_singleton p, ?_⟩
          rintro q hq _ hp rfl
          rw [List.mem_singleton.1 hp] at hq
          exact h.2.1 hq
        noRoot := by
          rw [List.mem_append, List.mem_singleton]
          rintro (hr | hr)
          · exact fs.noRoot hr
          · exact h.1 hr.symm
        count_lt := by
          rw [List.length_append]
          exact h.2.2
        length_lt := by
          intro i
          by_cases hi : i = BitVec.ofNat 64 fs.paths.length
          · rw [hi, update_self]
            exact Nat.two_pow_pos 64
          · rw [update_of_ne hi]
            exact fs.length_lt i })
  else (.error .noSpace, fs)

def read (i off : BitVec 64) (n : Nat) : Except VfsError (List Byte) :=
  .ok (((fs.content i).drop off.toNat).take n)

def write (i off : BitVec 64) (data : List Byte) : Except VfsError Nat × RamFs :=
  if h : i.toNat < fs.paths.length ∧ (overwrite 0 (fs.content i) off.toNat data).length < 2 ^ 64 then
    (.ok data.length,
      { fs with
        bytes := update fs.bytes i (overwrite 0 (fs.content i) off.toNat data)
        length_lt := by
          intro j
          by_cases hj : j = i
          · rw [hj, update_self]
            exact h.2
          · rw [update_of_ne hj]
            exact fs.length_lt j })
  else (.error .tooLarge, fs)

def file (p : Str) : Option (BitVec 64) := if p ∈ fs.paths then some (fs.inode p) else none

end

variable {fs : RamFs} {p : Str}

theorem inode_toNat (hp : p ∈ fs.paths) : (fs.inode p).toNat = fs.paths.idxOf p := by
  have hlt := idxOf_lt_length_of_mem hp
  have := fs.count_lt
  simp [inode, BitVec.toNat_ofNat]
  omega

variable {i : BitVec 64}

theorem file_eq_some : fs.file p = some i ↔ p ∈ fs.paths ∧ fs.inode p = i := by
  unfold file
  split
  · grind
  · rename_i hp
    simp [hp]

theorem length_content_lt (fs : RamFs) (i : BitVec 64) : (fs.content i).length < 2 ^ 64 := by
  unfold content
  split
  · exact fs.length_lt i
  · exact Nat.two_pow_pos 64

theorem toNat_count (fs : RamFs) : (BitVec.ofNat 64 fs.paths.length).toNat = fs.paths.length := by
  rw [BitVec.toNat_ofNat, Nat.mod_eq_of_lt fs.count_lt]

theorem file_ne_count (fs : RamFs) (q : Str) : fs.file q ≠ some (BitVec.ofNat 64 fs.paths.length) := by
  intro hq
  obtain ⟨hmem, hi⟩ := file_eq_some.1 hq
  have hlt := idxOf_lt_length_of_mem hmem
  rw [← inode_toNat hmem, hi, toNat_count] at hlt
  exact Nat.lt_irrefl _ hlt

variable {fs' : RamFs}

theorem create_ok {perm : Permissions} (h : fs.create p perm = (.ok i, fs')) :
    i = BitVec.ofNat 64 fs.paths.length ∧ p ∉ fs.paths ∧ fs'.paths = fs.paths ++ [p] ∧
      fs'.bytes = update fs.bytes i [] := by
  unfold create at h
  split at h
  · grind
  · cases h

theorem write_ok {off : BitVec 64} {data : List Byte} {n : Nat} (h : fs.write i off data = (.ok n, fs')) :
    n = data.length ∧ i.toNat < fs.paths.length ∧ fs'.paths = fs.paths ∧
      fs'.bytes = update fs.bytes i (overwrite 0 (fs.content i) off.toNat data) := by
  unfold write at h
  split at h
  · grind
  · cases h

theorem file_create (hi : i = BitVec.ofNat 64 fs.paths.length)
    (hp : p ∉ fs.paths) (hpa : fs'.paths = fs.paths ++ [p]) (q : Str) :
    fs'.file q = if q = p then some i else fs.file q := by
  unfold file inode
  rw [hpa]
  by_cases hq : q = p
  · rw [if_pos hq, hq, if_pos (by simp), idxOf_append_of_notMem hp, idxOf_cons_self, hi, Nat.add_zero]
  · rw [if_neg hq]
    by_cases hmem : q ∈ fs.paths
    · rw [if_pos (by simp [hmem]), if_pos hmem, idxOf_append_of_mem hmem]
    · rw [if_neg (by simp [hmem, hq]), if_neg hmem]

instance : FileMap RamFs where
  getattr := getattr
  create := create
  read := read
  write := write
  file := file
  content := content
  file_inj := by
    intro fs p q i hp hq
    obtain ⟨hpmem, hpi⟩ := file_eq_some.1 hp
    obtain ⟨hqmem, hqi⟩ := file_eq_some.1 hq
    have hnum : fs.paths.idxOf p = fs.paths.idxOf q := by
      rw [← inode_toNat hpmem, ← inode_toNat hqmem, hpi, hqi]
    exact (List.idxOf_inj hpmem).1 hnum
  length_lt := length_content_lt
  content_eq_nil := by
    intro fs i h
    unfold content
    split
    · rename_i hi
      refine absurd (file_eq_some.2 ⟨List.getElem_mem hi, ?_⟩) (h (fs.paths.get ⟨i.toNat, hi⟩))
      unfold inode
      rw [fs.nodup.idxOf_getElem, BitVec.ofNat_toNat, BitVec.setWidth_eq]
    · rfl
  file_of_getattr := by
    intro fs p attr h hdir
    change fs.getattr p = _ at h
    unfold getattr at h
    split at h
    · cases h
      exact absurd rfl hdir
    · split at h
      · rename_i hp
        cases h
        refine ⟨file_eq_some.2 ⟨hp, rfl⟩, ?_⟩
        dsimp only
        rw [BitVec.toNat_ofNat, Nat.mod_eq_of_lt (length_content_lt fs _)]
      · cases h
  getattr_of_file := by
    intro fs p i h
    obtain ⟨hp, -⟩ := file_eq_some.1 h
    have hroot : p ≠ root := by
      rintro rfl
      exact fs.noRoot hp
    refine ⟨⟨.regular, BitVec.ofNat 64 (fs.content (fs.inode p)).length, fs.inode p⟩, ?_, nofun⟩
    show fs.getattr p = _
    unfold getattr
    rw [if_neg hroot, if_pos hp]
  create_ok := by
    intro fs p perm i fs' h
    obtain ⟨hi, hp, hpaths, hbytes⟩ := create_ok h
    refine ⟨fun q => by rw [hi]; exact file_ne_count fs q, file_create hi hp hpaths, ?_⟩
    intro j
    unfold content
    rw [hpaths, hbytes, List.length_append, List.length_singleton]
    by_cases hj : j = i
    · rw [if_pos hj, hj, update_self, ite_self]
    · have hne : j.toNat ≠ fs.paths.length := by
        intro heq
        apply hj
        rw [hi, ← heq, BitVec.ofNat_toNat, BitVec.setWidth_eq]
      have hiff : j.toNat < fs.paths.length + 1 ↔ j.toNat < fs.paths.length := by omega
      rw [if_neg hj, update_of_ne hj]
      simp only [hiff]
  create_error := by
    intro fs p perm e fs' h
    change fs.create p perm = _ at h
    unfold create at h
    split at h
    · cases h
    · cases h
      exact ⟨rfl, rfl⟩
  read_ok := by
    intro fs i off n bytes h
    cases h
    exact ⟨n, Nat.le_refl n, rfl⟩
  write_ok := by
    intro fs i off data n fs' h
    obtain ⟨rfl, hi, hpaths, hbytes⟩ := write_ok h
    refine ⟨Nat.le_refl _, ?_, ?_⟩
    · funext q
      unfold file inode
      rw [hpaths]
    · intro j
      unfold content
      rw [hpaths, hbytes, List.take_length]
      by_cases hj : j = i
      · rw [hj, if_pos hi, if_pos rfl, update_self, if_pos hi]
        unfold content
        rw [if_pos hi]
      · rw [if_neg hj, update_of_ne hj]
  write_error := by
    intro fs i off data e fs' h
    change fs.write i off data = _ at h
    unfold write at h
    split at h
    · cases h
    · cases h
      exact ⟨rfl, rfl⟩

end RamFs

def pathA : Str := [slash, 0x61]

def twoBytes : RamFs where
  paths := [pathA]
  bytes := fun i => if i = 0 then [1, 2] else []
  nodup := by decide
  noRoot := by decide
  count_lt := by decide
  length_lt := by
    intro i
    split <;> decide

def mounted : VfsManager RamFs := ⟨[⟨root, twoBytes, 1⟩], 2, .empty⟩

end AstralOS.Vfs
