import AstralOS.Fs.Vfs
import AstralOS.Lib.Overwrite

/-!
# Open files

`open`, `read` and `write` of `kernel/src/fs/vfs.rs`, over any file system that behaves as a map from paths to byte
arrays (`FileMap`).  What a program is promised is stated on what it can see (`View`): the contents of the files and, for
each open file, the position of its handle.  `Opened`, `read_cases` and `Written` say what the calls do: `open` does not
look at the `truncate` flag, and a write in append mode goes to the offset that is the size of the root directory.
-/

open Function

namespace AstralOS.Vfs

/-! ### The trait -/

inductive FileType
  | regular
  | directory
  | symLink
  | device
  | socket
  | pipe
  deriving DecidableEq

structure Permissions where
  read : Bool
  write : Bool
  execute : Bool
  deriving DecidableEq

def Permissions.default : Permissions := ⟨true, true, false⟩

structure FileAttr where
  fileType : FileType
  size : BitVec 64
  inode : BitVec 64
  deriving DecidableEq

/-- The methods of the trait that `open`, `read` and `write` call.  A read returns the bytes it puts into a buffer of
the given length. -/
class FileOps (F : Type) where
  getattr : F → Str → Except VfsError FileAttr
  create : F → Str → Permissions → Except VfsError (BitVec 64) × F
  read : F → BitVec 64 → BitVec 64 → Nat → Except VfsError (List Byte)
  write : F → BitVec 64 → BitVec 64 → List Byte → Except VfsError Nat × F

structure OpenFlags where
  read : Bool
  write : Bool
  create : Bool
  truncate : Bool
  append : Bool
  deriving DecidableEq

structure FileHandle where
  inode : BitVec 64
  position : BitVec 64
  flags : OpenFlags
  fsId : BitVec 64
  deriving DecidableEq

namespace FileHandle

def new (inode : BitVec 64) (flags : OpenFlags) (fsId : BitVec 64) : FileHandle := ⟨inode, 0, flags, fsId⟩

def advance (h : FileHandle) (bytes : Nat) : FileHandle := { h with position := h.position + BitVec.ofNat 64 bytes }

end FileHandle

/-! ### The calls -/

variable {F : Type}

def setMount (fsId : BitVec 64) (fs : F) : List (MountPoint F) → List (MountPoint F)
  | [] => []
  | m :: ms => if m.fsId = fsId then { m with fs } :: ms else m :: setMount fsId fs ms

def findFs (fsId : BitVec 64) : List (MountPoint F) → Option F
  | [] => none
  | m :: ms => if m.fsId = fsId then some m.fs else findFs fsId ms

namespace VfsManager

def setFs (v : VfsManager F) (fsId : BitVec 64) (fs : F) : VfsManager F := { v with mounts := setMount fsId fs v.mounts }

def openIn [FileOps F] (v : VfsManager F) (fsId : BitVec 64) (relPath : Str) (flags : OpenFlags) (fs : F) :
    Except VfsError FileHandle × VfsManager F :=
  match FileOps.getattr fs relPath with
  | .ok attr =>
    if attr.fileType = .directory then (.error .isDirectory, v) else (.ok (.new attr.inode flags fsId), v)
  | .error e =>
    if e = .notFound ∧ flags.create then
      match FileOps.create fs relPath .default with
      | (.ok inode, fs) => (.ok (.new inode flags fsId), v.setFs fsId fs)
      | (.error e, fs) => (.error e, v.setFs fsId fs)
    else (.error e, v)

def openFile [FileOps F] (path : Str) (flags : OpenFlags) (v : VfsManager F) :
    Except VfsError FileHandle × VfsManager F :=
  match v.resolvePath path with
  | (.error e, v) => (.error e, v)
  | (.ok (fsId, relPath), v) =>
    match findFs fsId v.mounts with
    | none => (.error .notMounted, v)
    | some fs => v.openIn fsId relPath flags fs

def read [FileOps F] (handle : FileHandle) (len : Nat) (v : VfsManager F) : Except VfsError (List Byte) × FileHandle :=
  if !handle.flags.read then (.error .permissionDenied, handle)
  else
    match findFs handle.fsId v.mounts with
    | none => (.error .notMounted, handle)
    | some fs =>
      match FileOps.read fs handle.inode handle.position len with
      | .error e => (.error e, handle)
      | .ok bytes => (.ok bytes, handle.advance bytes.length)

/-- The offset of a write; in append mode the size of the root directory. -/
def writePos [FileOps F] (fs : F) (handle : FileHandle) : Except VfsError (BitVec 64) :=
  if handle.flags.append then (FileOps.getattr fs root).map FileAttr.size else .ok handle.position

def write [FileOps F] (handle : FileHandle) (data : List Byte) (v : VfsManager F) :
    Except VfsError Nat × FileHandle × VfsManager F :=
  if !handle.flags.write then (.error .permissionDenied, handle, v)
  else
    match findFs handle.fsId v.mounts with
    | none => (.error .notMounted, handle, v)
    | some fs =>
      match writePos fs handle with
      | .error e => (.error e, handle, v)
      | .ok pos =>
        match FileOps.write fs handle.inode pos data with
        | (.error e, fs) => (.error e, handle, v.setFs handle.fsId fs)
        | (.ok n, fs) => (.ok n, handle.advance n, v.setFs handle.fsId fs)

end VfsManager

/-! ### Runs -/

/-- The manager and the handles of its callers. -/
structure OpenState (F : Type) where
  vfs : VfsManager F
  handles : List FileHandle

/-- The calls; a handle is named by its number. -/
inductive FileCall
  | open (path : Str) (flags : OpenFlags)
  | read (k len : Nat)
  | write (k : Nat) (data : List Byte)

/-- What a call returns. -/
inductive Answer
  | opened (handle : FileHandle)
  | bytes (bytes : List Byte)
  | wrote (n : Nat)
  | failed
  deriving DecidableEq

namespace OpenState

def perform [FileOps F] (s : OpenState F) : FileCall → Answer × OpenState F
  | .open path flags =>
    match s.vfs.openFile path flags with
    | (.ok handle, vfs) => (.opened handle, ⟨vfs, s.handles ++ [handle]⟩)
    | (.error _, vfs) => (.failed, ⟨vfs, s.handles⟩)
  | .read k len =>
    match s.handles[k]? with
    | none => (.failed, s)
    | some handle =>
      match s.vfs.read handle len with
      | (.ok bytes, handle) => (.bytes bytes, ⟨s.vfs, s.handles.set k handle⟩)
      | (.error _, handle) => (.failed, ⟨s.vfs, s.handles.set k handle⟩)
  | .write k data =>
    match s.handles[k]? with
    | none => (.failed, s)
    | some handle =>
      match s.vfs.write handle data with
      | (.ok n, handle, vfs) => (.wrote n, ⟨vfs, s.handles.set k handle⟩)
      | (.error _, handle, vfs) => (.failed, ⟨vfs, s.handles.set k handle⟩)

def exec [FileOps F] (s : OpenState F) (c : FileCall) : OpenState F := (s.perform c).2

end OpenState

/-! ### A map from paths to byte arrays -/

/-- A file system that behaves as a map from paths to byte arrays.  Its files have numbers; a read or write acts at the
offset it is given and may move fewer bytes than asked for, and a call that fails changes no file. -/
class FileMap (F : Type) extends FileOps F where
  /-- The file with a path. -/
  file : F → Str → Option (BitVec 64)
  /-- The bytes of a file. -/
  content : F → BitVec 64 → List Byte
  file_inj : ∀ {fs p q i}, file fs p = some i → file fs q = some i → p = q
  length_lt : ∀ fs i, (content fs i).length < 2 ^ 64
  content_eq_nil : ∀ {fs i}, (∀ p, file fs p ≠ some i) → content fs i = []
  file_of_getattr : ∀ {fs p attr}, getattr fs p = .ok attr → attr.fileType ≠ .directory →
    file fs p = some attr.inode ∧ attr.size.toNat = (content fs attr.inode).length
  getattr_of_file : ∀ {fs p i}, file fs p = some i →
    ∃ attr, getattr fs p = .ok attr ∧ attr.fileType ≠ .directory
  create_ok : ∀ {fs p perm i fs'}, create fs p perm = (.ok i, fs') →
    (∀ q, file fs q ≠ some i) ∧ (∀ q, file fs' q = if q = p then some i else file fs q) ∧
      ∀ j, content fs' j = if j = i then [] else content fs j
  create_error : ∀ {fs p perm e fs'}, create fs p perm = (.error e, fs') →
    file fs' = file fs ∧ content fs' = content fs
  read_ok : ∀ {fs i off n bytes}, read fs i off n = .ok bytes →
    ∃ k ≤ n, bytes = ((content fs i).drop off.toNat).take k
  write_ok : ∀ {fs i off data n fs'}, write fs i off data = (.ok n, fs') →
    n ≤ data.length ∧ file fs' = file fs ∧
      ∀ j, content fs' j = if j = i then overwrite 0 (content fs i) off.toNat (data.take n) else content fs j
  write_error : ∀ {fs i off data e fs'}, write fs i off data = (.error e, fs') →
    file fs' = file fs ∧ content fs' = content fs

/-! ### What a program is promised -/

abbrev File := BitVec 64 × BitVec 64

structure OpenFile where
  file : File
  position : Nat
  flags : OpenFlags

/-- What programs see of the files. -/
structure View where
  content : File → List Byte
  handles : List OpenFile

/-- The requests of programs: the path of an open names a file or none. -/
inductive Request
  | open (target : Option File) (flags : OpenFlags)
  | read (k len : Nat)
  | write (k : Nat) (data : List Byte)

namespace View

section

variable (w : View)

/-- Open a file that exists: with the flags for truncating and writing, it is empty afterwards. -/
def openFile (f : File) (flags : OpenFlags) : View where
  content := if flags.truncate && flags.write then update w.content f [] else w.content
  handles := w.handles ++ [⟨f, 0, flags⟩]

def create (f : File) (flags : OpenFlags) : View where
  content := update w.content f []
  handles := w.handles ++ [⟨f, 0, flags⟩]

def advance (k : Nat) (h : OpenFile) (n : Nat) : View :=
  { w with handles := w.handles.set k { h with position := h.position + n } }

/-- Where a write goes: to the end of the file in append mode, else to the position of the handle. -/
def writePos (h : OpenFile) : Nat := if h.flags.append then (w.content h.file).length else h.position

def write (k : Nat) (h : OpenFile) (data : List Byte) : View :=
  { w.advance k h data.length with
    content := update w.content h.file (overwrite 0 (w.content h.file) (w.writePos h) data) }

end

variable {w : View}

theorem writePos_append {h : OpenFile} (ha : h.flags.append = true) :
    w.writePos h = (w.content h.file).length := if_pos ha

theorem writePos_position {h : OpenFile} (ha : ¬h.flags.append = true) : w.writePos h = h.position :=
  if_neg ha

end View

/-! ### What the calls do -/

theorem findFs_setMount {fsId : BitVec 64} {fs : F} {ms : List (MountPoint F)} (h : findFs fsId ms = some fs) (fs' : F)
    (id : BitVec 64) : findFs id (setMount fsId fs' ms) = if id = fsId then some fs' else findFs id ms := by
  induction ms with
  | nil => cases h
  | cons m ms ih =>
    unfold findFs at h
    by_cases hm : m.fsId = fsId
    · rw [setMount, if_pos hm, findFs, findFs]
      rw [hm]
      by_cases hid : fsId = id
      · rw [if_pos hid, if_pos hid.symm]
      · rw [if_neg hid, if_neg hid, if_neg fun h => hid h.symm]
    · rw [if_neg hm] at h
      rw [setMount, if_neg hm, findFs, findFs, ih h]
      by_cases hid : m.fsId = id
      · simp_all
      · rw [if_neg hid, if_neg hid]

theorem VfsManager.mounts_resolvePath (v : VfsManager F) (path : Str) : (v.resolvePath path).2.mounts = v.mounts := by
  unfold VfsManager.resolvePath
  dsimp only
  split
  · rfl
  · split <;> rfl

variable [FileMap F]

namespace VfsManager

def content (v : VfsManager F) (f : File) : List Byte :=
  match findFs f.1 v.mounts with
  | some fs => FileMap.content fs f.2
  | none => []

def target (v : VfsManager F) (path : Str) : Option File :=
  match (v.resolvePath path).1 with
  | .ok (fsId, relPath) => (findFs fsId v.mounts).bind fun fs => (FileMap.file fs relPath).map (fsId, ·)
  | .error _ => none

def rootSize (v : VfsManager F) (fsId : BitVec 64) : Option Nat :=
  (findFs fsId v.mounts).bind fun fs => ((FileOps.getattr fs root).toOption).map fun attr => attr.size.toNat

variable {fs : F} {fsId : BitVec 64} {v : VfsManager F}

theorem content_of_findFs (h : findFs fsId v.mounts = some fs)
    (i : BitVec 64) : v.content (fsId, i) = FileMap.content fs i := by
  unfold content
  rw [h]

theorem length_content_lt (v : VfsManager F) (f : File) : (v.content f).length < 2 ^ 64 := by
  unfold content
  split
  · exact FileMap.length_lt _ _
  · exact Nat.two_pow_pos 64

theorem content_setFs {i : BitVec 64} {fs' : F} {c : List Byte} (h : findFs fsId v.mounts = some fs)
    (hc : ∀ j, FileMap.content fs' j = if j = i then c else FileMap.content fs j) :
    (v.setFs fsId fs').content = update v.content (fsId, i) c := by
  funext f
  obtain ⟨id, j⟩ := f
  unfold content setFs
  rw [findFs_setMount h]
  by_cases hid : id = fsId
  · subst hid
    rw [if_pos rfl]
    dsimp only
    by_cases hj : j = i
    · grind
    · grind
  · rw [if_neg hid, update_of_ne (fun heq => hid (Prod.ext_iff.1 heq).1)]

theorem content_setFs_same {fs' : F} (h : findFs fsId v.mounts = some fs)
    (hc : FileMap.content fs' = FileMap.content fs) : (v.setFs fsId fs').content = v.content := by
  rw [content_setFs (i := 0) (c := FileMap.content fs 0) h, ← content_of_findFs h, update_eq_self]
  intro j
  rw [hc]
  by_cases hj : j = 0
  · rw [if_pos hj, hj]
  · rw [if_neg hj]

/-- What `open` does: it opens a file that exists, or creates it, or fails; the bytes of the files stay as they are. -/
inductive Opened (v : VfsManager F) (path : Str) (flags : OpenFlags) : Except VfsError FileHandle → Prop
  | existing {f : File} : v.target path = some f → Opened v path flags (.ok (.new f.2 flags f.1))
  | created {f : File} : v.target path = none → flags.create = true → v.content f = [] →
      Opened v path flags (.ok (.new f.2 flags f.1))
  | failed {e : VfsError} : v.target path = none → Opened v path flags (.error e)

theorem target_of_resolve {path relPath : Str}
    (hres : (v.resolvePath path).1 = .ok (fsId, relPath)) (hfs : findFs fsId v.mounts = some fs) :
    v.target path = (FileMap.file fs relPath).map (fsId, ·) := by
  simp [target, hres, hfs]

theorem file_eq_none {p : Str}
    (h : ∀ attr, FileOps.getattr fs p = .ok attr → attr.fileType = .directory) : FileMap.file fs p = none := by
  cases hfile : FileMap.file fs p with
  | none => rfl
  | some i =>
    obtain ⟨attr, hattr, hne⟩ := FileMap.getattr_of_file hfile
    exact absurd (h attr hattr) hne

theorem openIn_opened {v0 : VfsManager F} {path relPath : Str}
    (hm : v.mounts = v0.mounts) (hres : (v0.resolvePath path).1 = .ok (fsId, relPath))
    (hfs : findFs fsId v0.mounts = some fs) (flags : OpenFlags) :
    Opened v0 path flags (v.openIn fsId relPath flags fs).1 ∧
      (v.openIn fsId relPath flags fs).2.content = v0.content := by
  have hsame : v.content = v0.content := by
    funext f
    unfold content
    rw [hm]
  have ht := target_of_resolve hres hfs
  have hfs' : findFs fsId v.mounts = some fs := by
    rw [hm]
    exact hfs
  unfold openIn
  cases hattr : FileOps.getattr fs relPath with
  | ok attr =>
    dsimp only
    by_cases hdir : attr.fileType = .directory
    · rw [if_pos hdir]
      refine ⟨.failed ?_, hsame⟩
      simp_all [file_eq_none, Option.map_none]
    · rw [if_neg hdir]
      refine ⟨?_, hsame⟩
      have hfile := (FileMap.file_of_getattr hattr hdir).1
      have hsome : v0.target path = some (fsId, attr.inode) := by
        rw [ht, hfile, Option.map_some]
      exact .existing hsome
  | error e =>
    have hnone : v0.target path = none := by
      simp [ht, file_eq_none, Option.map_none, hattr]
    dsimp only
    by_cases hcr : e = .notFound ∧ flags.create = true
    · rw [if_pos hcr]
      cases hc : FileOps.create fs relPath Permissions.default with
      | mk r fs' =>
        cases r with
        | ok i =>
          obtain ⟨hf, -, hco⟩ := FileMap.create_ok hc
          have hnil := FileMap.content_eq_nil hf
          have hem : v0.content (fsId, i) = [] := by
            rw [content_of_findFs hfs, hnil]
          refine ⟨.created (f := (fsId, i)) hnone hcr.2 hem, ?_⟩
          rw [content_setFs_same hfs', hsame]
          funext j
          rw [hco]
          by_cases hj : j = i
          · rw [if_pos hj, hj, hnil]
          · rw [if_neg hj]
        | error e' =>
          refine ⟨.failed hnone, ?_⟩
          rw [content_setFs_same hfs' (FileMap.create_error hc).2, hsame]
    · rw [if_neg hcr]
      exact ⟨.failed hnone, hsame⟩

theorem openFile_opened (v : VfsManager F) (path : Str) (flags : OpenFlags) :
    Opened v path flags (v.openFile path flags).1 ∧ (v.openFile path flags).2.content = v.content := by
  have hm := mounts_resolvePath v path
  unfold openFile
  cases hres : v.resolvePath path with
  | mk r v' =>
    rw [hres] at hm
    have hsame : v'.content = v.content := by
      funext f
      unfold content
      rw [hm]
    have hres1 : (v.resolvePath path).1 = r := by rw [hres]
    cases r with
    | error e =>
      refine ⟨.failed ?_, hsame⟩
      unfold target
      rw [hres1]
    | ok rel =>
      obtain ⟨fsId, relPath⟩ := rel
      dsimp only
      rw [hm]
      cases hfs : findFs fsId v.mounts with
      | none =>
        refine ⟨.failed ?_, hsame⟩
        simp [target, hres1, hfs]
      | some fs => exact openIn_opened hm hres1 hfs flags

theorem read_cases (v : VfsManager F) (h : FileHandle) (len : Nat) :
    (∃ n ≤ len, ∃ bytes, bytes = ((v.content (h.fsId, h.inode)).drop h.position.toNat).take n ∧ h.flags.read = true ∧
      v.read h len = (.ok bytes, h.advance bytes.length)) ∨ ∃ e, v.read h len = (.error e, h) := by
  unfold read
  by_cases hread : h.flags.read = true
  · rw [if_neg (by simp [hread])]
    cases hfs : findFs h.fsId v.mounts with
    | none => exact Or.inr ⟨_, rfl⟩
    | some fs =>
      dsimp only
      cases hr : FileOps.read fs h.inode h.position len with
      | error e => exact Or.inr ⟨e, rfl⟩
      | ok bytes =>
        obtain ⟨n, hn, hb⟩ := FileMap.read_ok hr
        refine Or.inl ⟨n, hn, bytes, ?_, hread, rfl⟩
        rw [content_of_findFs hfs, hb]
  · simp [hread]

/-- What `write` does: it stores bytes at an offset, which in append mode is the size of the root directory, or fails. -/
inductive Written (v : VfsManager F) (h : FileHandle) (data : List Byte) :
    Except VfsError Nat → FileHandle → VfsManager F → Prop
  | wrote {pos n : Nat} {v' : VfsManager F} : h.flags.write = true → n ≤ data.length →
      (if h.flags.append then v.rootSize h.fsId = some pos else pos = h.position.toNat) →
      v'.content = update v.content (h.fsId, h.inode)
        (overwrite 0 (v.content (h.fsId, h.inode)) pos (data.take n)) →
      Written v h data (.ok n) (h.advance n) v'
  | failed {e : VfsError} {v' : VfsManager F} : v'.content = v.content → Written v h data (.error e) h v'

theorem writePos_ok {h : FileHandle} {pos : BitVec 64}
    (hfs : findFs h.fsId v.mounts = some fs) (hpos : writePos fs h = .ok pos) :
    if h.flags.append then v.rootSize h.fsId = some pos.toNat else pos.toNat = h.position.toNat := by
  unfold writePos at hpos
  split
  · rename_i ha
    rw [if_pos ha] at hpos
    unfold rootSize
    rw [hfs, Option.bind_some]
    cases hattr : FileOps.getattr fs root with
    | error e =>
      rw [hattr] at hpos
      cases hpos
    | ok attr =>
      rw [hattr] at hpos
      cases hpos
      rfl
  · grind

theorem write_written (v : VfsManager F) (h : FileHandle) (data : List Byte) :
    Written v h data (v.write h data).1 (v.write h data).2.1 (v.write h data).2.2 := by
  unfold write
  by_cases hwr : h.flags.write = true
  · rw [if_neg (by simp [hwr])]
    cases hfs : findFs h.fsId v.mounts with
    | none => exact .failed rfl
    | some fs =>
      dsimp only
      cases hpos : writePos fs h with
      | error e => exact .failed rfl
      | ok pos =>
        dsimp only
        cases hw : FileOps.write fs h.inode pos data with
        | mk r fs' =>
          cases r with
          | error e => exact .failed (content_setFs_same hfs (FileMap.write_error hw).2)
          | ok n =>
            obtain ⟨hn, -, hc⟩ := FileMap.write_ok hw
            refine .wrote hwr hn (writePos_ok hfs hpos) ?_
            rw [content_setFs hfs hc, content_of_findFs hfs]
  · simpa [hwr] using .failed rfl

end VfsManager

end AstralOS.Vfs
