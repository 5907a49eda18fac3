import AstralOS.Fs.Inode
import AstralOS.Lib.LruCache
import AstralOS.Lib.Run
import AstralOS.Lib.Separated

/-!
# The virtual file system: mounts, path resolution and its cache

`kernel/src/fs/vfs.rs`.  A Rust string is its UTF-8 bytes: `len` counts bytes, a slice cuts at a byte, and the
slashes and dots the code looks for are single bytes that occur in no other character.  The mounted file systems are
a parameter with the two operations the manager calls here.
-/

namespace AstralOS.Vfs

abbrev Str := List Byte

def slash : Byte := 0x2f
def dot : Byte := 0x2e

def root : Str := [slash]

inductive VfsError
  | notFound
  | alreadyExists
  | notDirectory
  | isDirectory
  | permissionDenied
  | invalidPath
  | noSpace
  | ioError
  | notMounted
  | busy
  | invalidOperation
  | tooLarge
  | notEmpty
  deriving DecidableEq

/-- The methods of the trait that mounting and unmounting call, with the file system they leave. -/
class Filesystem (F : Type) where
  mount : F → Except VfsError Unit × F
  unmount : F → Except VfsError Unit × F

structure MountPoint (F : Type) where
  path : Str
  fs : F
  fsId : BitVec 64

def maxPathCacheSize : Nat := 256

structure VfsManager (F : Type) where
  /-- Mount points sorted by path length, longest first. -/
  mounts : List (MountPoint F)
  nextFsId : BitVec 64
  /-- `path_cache` and, as its order, `cache_lru`. -/
  cache : LruCache Str (BitVec 64 × Str)

/-! ### Paths -/

def pushComponent (components : List Str) (component : Str) : List Str :=
  if component = [] ∨ component = [dot] then components
  else if component = [dot, dot] then components.dropLast
  else components ++ [component]

def components (path : Str) : List Str := (path.splitOn slash).foldl pushComponent []

def normalizePath (path : Str) : Str :=
  if path = [] ∨ path = root then root
  else if components path = [] then root
  else joined slash (components path)

/-! ### The manager -/

variable {F : Type}

def MountPoint.covers (mount : MountPoint F) (normalized : Str) : Bool :=
  normalized == mount.path || (mount.path ++ [slash]).isPrefixOf normalized

def lookup (mounts : List (MountPoint F)) (normalized : Str) : Option (BitVec 64 × Str) :=
  match mounts.find? (·.covers normalized) with
  | some mount =>
    some (mount.fsId, if normalized = mount.path then root else normalized.drop mount.path.length)
  | none =>
    match mounts.find? (·.path == root) with
    | some mount => some (mount.fsId, normalized)
    | none => none

def Longer (a b : MountPoint F) : Prop := b.path.length ≤ a.path.length

instance : DecidableRel (Longer (F := F)) := fun a b => inferInstanceAs (Decidable (b.path.length ≤ a.path.length))

namespace VfsManager

def new : VfsManager F := ⟨[], 1, .empty⟩

/-- A failed mount drops the file system, so that nothing is left of `fs.unmount().ok()`. -/
def mount [Filesystem F] (mountPath : Str) (fs : F) (v : VfsManager F) : Except VfsError Unit × VfsManager F :=
  let path := normalizePath mountPath
  match Filesystem.mount fs with
  | (.error e, _) => (.error e, v)
  | (.ok (), fs) =>
    let fsId := v.nextFsId
    let v := { v with nextFsId := v.nextFsId + 1 }
    if v.mounts.any (·.path == path) then (.error .alreadyExists, v)
    else
      -- `sort_by` is stable, as is the insertion sort.
      let mounts : List (MountPoint F) := v.mounts ++ [⟨path, fs, fsId⟩]
      (.ok (), { v with mounts := mounts.insertionSort Longer, cache := .empty })

/-- The mount is removed before its file system is asked, and stays removed if that fails. -/
def unmount [Filesystem F] (mountPath : Str) (v : VfsManager F) : Except VfsError Unit × VfsManager F :=
  let path := normalizePath mountPath
  match v.mounts.find? (·.path == path) with
  | some mount =>
    let v := { v with mounts := v.mounts.eraseP (·.path == path) }
    match (Filesystem.unmount mount.fs).1 with
    | .error e => (.error e, v)
    | .ok () => (.ok (), { v with cache := .empty })
  | none => (.error .notMounted, v)

def resolvePath (path : Str) (v : VfsManager F) : Except VfsError (BitVec 64 × Str) × VfsManager F :=
  let normalized := normalizePath path
  match v.cache.get normalized with
  | some cached => (.ok cached, { v with cache := v.cache.touch normalized })
  | none =>
    match lookup v.mounts normalized with
    | some result => (.ok result, { v with cache := v.cache.insert maxPathCacheSize normalized result })
    | none => (.error .notMounted, v)

end VfsManager

/-! ### Runs -/

inductive Call (F : Type)
  | mount (mountPath : Str) (fs : F)
  | unmount (mountPath : Str)
  | resolvePath (path : Str)

def exec [Filesystem F] (v : VfsManager F) : Call F → VfsManager F
  | .mount mountPath fs => (v.mount mountPath fs).2
  | .unmount mountPath => (v.unmount mountPath).2
  | .resolvePath path => (v.resolvePath path).2

/-- A call to unmount meets a file system whose own unmount succeeds. -/
def UnmountSucceeds [Filesystem F] (v : VfsManager F) : Call F → Prop
  | .unmount mountPath => ∀ m ∈ v.mounts, m.path = normalizePath mountPath → (Filesystem.unmount m.fs).1 = .ok ()
  | _ => True

end AstralOS.Vfs
