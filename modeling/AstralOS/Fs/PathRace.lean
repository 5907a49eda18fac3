import AstralOS.Fs.PathResolution

/-!
# The path cache with several threads

`mount`, `unmount` and `resolve_path` of `kernel/src/fs/vfs.rs` on any number of threads, one step for each section under a
lock.  A thread that changes the mounts keeps their lock until it has cleared the cache and its order, each under a lock of
its own.  `resolve_path` takes three locks one after the other: it looks into the cache, computes an answer from the mounts,
and puts that into the cache later, when the mounts may have changed.

`Race.Inv` says that the cache is up to date, or that a thread is about to clear it.  An answer that is put into the cache
while it is still right keeps that (`Race.Inv.step`), so between the calls no entry is stale (`pathCache_fresh_of_meets`).
-/

open Function

namespace AstralOS.Vfs

variable {F : Type}

/-- Where a thread is in a call, with the variables it has so far. -/
inductive Pc (F : Type)
  | idle
  /-- In `mount`, before the number is taken. -/
  | mountNumber (path : Str) (fs : F)
  /-- In `mount`, before the lock of the mounts. -/
  | mountInsert (path : Str) (fs : F) (fsId : BitVec 64)
  /-- In `unmount`, before the lock of the mounts. -/
  | unmountRemove (path : Str)
  /-- With the lock of the mounts, before the cache is cleared. -/
  | clearCache
  /-- With the lock of the mounts, before the order of the cache is cleared. -/
  | clearOrder
  /-- In `resolve_path`, before the look into the cache. -/
  | readCache (normalized : Str)
  /-- In `resolve_path`, before the lock of the mounts. -/
  | readMounts (normalized : Str)
  /-- In `resolve_path`, before the answer is put into the cache. -/
  | cacheInsert (normalized : Str) (result : BitVec 64 × Str)

/-- The manager, which thread has the lock of the mounts for writing, and where each thread is. -/
structure Race (F : Type) where
  manager : VfsManager F
  lock : Option Nat
  pc : Nat → Pc F

/-- A call that a thread begins, or the next section of its call. -/
inductive RaceStep (F : Type)
  | call (thread : Nat) (c : Call F)
  | step (thread : Nat)

namespace Race

def start : Race F := { manager := .new, lock := none, pc := fun _ => .idle }

def goto (s : Race F) (t : Nat) (pc : Pc F) : Race F := { s with pc := update s.pc t pc }

def Quiet (s : Race F) : Prop := ∀ t, s.pc t = .idle

/-- Every entry of the cache is the longest-prefix resolution of its key. -/
def Fresh (s : Race F) : Prop :=
  ∀ q result, s.manager.cache.get q = some result → Answers s.manager.mounts q (.ok result)

/-- An answer is put into the cache while it is still the one for the mounts, or before the cache is cleared. -/
def Timely (s : Race F) : RaceStep F → Prop
  | .call _ _ => True
  | .step t => ∀ q result, s.pc t = .cacheInsert q result →
      lookup s.manager.mounts q = some result ∨ ∃ t', s.pc t' = .clearCache

section Steps

variable [Filesystem F]

def begin (s : Race F) (t : Nat) : Call F → Race F
  | .mount mountPath fs =>
    match Filesystem.mount fs with
    | (.error _, _) => s
    | (.ok (), fs) => s.goto t (.mountNumber (normalizePath mountPath) fs)
  | .unmount mountPath => s.goto t (.unmountRemove (normalizePath mountPath))
  | .resolvePath path => s.goto t (.readCache (normalizePath path))

/-- The next section of a thread.  A thread that waits for the lock of the mounts stays where it is. -/
def advance (s : Race F) (t : Nat) : Race F :=
  match s.pc t with
  | .idle => s
  | .mountNumber path fs =>
    { s with manager := { s.manager with nextFsId := s.manager.nextFsId + 1 } }.goto t
      (.mountInsert path fs s.manager.nextFsId)
  | .mountInsert path fs fsId =>
    if s.lock.isSome then s
    else if s.manager.mounts.any (·.path == path) then s.goto t .idle
    else
      let mounts : List (MountPoint F) := s.manager.mounts ++ [⟨path, fs, fsId⟩]
      { s with
        manager := { s.manager with mounts := mounts.insertionSort Longer }
        lock := some t }.goto t .clearCache
  | .unmountRemove path =>
    if s.lock.isSome then s
    else
      match s.manager.mounts.find? (·.path == path) with
      | none => s.goto t .idle
      | some mount =>
        let s := { s with manager := { s.manager with mounts := s.manager.mounts.eraseP (·.path == path) } }
        match (Filesystem.unmount mount.fs).1 with
        | .error _ => s.goto t .idle
        | .ok () => { s with lock := some t }.goto t .clearCache
  | .clearCache =>
    { s with manager := { s.manager with cache := { s.manager.cache with entries := fun _ => none } } }.goto t .clearOrder
  | .clearOrder =>
    { s with
      manager := { s.manager with cache := { s.manager.cache with order := [] } }
      lock := none }.goto t .idle
  | .readCache normalized =>
    match s.manager.cache.get normalized with
    | some _ => { s with manager := { s.manager with cache := s.manager.cache.touch normalized } }.goto t .idle
    | none => s.goto t (.readMounts normalized)
  | .readMounts normalized =>
    if s.lock.isSome then s
    else
      match lookup s.manager.mounts normalized with
      | some result => s.goto t (.cacheInsert normalized result)
      | none => s.goto t .idle
  | .cacheInsert normalized result =>
    { s with
      manager := { s.manager with cache := s.manager.cache.insert maxPathCacheSize normalized result } }.goto t .idle

def exec (s : Race F) : RaceStep F → Race F
  | .call t c => s.begin t c
  | .step t => s.advance t

/-- A thread begins a call when it has none running, and a file system lets itself be unmounted. -/
def Permitted (s : Race F) : RaceStep F → Prop
  | .call t _ => s.pc t = .idle
  | .step t => ∀ path, s.pc t = .unmountRemove path →
      ∀ m ∈ s.manager.mounts, m.path = path → (Filesystem.unmount m.fs).1 = .ok ()

end Steps

/-! ### The invariant -/

end Race

def Pc.path : Pc F → Option Str
  | .mountNumber path _ | .mountInsert path _ _ | .unmountRemove path | .readCache path | .readMounts path
  | .cacheInsert path _ => some path
  | .idle | .clearCache | .clearOrder => none

namespace Race

/-- The mounts are in order, and the cache is up to date or about to be cleared. -/
structure Inv (s : Race F) : Prop where
  ordered : Ordered s.manager.mounts
  normal : ∀ t q, (s.pc t).path = some q → Normal q
  keys : ∀ q result, s.manager.cache.get q = some result → Normal q
  clean : (∃ t, s.pc t = .clearCache) ∨ s.manager.cache.Agrees (lookup s.manager.mounts)

variable {s s' : Race F} {t : Nat} {pc : Pc F}

theorem inv_start : (start : Race F).Inv where
  ordered := inv_new.ordered
  normal := fun _ _ h => by cases h
  keys := fun _ _ h => by cases h
  clean := Or.inr inv_new.cached

theorem Inv.fresh (h : s.Inv) (hq : s.Quiet) : s.Fresh := by
  intro q result hget
  have hag : s.manager.cache.Agrees (lookup s.manager.mounts) := by
    refine h.clean.resolve_left ?_
    rintro ⟨t, ht⟩
    rw [hq t] at ht
    cases ht
  have han := lookup_answers h.ordered (h.keys q result hget)
  simp_all [hag q result hget]

theorem Inv.moved (h : s.Inv) (hpc : s'.pc = update s.pc t pc) (ho : Ordered s'.manager.mounts)
    (hpath : ∀ q, pc.path = some q → Normal q) (hkeys : ∀ q result, s'.manager.cache.get q = some result → Normal q)
    (hc : ((∃ u ≠ t, s.pc u = .clearCache) ∨ pc = .clearCache) ∨ s'.manager.cache.Agrees (lookup s'.manager.mounts)) :
    s'.Inv where
  ordered := ho
  normal := by
    intro u q hu
    rw [hpc] at hu
    by_cases hut : u = t
    · subst hut
      rw [update_self] at hu
      exact hpath q hu
    · rw [update_of_ne hut] at hu
      exact h.normal u q hu
  keys := hkeys
  clean := by
    rw [hpc]
    refine hc.imp_left ?_
    rintro (⟨u, hut, hu⟩ | rfl)
    · exact ⟨u, by rw [update_of_ne hut]; exact hu⟩
    · exact ⟨t, update_self ..⟩

theorem Inv.clean_of_ne (h : s.Inv) (ht : s.pc t ≠ .clearCache) :
    ((∃ u ≠ t, s.pc u = .clearCache) ∨ pc = .clearCache) ∨ s.manager.cache.Agrees (lookup s.manager.mounts) := by
  refine h.clean.imp_left ?_
  grind

theorem Inv.goto (h : s.Inv) (ht : s.pc t ≠ .clearCache) (hpath : ∀ q, pc.path = some q → Normal q) : (s.goto t pc).Inv :=
  h.moved rfl h.ordered hpath h.keys (h.clean_of_ne ht)

section Steps

variable [Filesystem F]

theorem Inv.begin (h : s.Inv) (ht : s.pc t = .idle) (c : Call F) : (s.begin t c).Inv := by
  have hne : s.pc t ≠ .clearCache := by simp [ht]
  cases c with
  | mount mountPath fs =>
    unfold Race.begin
    dsimp only
    split
    · exact h
    · refine h.goto hne fun q hq => ?_
      cases hq
      exact normal_normalizePath mountPath
  | unmount mountPath =>
    refine h.goto hne fun q hq => ?_
    cases hq
    exact normal_normalizePath mountPath
  | resolvePath path =>
    refine h.goto hne fun q hq => ?_
    cases hq
    exact normal_normalizePath path

theorem Inv.advance (h : s.Inv) (hp : s.Permitted (.step t)) (ht : s.Timely (.step t)) :
    (s.advance t).Inv := by
  have hn := h.normal t
  have hnone : ∀ {pc : Pc F}, pc.path = none → ∀ q, pc.path = some q → Normal q := by
    grind
  unfold Race.advance
  cases hpc : s.pc t with
  | idle => exact h
  | mountNumber path fs =>
    rw [hpc] at hn
    exact h.moved rfl h.ordered hn h.keys (h.clean_of_ne (by simp [hpc]))
  | mountInsert path fs fsId =>
    rw [hpc] at hn
    dsimp only
    split_ifs with hlock hany
    · exact h
    · exact h.goto (by simp [hpc]) (hnone rfl)
    · have hnew : ∀ m ∈ s.manager.mounts, m.path ≠ path := by simpa using hany
      exact h.moved rfl (h.ordered.insert (hn path rfl) hnew) (hnone rfl) h.keys (Or.inl (Or.inr rfl))
  | unmountRemove path =>
    dsimp only
    split_ifs with hlock
    · exact h
    split
    · exact h.goto (by simp [hpc]) (hnone rfl)
    · rename_i m hfind
      have hpath : m.path = path := by simpa using List.find?_some hfind
      rw [hp path hpc m (List.mem_of_find?_eq_some hfind) hpath]
      exact h.moved rfl (h.ordered.sublist List.eraseP_sublist) (hnone rfl) h.keys (Or.inl (Or.inr rfl))
  | clearCache =>
    refine h.moved rfl h.ordered (hnone rfl) ?_ (Or.inr ?_)
    · intro q result hget
      cases hget
    · intro q result hget
      cases hget
  | clearOrder => exact h.moved rfl h.ordered (hnone rfl) h.keys (h.clean_of_ne (by simp [hpc]))
  | readCache normalized =>
    rw [hpc] at hn
    dsimp only
    split
    · exact h.moved rfl h.ordered (hnone rfl) h.keys (h.clean_of_ne (by simp [hpc]))
    · exact h.goto (by simp [hpc]) hn
  | readMounts normalized =>
    rw [hpc] at hn
    dsimp only
    split_ifs with hlock
    · exact h
    split
    · exact h.goto (by simp [hpc]) hn
    · exact h.goto (by simp [hpc]) (hnone rfl)
  | cacheInsert normalized result =>
    rw [hpc] at hn
    refine h.moved rfl h.ordered (hnone rfl) ?_ ?_
    · intro q result' hget
      rcases LruCache.get_insert_cases hget with ⟨rfl, -⟩ | hold
      · exact hn q rfl
      · exact h.keys q result' hold
    · -- with a clear to come nothing is asked of the answer
      by_cases hc : ∃ u ≠ t, s.pc u = .clearCache
      · exact Or.inl (Or.inl hc)
      · have ho : ∀ u, s.pc u ≠ .clearCache := by
          grind
        have hl := (ht normalized result hpc).resolve_right fun ⟨u, hu⟩ => ho u hu
        have ha := h.clean.resolve_left fun ⟨u, hu⟩ => ho u hu
        exact Or.inr (ha.insert hl)

theorem Inv.exec (h : s.Inv) {a : RaceStep F} (hp : s.Permitted a) (ht : s.Timely a) : (s.exec a).Inv := by
  cases a with
  | call t c => exact h.begin hp c
  | step t => exact h.advance hp ht

/-- In every state without a running call no entry of the cache is stale, as long as each answer is put into the cache
while it is still right or before the cache is cleared. -/
theorem pathCache_fresh_of_meets {as : List (RaceStep F)}
    (h : Meets exec (fun s a => s.Permitted a ∧ s.Timely a) (start : Race F) as) :
    Always exec (fun s => s.Quiet → s.Fresh) start as :=
  always_of_meets (I := Inv) (R := fun _ => True) (fun _ hs => hs.fresh) (fun _ _ _ hs ha => hs.exec ha.1 ha.2) inv_start
    (fun _ _ => trivial) h

end Steps

def undisturbed (t : Nat) (c : Call CalmFs) : List (RaceStep CalmFs) := .call t c :: List.replicate 4 (.step t)

/-- While thread 1 resolves `/a`, thread 0 begins to mount another file system, but clears the cache only after thread 1
has put its answer there. -/
def timelyInsert : List (RaceStep CalmFs) :=
  undisturbed 0 (.mount root {}) ++
    [.call 1 (.resolvePath (Fs.strBytes "/a")), .step 1, .step 1, .call 0 (.mount (Fs.strBytes "/a") {}), .step 0, .step 0,
      .step 1, .step 0, .step 0]

theorem pathCache_fresh_of_meets_timelyInsert :
    Always exec (fun s => s.Quiet → s.Fresh) (start : Race CalmFs) timelyInsert := by
  apply pathCache_fresh_of_meets
  refine ⟨⟨rfl, trivial⟩, ⟨nofun, nofun⟩, ⟨nofun, nofun⟩, ⟨nofun, nofun⟩, ⟨nofun, nofun⟩, ⟨rfl, trivial⟩, ⟨nofun, nofun⟩,
    ⟨nofun, nofun⟩, ⟨rfl, trivial⟩, ⟨nofun, nofun⟩, ⟨nofun, nofun⟩, ⟨nofun, ?_⟩, ⟨nofun, nofun⟩, ⟨nofun, nofun⟩, trivial⟩
  intro q result _
  exact Or.inr ⟨0, rfl⟩

/-- Thread 1 computes its answer for `/a`, then thread 0 mounts a file system there, and then the answer is put into the
cache. -/
def lateInsert : List (RaceStep CalmFs) :=
  undisturbed 0 (.mount root {}) ++ [.call 1 (.resolvePath (Fs.strBytes "/a")), .step 1, .step 1] ++
    undisturbed 0 (.mount (Fs.strBytes "/a") {}) ++ [.step 1]

theorem lateInsert_is_stale :
    Meets exec Permitted (start : Race CalmFs) lateInsert ∧
      ¬Always exec (fun s => s.Quiet → s.Fresh) (start : Race CalmFs) lateInsert := by
  constructor
  · exact ⟨rfl, nofun, nofun, nofun, nofun, rfl, nofun, nofun, rfl, nofun, nofun, nofun, nofun, nofun, trivial⟩
  · intro h
    have hq : (run exec (start : Race CalmFs) lateInsert).Quiet := by
      intro t
      match t with
      | 0 => rfl
      | 1 => rfl
      | _ + 2 => rfl
    have hget : (run exec (start : Race CalmFs) lateInsert).manager.cache.get (Fs.strBytes "/a") =
        some (1, Fs.strBytes "/a") := by decide
    obtain ⟨m, hm, hid, -⟩ := h.run hq _ _ hget
    have hmo : (run exec (start : Race CalmFs) lateInsert).manager.mounts =
        [⟨Fs.strBytes "/a", {}, 2⟩, ⟨root, {}, 1⟩] := rfl
    -- the mount at `/a` has a longer path
    rcases hm.longest ⟨Fs.strBytes "/a", {}, 2⟩ List.mem_cons_self List.prefix_rfl with rfl | hlt
    · revert hid
      decide
    · exact absurd hm.begins.length_le (Nat.not_le.2 hlt)

end Race

end AstralOS.Vfs
