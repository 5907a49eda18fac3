import AstralOS.Fs.Vfs

/-!
# Cached path resolution is longest-prefix resolution

A normalized path is a list of components behind slashes, and the mounts are kept in descending length under
different normalized paths (`Ordered`).  The first mount that covers a path is then the one with the longest list of
components (`lookup_answers`).  Every entry of the cache is what the lookup gives for the mounts at hand, since each
change of the mounts clears it (`Inv`).
-/

namespace AstralOS.Vfs

open List

variable {F : Type}

/-! ### Normalized paths -/

/-- A component of a normalized path. -/
structure IsComponent (c : Str) : Prop where
  ne_nil : c ≠ []
  noSlash : slash ∉ c
  ne_dot : c ≠ [dot]
  ne_dots : c ≠ [dot, dot]

def render (cs : List Str) : Str := if cs = [] then root else joined slash cs

def Normal (path : Str) : Prop := ∃ cs, (∀ c ∈ cs, IsComponent c) ∧ path = render cs

theorem isComponent_pushComponent {cs : List Str} (hcs : ∀ c ∈ cs, IsComponent c) {d : Str} (hd : slash ∉ d) :
    ∀ c ∈ pushComponent cs d, IsComponent c := by
  intro c hc
  rw [pushComponent] at hc
  split_ifs at hc with h1 h2
  · exact hcs c hc
  · exact hcs c (mem_of_mem_dropLast hc)
  · rcases mem_append.1 hc with hc | hc
    · exact hcs c hc
    · obtain rfl := mem_singleton.1 hc
      exact ⟨fun h => h1 (Or.inl h), hd, fun h => h1 (Or.inr h), h2⟩

theorem isComponent_of_mem_components {path c : Str} (hc : c ∈ components path) : IsComponent c := by
  have hfold : ∀ (ds cs : List Str), (∀ d ∈ ds, slash ∉ d) → (∀ c ∈ cs, IsComponent c) →
      ∀ c ∈ ds.foldl pushComponent cs, IsComponent c := by
    intro ds
    induction ds with
    | nil => exact fun cs _ hcs => hcs
    | cons d ds ih =>
      intro cs hds hcs
      exact ih _ (fun e he => hds e (by simp [he])) (isComponent_pushComponent hcs (hds d (by simp)))
  exact hfold _ [] (fun d hd => notMem_of_mem_splitOn hd) (by simp) c hc

theorem normalizePath_eq (path : Str) : normalizePath path = render (components path) := by
  rw [normalizePath]
  split_ifs with h1 h2
  · rcases h1 with rfl | rfl <;> rfl
  · rw [render, if_pos h2]
  · rw [render, if_neg h2]

theorem normal_normalizePath (path : Str) : Normal (normalizePath path) :=
  ⟨components path, fun _ hc => isComponent_of_mem_components hc, normalizePath_eq path⟩

theorem pieces_render {cs : List Str} (hcs : ∀ c ∈ cs, IsComponent c) : pieces slash (render cs) = cs := by
  rw [render]
  split_ifs with h
  · subst h
    rfl
  · exact pieces_joined fun c hc => ⟨(hcs c hc).ne_nil, (hcs c hc).noSlash⟩

theorem Normal.eq_render {path : Str} (h : Normal path) : path = render (pieces slash path) := by
  obtain ⟨cs, hcs, rfl⟩ := h
  rw [pieces_render hcs]

theorem Normal.eq_of_pieces {p q : Str} (hp : Normal p) (hq : Normal q) (h : pieces slash p = pieces slash q) :
    p = q := by
  rw [hp.eq_render, hq.eq_render, h]

theorem Normal.pieces_eq_nil_iff {path : Str} (h : Normal path) : pieces slash path = [] ↔ path = root := by
  constructor
  · intro hnil
    rw [h.eq_render, hnil]
    rfl
  · rintro rfl
    rfl

theorem Normal.length_lt {p q : Str} (hp : Normal p) (hq : Normal q) (h : pieces slash p <+: pieces slash q)
    (hlt : (pieces slash p).length < (pieces slash q).length) : p.length < q.length := by
  obtain ⟨ms, hms, rfl⟩ := hp
  obtain ⟨ns, hns, rfl⟩ := hq
  rw [pieces_render hms, pieces_render hns] at h hlt
  have hn : ns ≠ [] := by
    rintro rfl
    simp at hlt
  rw [render, render, if_neg hn]
  split_ifs with hm
  · obtain ⟨c, cs, rfl⟩ := exists_cons_of_ne_nil hn
    have hc := length_pos_of_ne_nil (hns c (by simp)).ne_nil
    simp only [root, joined_cons, length_cons, length_nil, length_append]
    omega
  · exact length_joined_lt h hlt

/-! ### One mount and one path -/

/-- A normalized path with a slash begins another one exactly if its components properly begin the other's.  The root
path, which has its slash already, begins none in this way. -/
theorem render_snoc_prefix_iff {ms ns : List Str} (hms : ∀ c ∈ ms, IsComponent c) (hns : ∀ c ∈ ns, IsComponent c) :
    render ms ++ [slash] <+: render ns ↔ ms ≠ [] ∧ ms <+: ns ∧ ms.length < ns.length := by
  by_cases hn : ns = []
  · subst hn
    refine iff_of_false (fun h => ?_) (by simp)
    have hpos : 0 < (render ms).length := by
      rw [render]
      split_ifs with hm
      · decide
      · have hnil : [] <+: ms := nil_prefix
        exact length_joined_lt hnil (length_pos_of_ne_nil hm)
    have hlen : (render ms ++ [slash]).length ≤ 1 := h.length_le
    grind
  have hr : render ns = joined slash ns := if_neg hn
  by_cases hm : ms = []
  · subst hm
    refine iff_of_false (fun h => ?_) (by simp)
    obtain ⟨c, cs, rfl⟩ := exists_cons_of_ne_nil hn
    obtain ⟨x, c', rfl⟩ := exists_cons_of_ne_nil (hns c (by simp)).ne_nil
    have hx : slash = x := by
      simpa [render, root] using h
    exact (hns _ mem_cons_self).noSlash (by simp [hx])
  · rw [hr, render, if_neg hm, joined_snoc_prefix_iff (fun c hc => (hms c hc).noSlash)
      fun c hc => (hns c hc).noSlash]
    simp [hm]

theorem MountPoint.covers_iff {m : MountPoint F} {q : Str} (hm : Normal m.path) (hq : Normal q) :
    m.covers q = true ↔ pieces slash m.path <+: pieces slash q ∧ (m.path = root → q = root) := by
  rw [← hm.pieces_eq_nil_iff, ← hq.pieces_eq_nil_iff, MountPoint.covers, Bool.or_eq_true, beq_iff_eq,
    isPrefixOf_iff_prefix]
  obtain ⟨ms, hms, hpath⟩ := hm
  obtain ⟨ns, hns, rfl⟩ := hq
  rw [hpath, render_snoc_prefix_iff hms hns, pieces_render hms, pieces_render hns]
  constructor
  · rintro (h | ⟨hne, h, -⟩)
    · have heq : ns = ms := by rw [← pieces_render hns, h, pieces_render hms]
      simp [heq]
    · exact ⟨h, fun hnil => absurd hnil hne⟩
  · rintro ⟨h, hnil⟩
    rcases Nat.lt_or_ge ms.length ns.length with hlt | hge
    · grind
    · exact Or.inl (by rw [h.eq_of_length_le hge])

/-! ### The list of mounts -/

/-- The list of mounts as `mount` and `unmount` keep it. -/
structure Ordered (mounts : List (MountPoint F)) : Prop where
  normal : ∀ m ∈ mounts, Normal m.path
  distinct : (mounts.map (·.path)).Nodup
  descending : mounts.Pairwise Longer

/-- The path of `m` is the longest of those of the mounts whose components begin the components of `q`. -/
structure LongestPrefix (mounts : List (MountPoint F)) (q : Str) (m : MountPoint F) : Prop where
  mem : m ∈ mounts
  begins : pieces slash m.path <+: pieces slash q
  longest : ∀ m' ∈ mounts, pieces slash m'.path <+: pieces slash q →
    m' = m ∨ (pieces slash m'.path).length < (pieces slash m.path).length

/-- The mount path in front of a relative path: the path `/` counts as empty. -/
def mountBase (path : Str) : Str := if path = root then [] else path

/-- What `resolve_path` is to return for the normalized path `q`. -/
def Answers (mounts : List (MountPoint F)) (q : Str) : Except VfsError (BitVec 64 × Str) → Prop
  | .ok (fsId, relative) => ∃ m, LongestPrefix mounts q m ∧ fsId = m.fsId ∧
      if q = m.path then relative = root else mountBase m.path ++ relative = q
  | .error e => e = .notMounted ∧ ∀ m ∈ mounts, ¬ pieces slash m.path <+: pieces slash q

variable {mounts : List (MountPoint F)} {q : Str} {m m' : MountPoint F}

theorem Ordered.eq_of_path (h : Ordered mounts) (hm : m ∈ mounts) (hm' : m' ∈ mounts) (hpath : m.path = m'.path) :
    m = m' :=
  inj_on_of_nodup_map h.distinct hm hm' hpath

theorem Ordered.longest_of_find (h : Ordered mounts) (hq : Normal q) (hfind : mounts.find? (·.covers q) = some m) :
    LongestPrefix mounts q m := by
  have hmem := mem_of_find?_eq_some hfind
  obtain ⟨hcov, before, after, hsp, hbef⟩ := find?_eq_some_iff_append.1 hfind
  obtain ⟨hbeg, hroot⟩ := (MountPoint.covers_iff (h.normal m hmem) hq).1 hcov
  refine ⟨hmem, hbeg, ?_⟩
  intro m' hm' hbeg'
  by_cases hcov' : m'.covers q = true
  · have hl : m' = m ∨ m' ∈ after := by
      rw [hsp] at hm'
      rcases mem_append.1 hm' with hb | hb
      · simp_all [hcov']
      · exact mem_cons.1 hb
    rcases hl with heq | ha
    · exact Or.inl heq
    · have hsh : m'.path.length ≤ m.path.length := by
        have hdesc := h.descending
        rw [hsp] at hdesc
        exact (pairwise_cons.1 (pairwise_append.1 hdesc).2.1).1 m' ha
      rcases Nat.lt_trichotomy (pieces slash m'.path).length (pieces slash m.path).length with hlt | heq | hgt
      · exact Or.inr hlt
      · have hp := prefix_of_prefix_length_le hbeg' hbeg (Nat.le_of_eq heq)
        have hpath := (h.normal m' hm').eq_of_pieces (h.normal m hmem) (hp.eq_of_length heq)
        exact Or.inl (h.eq_of_path hm' hmem hpath)
      · have hp := prefix_of_prefix_length_le hbeg hbeg' (Nat.le_of_lt hgt)
        have := (h.normal m hmem).length_lt (h.normal m' hm') hp hgt
        omega
  · -- Only the root mount begins the path without covering it.
    have hm'root : m'.path = root ∧ q ≠ root := by
      simp_all [MountPoint.covers_iff (h.normal m' hm') hq, hbeg']
    have hne : m.path ≠ root := fun hm => hm'root.2 (hroot hm)
    rw [(h.normal m' hm').pieces_eq_nil_iff.2 hm'root.1]
    exact Or.inr (length_pos_of_ne_nil fun hnil => hne ((h.normal m hmem).pieces_eq_nil_iff.1 hnil))

theorem mountBase_append (hm : Normal m.path) (hq : Normal q) (hcov : m.covers q = true) (hne : q ≠ m.path) :
    mountBase m.path ++ q.drop m.path.length = q := by
  have hroot : m.path ≠ root := by
    intro hroot
    exact hne (((MountPoint.covers_iff hm hq).1 hcov).2 hroot ▸ hroot.symm)
  have hb : m.path <+: q := by
    rw [MountPoint.covers, Bool.or_eq_true, beq_iff_eq, isPrefixOf_iff_prefix] at hcov
    rcases hcov with h | h
    · exact absurd h hne
    · exact (prefix_append _ _).trans h
  obtain ⟨rest, rfl⟩ := hb
  rw [mountBase, if_neg hroot, drop_left]

theorem lookup_answers (h : Ordered mounts) (hq : Normal q) :
    Answers mounts q ((lookup mounts q).elim (.error .notMounted) .ok) := by
  rw [lookup]
  cases hfind : mounts.find? (·.covers q) with
  | some m =>
    have hmem := mem_of_find?_eq_some hfind
    have hcov : m.covers q = true := by simpa using find?_some hfind
    refine ⟨m, h.longest_of_find hq hfind, rfl, ?_⟩
    split_ifs with hpath
    · rfl
    · exact mountBase_append (h.normal m hmem) hq hcov hpath
  | none =>
    have hnot : ∀ m ∈ mounts, pieces slash m.path <+: pieces slash q → m.path = root ∧ q ≠ root := by
      intro m hm hb
      have hcov := find?_eq_none.1 hfind m hm
      rw [MountPoint.covers_iff (h.normal m hm) hq] at hcov
      simpa [hb] using hcov
    cases hroot : mounts.find? (·.path == root) with
    | some m =>
      have hmem := mem_of_find?_eq_some hroot
      have hm : m.path = root := by simpa using find?_some hroot
      have hnil := (h.normal m hmem).pieces_eq_nil_iff.2 hm
      have hb : pieces slash m.path <+: pieces slash q := hnil ▸ nil_prefix
      refine ⟨m, ⟨hmem, hb, ?_⟩, rfl, ?_⟩
      · intro m' hm' hb'
        exact Or.inl (h.eq_of_path hm' hmem (hm ▸ (hnot m' hm' hb').1))
      · simp [(hm ▸ (hnot m hmem hb).2), mountBase, hm]
    | none =>
      refine ⟨rfl, fun m hm hb => ?_⟩
      grind

/-! ### The calls -/

/-- The mounts are in order and every cached answer is the one of the lookup. -/
structure Inv (v : VfsManager F) : Prop where
  ordered : Ordered v.mounts
  cached : v.cache.Agrees (lookup v.mounts)

variable {v : VfsManager F}

theorem inv_new : Inv (VfsManager.new : VfsManager F) :=
  ⟨⟨by simp [VfsManager.new], by simp [VfsManager.new], List.Pairwise.nil⟩, LruCache.agrees_empty⟩

theorem Inv.resolvePath_eq (h : Inv v) (path : Str) :
    (v.resolvePath path).1 = (lookup v.mounts (normalizePath path)).elim (.error .notMounted) .ok := by
  simp only [VfsManager.resolvePath]
  cases hget : v.cache.get (normalizePath path) with
  | some cached => rw [h.cached _ _ hget]; rfl
  | none => cases lookup v.mounts (normalizePath path) <;> rfl

theorem Inv.resolvePath (h : Inv v) (path : Str) : Inv (v.resolvePath path).2 := by
  simp only [VfsManager.resolvePath]
  split
  · exact ⟨h.ordered, h.cached.touch⟩
  · split
    · rename_i result hr
      exact ⟨h.ordered, h.cached.insert hr⟩
    · exact h

instance : Std.Total (Longer (F := F)) := ⟨fun a b => Nat.le_total b.path.length a.path.length⟩

instance : IsTrans (MountPoint F) Longer := ⟨fun _ _ _ hab hbc => Nat.le_trans hbc hab⟩

theorem Ordered.insert (h : Ordered mounts) (hm : Normal m.path) (hnew : ∀ m' ∈ mounts, m'.path ≠ m.path) :
    Ordered ((mounts ++ [m]).insertionSort Longer) := by
  have hperm := perm_insertionSort Longer (mounts ++ [m])
  refine ⟨?_, ?_, pairwise_insertionSort Longer _⟩
  · intro m' hm'
    rcases mem_append.1 (hperm.mem_iff.1 hm') with hm' | hm'
    · exact h.normal m' hm'
    · rw [mem_singleton.1 hm']
      exact hm
  · rw [(hperm.map _).nodup_iff, map_append, nodup_append]
    refine ⟨h.distinct, by simp, ?_⟩
    simp_all

theorem Ordered.sublist (h : Ordered mounts) {rest : List (MountPoint F)} (hsub : rest.Sublist mounts) :
    Ordered rest :=
  ⟨fun m hm => h.normal m (hsub.subset hm), h.distinct.sublist (hsub.map _), h.descending.sublist hsub⟩

section Calls

variable [Filesystem F]

theorem Inv.mount (h : Inv v) (mountPath : Str) (fs : F) : Inv (v.mount mountPath fs).2 := by
  simp only [VfsManager.mount]
  split
  · exact h
  · split_ifs with hany
    · exact ⟨h.ordered, h.cached⟩
    · have hnew : ∀ m ∈ v.mounts, m.path ≠ normalizePath mountPath := by simpa using hany
      exact ⟨h.ordered.insert (normal_normalizePath mountPath) hnew, LruCache.agrees_empty⟩

theorem Inv.unmount (h : Inv v) {mountPath : Str} (hok : UnmountSucceeds v (.unmount mountPath)) :
    Inv (v.unmount mountPath).2 := by
  simp only [VfsManager.unmount]
  split
  · rename_i m hfind
    have hpath : m.path = normalizePath mountPath := by simpa using find?_some hfind
    rw [hok m (mem_of_find?_eq_some hfind) hpath]
    exact ⟨h.ordered.sublist eraseP_sublist, LruCache.agrees_empty⟩
  · exact h

theorem inv_exec (v : VfsManager F) (c : Call F) (h : Inv v) (hc : UnmountSucceeds v c) : Inv (exec v c) := by
  cases c with
  | mount mountPath fs => exact h.mount mountPath fs
  | unmount mountPath => exact h.unmount hc
  | resolvePath path => exact h.resolvePath path

/-- After every sequence of calls in which the file systems let themselves be unmounted, a path resolves to the mount
with the longest path that begins it. -/
theorem resolvePath_longest {calls : List (Call F)} (h : Meets exec UnmountSucceeds .new calls) (path : Str) :
    Answers (run exec .new calls).mounts (normalizePath path) ((run exec .new calls).resolvePath path).1 := by
  have hinv : Inv (run exec (VfsManager.new : VfsManager F) calls) :=
    (always_of_meets (P := Inv) (R := fun _ => True) (fun _ hi => hi) (fun v c _ hi hc => inv_exec v c hi hc) inv_new
      (fun _ _ => trivial) h).run
  rw [hinv.resolvePath_eq]
  exact lookup_answers hinv.ordered (normal_normalizePath path)

end Calls

/-! ### The order of the cache -/

section Order

variable [Filesystem F]

/-- A call, with the normalized paths resolved since the cache was last cleared. -/
def record (st : VfsManager F × List Str) (c : Call F) : VfsManager F × List Str :=
  (exec st.1 c, match c with
    | .mount mountPath fs => match (st.1.mount mountPath fs).1 with
      | .ok _ => []
      | .error _ => st.2
    | .unmount mountPath => match (st.1.unmount mountPath).1 with
      | .ok _ => []
      | .error _ => st.2
    | .resolvePath path => match (st.1.resolvePath path).1 with
      | .ok _ => st.2 ++ [normalizePath path]
      | .error _ => st.2)

theorem recent_record (st : VfsManager F × List Str) (c : Call F) (h : st.1.cache.Recent maxPathCacheSize st.2) :
    (record st c).1.cache.Recent maxPathCacheSize (record st c).2 := by
  cases c with
  | mount mountPath fs =>
    simp only [record, exec, VfsManager.mount]
    rcases Filesystem.mount fs with ⟨e | _, fs'⟩
    · exact h
    · by_cases hany : st.1.mounts.any (·.path == normalizePath mountPath)
      · simpa only [if_pos hany] using h
      · simpa only [if_neg hany] using LruCache.recent_empty
  | unmount mountPath =>
    simp only [record, exec, VfsManager.unmount]
    cases st.1.mounts.find? (·.path == normalizePath mountPath) with
    | none => exact h
    | some m =>
      dsimp only
      cases (Filesystem.unmount m.fs).1 with
      | error e => exact h
      | ok _ => exact LruCache.recent_empty
  | resolvePath path =>
    simp only [record, exec, VfsManager.resolvePath]
    cases hget : st.1.cache.get (normalizePath path) with
    | some cached => exact h.touch ((h.keys _).1 (by simp [hget]))
    | none =>
      cases hr : lookup st.1.mounts (normalizePath path) with
      | some result => exact h.insert (fun hk => by simpa [hget] using (h.keys _).2 hk) (by decide)
      | none => exact h

/-- The cache holds the last paths resolved, in the order of their last resolutions, and a path resolved into a full
cache takes the place of the one resolved longest ago. -/
theorem pathCache_lru (calls : List (Call F)) :
    let st := run record (.new, []) calls
    (∀ k, (st.1.cache.get k).isSome ↔ k ∈ st.1.cache.order) ∧ st.1.cache.order.Nodup ∧
      st.1.cache.order.length ≤ 256 ∧ st.1.cache.order <:+ st.2.dedup ∧
      ∀ path oldest rest, st.1.cache.order = oldest :: rest → (oldest :: rest).length = 256 →
        st.1.cache.get (normalizePath path) = none → (st.1.resolvePath path).1.isOk →
        ∀ k, ((st.1.resolvePath path).2.cache.get k).isSome ↔
          k = normalizePath path ∨ k ≠ oldest ∧ (st.1.cache.get k).isSome := by
  intro st
  have h : st.1.cache.Recent maxPathCacheSize st.2 :=
    run_invariant (P := fun st : VfsManager F × List Str => st.1.cache.Recent maxPathCacheSize st.2)
      (Q := fun _ => True) (fun st c h _ => recent_record st c h) LruCache.recent_empty fun _ _ => trivial
  refine ⟨h.keys, h.ordered.sublist.nodup st.2.nodup_dedup, h.length_le, h.ordered, ?_⟩
  intro path oldest rest ho hf hget hok k
  simp only [VfsManager.resolvePath, hget] at hok ⊢
  cases hr : lookup st.1.mounts (normalizePath path) with
  | some result => exact LruCache.isSome_get_insert_full ho (ho ▸ hf) k
  | none => simp [hr, Except.isOk, Except.toBool] at hok

end Order

/-- A file system that can always be mounted and unmounted. -/
structure CalmFs where

instance : Filesystem CalmFs := ⟨fun fs => (.ok (), fs), fun fs => (.ok (), fs)⟩

/-- The path is resolved under `/`, then twice under `/home`, and under `/` again. -/
def homeMounted : List (Call CalmFs) :=
  let path := Fs.strBytes "/home//a/."
  [.mount root {}, .resolvePath path, .mount (Fs.strBytes "/home/") {}, .resolvePath path, .resolvePath path,
    .unmount (Fs.strBytes "home"), .resolvePath path]

theorem resolvePath_longest_homeMounted :
    Answers (run exec .new homeMounted).mounts (normalizePath (Fs.strBytes "/home"))
      ((run exec .new homeMounted).resolvePath (Fs.strBytes "/home")).1 := by
  apply resolvePath_longest
  apply meets_of_forall
  intro v c
  cases c with
  | mount mountPath fs => trivial
  | unmount mountPath => exact fun _ _ _ => rfl
  | resolvePath path => trivial

/-! ### Calls that fail -/

def Unaffected (v v' : VfsManager F) : Prop :=
  v'.mounts = v.mounts ∧ ∀ path, (v'.resolvePath path).1 = (v.resolvePath path).1

theorem unaffected_refl (v : VfsManager F) : Unaffected v v := ⟨rfl, fun _ => rfl⟩

section Failures

variable [Filesystem F]

theorem unaffected_mount {mountPath : Str} {fs : F} {e : VfsError} (h : (v.mount mountPath fs).1 = .error e) :
    Unaffected v (v.mount mountPath fs).2 := by
  simp only [VfsManager.mount] at h ⊢
  split at h
  · exact unaffected_refl v
  · split_ifs at h with hany
    rw [if_pos hany]
    refine ⟨rfl, fun path => ?_⟩
    grind [VfsManager.resolvePath]

theorem unmount_error_cases {mountPath : Str} {e : VfsError} (h : (v.unmount mountPath).1 = .error e) :
    (v.mounts.find? (·.path == normalizePath mountPath) = none ∧ (v.unmount mountPath).2 = v) ∨
      ∃ m, v.mounts.find? (·.path == normalizePath mountPath) = some m ∧ (Filesystem.unmount m.fs).1 = .error e ∧
        (v.unmount mountPath).2.mounts = v.mounts.eraseP (·.path == normalizePath mountPath) := by
  simp only [VfsManager.unmount] at h ⊢
  cases hfind : v.mounts.find? (·.path == normalizePath mountPath) with
  | none => exact Or.inl ⟨rfl, rfl⟩
  | some m =>
    grind

/-- A failed mount has no effect.  A failed unmount has none exactly if it was not the file system that refused. -/
theorem failed_calls_unaffected_iff (v : VfsManager F) (mountPath : Str) (fs : F) :
    (∀ e, (v.mount mountPath fs).1 = .error e → Unaffected v (v.mount mountPath fs).2) ∧
      ((∀ e, (v.unmount mountPath).1 = .error e → Unaffected v (v.unmount mountPath).2) ↔
        ∀ m, v.mounts.find? (·.path == normalizePath mountPath) = some m → (Filesystem.unmount m.fs).1 = .ok ()) := by
  refine ⟨fun e h => unaffected_mount h, ?_, ?_⟩
  · intro h m hfind
    cases hu : (Filesystem.unmount m.fs).1 with
    | ok u => rfl
    | error e =>
      have hfail : (v.unmount mountPath).1 = .error e := by
        simp [VfsManager.unmount, hfind, hu]
      -- the list has become shorter
      rcases unmount_error_cases hfail with ⟨hnone, -⟩ | ⟨m', hfind', -, hm⟩
      · rw [hnone] at hfind
        cases hfind
      · have hlen := congrArg length ((h e hfail).1.symm.trans hm)
        grind
  · intro h e hfail
    rcases unmount_error_cases hfail with ⟨-, heq⟩ | ⟨m, hfind, hu, -⟩
    · rw [heq]
      exact unaffected_refl v
    · simp_all [h m hfind]

end Failures

/-- A file system that cannot be unmounted. -/
structure BusyFs where

instance : Filesystem BusyFs := ⟨fun fs => (.ok (), fs), fun fs => (.error .busy, fs)⟩

/-- The file system at `/` refuses, and it is gone from the mounts. -/
theorem failed_unmount_removes :
    ((VfsManager.new.mount root (BusyFs.mk)).2.unmount root).1 = .error .busy ∧
      ¬Unaffected (VfsManager.new.mount root (BusyFs.mk)).2 ((VfsManager.new.mount root (BusyFs.mk)).2.unmount root).2 := by
  refine ⟨by decide, fun h => ?_⟩
  have hlen := congrArg length h.1
  revert hlen
  decide

end AstralOS.Vfs
