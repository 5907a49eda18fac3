import AstralOS.Fs.Isolation

/-!
# The directory as a set of names

`fs_list` gives the names of the inodes in use.  In every state that calls with names free of NUL bytes reach from a
formatted and mounted disk, the listed names behave as a set of at most 256 names: `fs_create`, `fs_delete`, `fs_write`
and `fs_read` do to it, and tell of it, what they should (`directory_is_set`).
-/

namespace AstralOS.Fs

open List

variable {s : FsState} {name : String}

/-! ### The listed names -/

section

variable (hd : s.disk.Sound)
include hd

theorem mem_fsList {x : String} : x ∈ fsList s ↔ ∃ k, Named s.disk k x := by
  rw [fsList_eq hd, mem_filterMap]
  constructor
  · intro h
    obtain ⟨k, hk, hx⟩ := h
    by_cases hu : (inodeAt s.disk k).inUse ≠ 0
    · rw [if_pos hu] at hx
      exact ⟨k, mem_range.1 hk, hu, Option.some.inj hx⟩
    · rw [if_neg hu] at hx
      cases hx
  · intro h
    obtain ⟨k, hk, hu, hx⟩ := h
    exact ⟨k, mem_range.2 hk, by rw [if_pos hu, hx]⟩

theorem nodup_fsList (hdist : Distinct s.disk) : (fsList s).Nodup := by
  rw [fsList_eq hd]
  -- Only the range matters: outside of it there may be other inodes of the same name.
  rw [show (range 256).filterMap (fun k =>
      if (inodeAt s.disk k).inUse ≠ 0 then some (inodeAt s.disk k).getName else none) =
      (range 256).filterMap fun k =>
        if k < 256 ∧ (inodeAt s.disk k).inUse ≠ 0 then some (inodeAt s.disk k).getName else none from
    filterMap_congr fun k hk => by simp [mem_range.1 hk]]
  refine List.Nodup.filterMap ?_ nodup_range
  intro j k x hj hk
  simp only [Option.mem_def, Option.ite_none_right_eq_some, Option.some.injEq] at hj hk
  exact hdist j k x ⟨hj.1.1, hj.1.2, hj.2⟩ ⟨hk.1.1, hk.1.2, hk.2⟩

theorem length_fsList_lt_iff :
    (fsList s).length < 256 ↔ ∃ k, k < 256 ∧ (inodeAt s.disk k).inUse = 0 := by
  have hlen : (fsList s).length = (range 256).countP fun k => (inodeAt s.disk k).inUse != 0 := by
    rw [fsList_eq hd, length_filterMap_eq_countP]
    grind
  rw [hlen]
  constructor
  · intro h
    by_contra hall
    push Not at hall
    have := countP_eq_length.2 fun k hk => bne_iff_ne.2 (hall k (mem_range.1 hk))
    rw [length_range] at this
    omega
  · intro h
    obtain ⟨k, hk, hu⟩ := h
    have hle := countP_le_length (p := fun k => (inodeAt s.disk k).inUse != 0) (l := range 256)
    rw [length_range] at hle
    refine Nat.lt_of_le_of_ne hle fun heq => ?_
    have := countP_eq_length.1 (heq.trans length_range.symm) k (mem_range.2 hk)
    simp [hu] at this

theorem creatable_iff :
    Creatable s.disk name ↔ (strBytes name).length < 48 ∧ name ∉ fsList s ∧ (fsList s).length < 256 := by
  unfold Creatable
  rw [length_fsList_lt_iff hd, mem_fsList hd, not_exists]

end

/-! ### The calls -/

/-- The listed names are different, and the calls treat them as a set. -/
structure ActsAsSet (s : FsState) : Prop where
  nodup : (fsList s).Nodup
  create_iff : ∀ name, (0 : Byte) ∉ strBytes name →
    ((fsCreate name s).1 = true ↔ (strBytes name).length < 48 ∧ name ∉ fsList s ∧ (fsList s).length < 256)
  create : ∀ name, (0 : Byte) ∉ strBytes name → ∀ x,
    x ∈ fsList (fsCreate name s).2 ↔ x ∈ fsList s ∨ (fsCreate name s).1 = true ∧ x = name
  delete_iff : ∀ name, (0 : Byte) ∉ strBytes name → ((fsDelete name s).1 = true ↔ name ∈ fsList s)
  delete : ∀ name, (0 : Byte) ∉ strBytes name → ∀ x, x ∈ fsList (fsDelete name s).2 ↔ x ∈ fsList s ∧ x ≠ name
  write : ∀ name data, (0 : Byte) ∉ strBytes name → ∀ x,
    (x ∈ fsList s → x ∈ fsList (fsWrite name data s).2) ∧
      (x ∈ fsList (fsWrite name data s).2 → x ∈ fsList s ∨ x = name)
  read_iff : ∀ name, (0 : Byte) ∉ strBytes name → ((fsRead name s).isSome = true ↔ name ∈ fsList s)

theorem mem_fsList_create (h : Inv s) (hnul : (0 : Byte) ∉ strBytes name) (x : String) :
    x ∈ fsList (fsCreate name s).2 ↔ x ∈ fsList s ∨ (fsCreate name s).1 = true ∧ x = name := by
  rcases fsCreate_cases h.sound name with ⟨-, heq⟩ | ⟨hc, k, hk, hfree, heq⟩
  · rw [heq]
    simp
  · have hcr : fsCreate name s = (true, created k name s) := heq
    rw [hcr, mem_fsList (h.created hk name).sound, mem_fsList h.sound]
    simp only [named_created hk hfree hc.1 hnul]
    constructor
    · intro hx
      obtain ⟨j, hj | hj⟩ := hx
      · exact Or.inl ⟨j, hj⟩
      · exact Or.inr ⟨trivial, hj.2⟩
    · intro hx
      rcases hx with ⟨j, hj⟩ | hx
      · exact ⟨j, Or.inl hj⟩
      · exact ⟨k, Or.inr ⟨rfl, hx.2⟩⟩

theorem mem_fsList_delete (h : Inv s) (hdist : Distinct s.disk) (name x : String) :
    x ∈ fsList (fsDelete name s).2 ↔ x ∈ fsList s ∧ x ≠ name := by
  have hs := (h.fsDelete name).sound
  rw [mem_fsList hs, mem_fsList h.sound]
  rcases fsDelete_cases h name with ⟨hnone, heq⟩ | ⟨k, hn, heq⟩
  · rw [heq]
    constructor
    · grind
    · exact fun hx => hx.1
  · have hf := SameFiles.freeExtents h (h.fileOk hn)
    -- The slot of the name is cleared and the others keep their inodes.
    have hna : ∀ j, Named (fsDelete name s).2.disk j x ↔ Named s.disk j x ∧ j ≠ k := by
      intro j
      rw [heq, ← hf.named_iff]
      unfold Named
      rw [inodeAt_setInode]
      by_cases hjk : j = k
      · simp [hjk, deletedInode]
      · simp [hjk]
    simp only [hna]
    constructor
    · intro hx
      obtain ⟨j, hj, hne⟩ := hx
      exact ⟨⟨j, hj⟩, fun hxn => hne (hdist j k name (hxn ▸ hj) hn)⟩
    · intro hx
      obtain ⟨⟨j, hj⟩, hne⟩ := hx
      refine ⟨j, hj, fun hjk => hne ?_⟩
      rw [← hj.2.2, hjk, hn.2.2]

theorem mem_fsList_writeFile (h : Inv s) {k : Nat} (hk : k < 256) (hok : FileOk (inodeAt s.disk k)) (data : List Byte)
    (x : String) : x ∈ fsList (writeFile k (inodeAt s.disk k) data s).2 ↔ x ∈ fsList s := by
  rw [mem_fsList (h.writeFile hk hok data).sound, mem_fsList h.sound]
  simp only [named_writeFile h hk rfl hok data]

theorem mem_fsList_write (h : Inv s) (hnul : (0 : Byte) ∉ strBytes name) (data : List Byte) (x : String) :
    (x ∈ fsList s → x ∈ fsList (fsWrite name data s).2) ∧
      (x ∈ fsList (fsWrite name data s).2 → x ∈ fsList s ∨ x = name) := by
  have hcr := mem_fsList_create h hnul x
  rcases fsWrite_cases h.sound name with ⟨k, hn, -, heq⟩ | ⟨-, -, heq⟩ | ⟨hc, -, k, hk, hfree, heq⟩
  · simp_all [heq, mem_fsList_writeFile h hn.1 (h.fileOk hn) data]
  · grind
  · have hok : FileOk (inodeAt (created k name s).disk k) := by
      rw [inodeAt_created]
      exact fileOk_newFile _ _ _
    have hnew := mem_fsList_writeFile (h.created hk name) hk hok data x
    rw [inodeAt_created] at hnew
    rw [heq, hnew, mem_fsList (h.created hk name).sound, mem_fsList h.sound]
    simp only [named_created hk hfree hc.1 hnul]
    constructor
    · grind
    · intro hx
      obtain ⟨j, hj | hj⟩ := hx
      · exact Or.inl ⟨j, hj⟩
      · exact Or.inr hj.2

theorem Inv.actsAsSet (h : Inv s) (hdist : Distinct s.disk) : ActsAsSet s where
  nodup := nodup_fsList h.sound hdist
  create_iff := by
    intro name _
    rw [← creatable_iff h.sound]
    rcases fsCreate_cases h.sound name with ⟨hnot, heq⟩ | ⟨hc, k, -, -, heq⟩
    · simp [heq, hnot]
    · simp [heq, hc]
  create := fun name hnul x => mem_fsList_create h hnul x
  delete_iff := by
    intro name _
    rw [mem_fsList h.sound]
    rcases fsDelete_cases h name with ⟨hnone, heq⟩ | ⟨k, hn, heq⟩
    · simp [heq, hnone]
    · simp only [heq, true_iff]
      exact ⟨k, hn⟩
  delete := fun name _ x => mem_fsList_delete h hdist name x
  write := fun name data hnul x => mem_fsList_write h hnul data x
  read_iff := by
    intro name _
    rw [mem_fsList h.sound]
    by_cases hex : ∃ k, Named s.disk k name
    · obtain ⟨k, hk⟩ := hex
      rw [fsRead_eq h hdist hk]
      simp only [Option.isSome_some, true_iff]
      exact ⟨k, hk⟩
    · rw [fsRead_none h.sound (not_exists.1 hex)]
      simp [hex]

/-- After every sequence of calls with names free of NUL bytes, the directory acts as a set of at most 256 names. -/
theorem directory_is_set (hd : s.disk.Sound) {cs : List Call} (hcs : ∀ c ∈ cs, c.NulFree) :
    ActsAsSet (run exec (formatMount s) cs) :=
  (inv_run hd cs).actsAsSet (distinct_run hd hcs)

def shortLife : List Call := [.create "a", .write "a" [1, 2, 3], .delete "a"]

theorem directory_is_set_shortLife : ActsAsSet (run exec (formatMount blankState) shortLife) := by
  apply directory_is_set sound_blankState
  intro c hc
  simp only [shortLife, mem_cons, not_mem_nil, or_false] at hc
  rcases hc with rfl | rfl | rfl
  all_goals
    unfold Call.NulFree
    decide

end AstralOS.Fs
