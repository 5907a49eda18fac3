import AstralOS.Lib.Memory

/-!
# Four-level page tables

The page tables of x86-64 in a physical memory of bytes.  A table is a frame of 512 words; it is named by its frame
number.  `walk` is the translation the CPU makes from a table of any level down, large pages included, and `lookup`
follows a path of indices through tables only.

`Tree` describes tables that belong to one address space alone: frames carry labels, the label of a table is the path of
indices that leads to it, and every entry that is present leads to the table of the longer path.  The results say how
lookups change when an entry is changed: not at all when a fresh empty table is linked (`Tree.lookup_link`), and only at
the path of the entry when it is one of a table of the last level (`Tree.lookup_congr`, `Tree.lookup_of_label`).  Inside
such a tree the translation of the CPU is the lookup (`Tree.walk_eq_lookup`).
-/

open Function List

namespace AstralOS.X86

/-! ### Entries -/

def frameOf (a : BitVec 64) : Nat := a.toNat / 4096

def entryAddr (f : Nat) (i : Fin 512) : BitVec 64 := BitVec.ofNat 64 (4096 * f + 8 * i)

def entry (m : ByteMem) (f : Nat) (i : Fin 512) : BitVec 64 := m.read64 (entryAddr f i)

def present (e : BitVec 64) : Bool := e.getLsbD 0

def huge (e : BitVec 64) : Bool := e.getLsbD 7

def target (e : BitVec 64) : Nat := e.toNat % 2 ^ 52 / 4096

instance neZero_entries : NeZero 512 := ⟨by decide⟩

def index (level : Nat) (v : BitVec 64) : Fin 512 :=
  ⟨v.toNat / 2 ^ (12 + 9 * level) % 512, Nat.mod_lt _ (by decide)⟩

variable {m m' : ByteMem} {f g : Nat} {i j : Fin 512}

theorem entryAddr_toNat (hf : f < 2 ^ 40) (i : Fin 512) : (entryAddr f i).toNat = 4096 * f + 8 * i := by
  unfold entryAddr
  rw [BitVec.toNat_ofNat]
  omega

theorem byte_of_entry (hf : f < 2 ^ 40) (i : Fin 512) {k : Nat} (hk : k < 8) :
    frameOf (entryAddr f i + BitVec.ofNat 64 k) = f := by
  unfold frameOf
  rw [BitVec.toNat_add, entryAddr_toNat hf, BitVec.toNat_ofNat]
  omega

theorem entry_congr (hf : f < 2 ^ 40) (h : ∀ a, frameOf a = f → m' a = m a) (i : Fin 512) :
    entry m' f i = entry m f i :=
  ByteMem.read64_congr fun _ hk => h _ (byte_of_entry hf i hk)

@[simp] theorem entry_write_self (m : ByteMem) (f : Nat) (i : Fin 512) (e : BitVec 64) :
    entry (m.write64 (entryAddr f i) e) f i = e :=
  ByteMem.read64_write64 m _ e

theorem entry_write_of_ne (hf : f < 2 ^ 40) (hg : g < 2 ^ 40) (h : ¬(f = g ∧ i = j)) (e : BitVec 64) :
    entry (m.write64 (entryAddr f i) e) g j = entry m g j := by
  apply ByteMem.read64_write64_of_apart
  apply ByteMem.apart_of_toNat
  · simp [entryAddr_toNat hf, entryAddr_toNat hg]
    omega
  · rw [entryAddr_toNat hf]
    omega
  · rw [entryAddr_toNat hg]
    omega

theorem write_entry_of_frame_ne (hf : f < 2 ^ 40) {a : BitVec 64} (ha : frameOf a ≠ f) (e : BitVec 64) :
    m.write64 (entryAddr f i) e a = m a := by
  apply ByteMem.write64_of_le
  have h := entryAddr_toNat hf i
  unfold frameOf at ha
  rw [BitVec.toNat_sub]
  omega

/-! ### The CPU's walk -/

/-- The translation of `v` from a table of the level down: the physical address and the entries used.  A large page is
allowed on the levels 1 and 2. -/
def walk (m : ByteMem) (v : BitVec 64) : Nat → Nat → Option (Nat × List (BitVec 64))
  | 0, t =>
    let e := entry m t (index 0 v)
    if present e then some (4096 * target e + v.toNat % 4096, [e]) else none
  | level + 1, t =>
    let e := entry m t (index (level + 1) v)
    if present e then
      if huge e then
        let size := 2 ^ (12 + 9 * (level + 1))
        if level + 1 ≤ 2 then some (4096 * target e / size * size + v.toNat % size, [e]) else none
      else (walk m v level (target e)).map fun (a, es) => (a, e :: es)
    else none

def readByte (m : ByteMem) (t : Nat) (v : BitVec 64) : Option (BitVec 8) :=
  (walk m v 3 t).map fun r => m (BitVec.ofNat 64 r.1)

variable {level t : Nat} {v : BitVec 64}

theorem walk_of_absent (h : ¬present (entry m t (index level v))) : walk m v level t = none := by
  cases level <;> exact if_neg h

theorem walk_of_table (hp : present (entry m t (index (level + 1) v)))
    (hh : huge (entry m t (index (level + 1) v)) = false) :
    walk m v (level + 1) t = (walk m v level (target (entry m t (index (level + 1) v)))).map
      fun (a, es) => (a, entry m t (index (level + 1) v) :: es) := by
  have hne : ¬huge (entry m t (index (level + 1) v)) := by simp [hh]
  exact (if_pos hp).trans (if_neg hne)

/-- The entry at the end of a path of indices from a table, if every entry on the way is present. -/
def lookup (m : ByteMem) : Nat → List (Fin 512) → Option (BitVec 64)
  | _, [] => none
  | t, i :: is =>
    if present (entry m t i) then
      if is = [] then some (entry m t i) else lookup m (target (entry m t i)) is
    else none

@[simp] theorem lookup_singleton (m : ByteMem) (t : Nat) (i : Fin 512) :
    lookup m t [i] = if present (entry m t i) then some (entry m t i) else none := by
  simp [lookup]

theorem lookup_cons {is : List (Fin 512)} (h : is ≠ []) (m : ByteMem) (t : Nat) (i : Fin 512) :
    lookup m t (i :: is) = if present (entry m t i) then lookup m (target (entry m t i)) is else none := by
  simp [lookup, h]

/-- The table at the end of a path of indices from a table, if every entry on the way is present. -/
def tableAt (m : ByteMem) : Nat → List (Fin 512) → Option Nat
  | t, [] => some t
  | t, i :: is => if present (entry m t i) then tableAt m (target (entry m t i)) is else none

def indices (v : BitVec 64) : Nat → List (Fin 512)
  | 0 => [index 0 v]
  | level + 1 => index (level + 1) v :: indices v level

theorem indices_ne_nil (v : BitVec 64) (level : Nat) : indices v level ≠ [] := by
  cases level <;> simp [indices]

@[simp] theorem length_indices (v : BitVec 64) (level : Nat) : (indices v level).length = level + 1 := by
  induction level with
  | zero => rfl
  | succ level ih => simp [indices, ih]

/-! ### Trees of tables -/

/-- What a frame is used for. -/
inductive Role
  /-- The table at the end of the path. -/
  | table (path : List (Fin 512))
  /-- A frame without table entries. -/
  | data
  deriving DecidableEq

/-- The labelled frames form the tables of one address space.  Only the indices in `dom` of the top table count. -/
structure Tree (dom : Fin 512 → Prop) (role : Nat → Option Role) (m : ByteMem) : Prop where
  lt : ∀ {f r}, role f = some r → f < 2 ^ 40
  len : ∀ {f π}, role f = some (.table π) → π.length ≤ 3
  child : ∀ {f π i}, role f = some (.table π) → π.length < 3 → (π = [] → dom i) → present (entry m f i) →
    role (target (entry m f i)) = some (.table (π ++ [i])) ∧ huge (entry m f i) = false
  parent : ∀ {g π i}, role g = some (.table (π ++ [i])) →
    ∃ f, role f = some (.table π) ∧ present (entry m f i) ∧ target (entry m f i) = g
  inj : ∀ {f g π}, role f = some (.table π) → role g = some (.table π) → f = g

theorem update_eq_some_iff {ι β : Type} [DecidableEq ι] {g : ι → Option β} {z f : ι} {r r' : β} :
    update g z (some r') f = some r ↔ f = z ∧ r = r' ∨ f ≠ z ∧ g f = some r := by
  by_cases hf : f = z
  · subst hf
    simp [eq_comm]
  · simp [hf]

namespace Tree

variable {dom : Fin 512 → Prop} {role : Nat → Option Role} {π is : List (Fin 512)} {t q z : Nat}

/-- The entries of the tables above the last level lead where they led before. -/
def SameLinks (role : Nat → Option Role) (m m' : ByteMem) : Prop :=
  ∀ f π i, role f = some (.table π) → π.length < 3 →
    present (entry m' f i) = present (entry m f i) ∧ target (entry m' f i) = target (entry m f i) ∧
      (huge (entry m f i) = false → huge (entry m' f i) = false)

section

variable (h : Tree dom role m)
include h

theorem congr (hs : SameLinks role m m') : Tree dom role m' where
  lt := h.lt
  len := h.len
  child := by
    intro f π i hf hlt hd hp
    obtain ⟨hp', ht', hh'⟩ := hs f π i hf hlt
    rw [hp'] at hp
    obtain ⟨hrole, hhuge⟩ := h.child hf hlt hd hp
    rw [ht']
    exact ⟨hrole, hh' hhuge⟩
  parent := by
    intro g π i hg
    obtain ⟨f, hf, hp, ht⟩ := h.parent hg
    have hlt : π.length < 3 := by
      have := h.len hg
      rw [length_append, length_singleton] at this
      omega
    obtain ⟨hp', ht', -⟩ := hs f π i hf hlt
    exact ⟨f, hf, by rw [hp']; exact hp, by rw [ht']; exact ht⟩
  inj := h.inj

theorem lookup_congr (hs : SameLinks role m m') (ht : role t = some (.table π))
    (hlen : π.length + is.length = 4) (hd : π = [] → ∀ i ∈ is.head?, dom i)
    (hleaf : ∀ f ρ i, role f = some (.table ρ) → ρ.length = 3 → ρ ++ [i] = π ++ is → entry m' f i = entry m f i) :
    lookup m' t is = lookup m t is := by
  induction is generalizing t π with
  | nil => rfl
  | cons i is ih =>
    rw [length_cons] at hlen
    unfold lookup
    by_cases hnil : is = []
    · subst hnil
      grind
    · have hlt : π.length < 3 := by
        have := length_pos_iff.2 hnil
        omega
      obtain ⟨hp, htar, -⟩ := hs t π i ht hlt
      rw [if_neg hnil, if_neg hnil, hp, htar]
      by_cases hpres : present (entry m t i)
      · rw [if_pos hpres, if_pos hpres]
        obtain ⟨hc, -⟩ := h.child ht hlt (fun hπ => hd hπ i (by simp)) hpres
        refine ih hc ?_ (by simp) ?_
        · grind
        · grind
      · rw [if_neg hpres, if_neg hpres]

theorem exists_ancestor {ρ σ : List (Fin 512)} (hq : role q = some (.table (ρ ++ σ))) :
    ∃ t, role t = some (.table ρ) := by
  induction σ using reverseRecOn generalizing q with
  | nil => exact ⟨q, by simpa using hq⟩
  | append_singleton σ i ih =>
    rw [← append_assoc] at hq
    obtain ⟨f, hf, -, -⟩ := h.parent hq
    exact ih hf

theorem lookup_of_label (ht : role t = some (.table π)) (hq : role q = some (.table (π ++ is)))
    (i : Fin 512) :
    lookup m t (is ++ [i]) = if present (entry m q i) then some (entry m q i) else none := by
  induction is generalizing t π with
  | nil =>
    rw [append_nil] at hq
    obtain rfl := h.inj ht hq
    simp
  | cons j is ih =>
    have hs : π ++ j :: is = (π ++ [j]) ++ is := by simp
    rw [hs] at hq
    obtain ⟨c, hc⟩ := exists_ancestor h hq
    obtain ⟨f, hf, hp, htar⟩ := h.parent hc
    obtain rfl := h.inj ht hf
    simpa [lookup, cons_append, hp, htar] using ih hc hq

theorem tableAt_of_label (ht : role t = some (.table π)) (hq : role q = some (.table (π ++ is))) :
    tableAt m t is = some q := by
  induction is generalizing t π with
  | nil =>
    rw [append_nil] at hq
    obtain rfl := h.inj ht hq
    rfl
  | cons j is ih =>
    have hs : π ++ j :: is = (π ++ [j]) ++ is := by simp
    rw [hs] at hq
    obtain ⟨c, hc⟩ := exists_ancestor h hq
    obtain ⟨f, hf, hp, htar⟩ := h.parent hc
    obtain rfl := h.inj ht hf
    grind [tableAt]

theorem mono {dom' : Fin 512 → Prop} (hd : ∀ i, dom' i → dom i) : Tree dom' role m :=
  { h with child := fun hf hlen hdom hp => h.child hf hlen (fun hnil => hd _ (hdom hnil)) hp }

end

/-- The label of a table below an entry of the domain, or of the top table. -/
def InDomain (dom : Fin 512 → Prop) (r : Role) : Prop := ∃ π, r = .table π ∧ ∀ i ∈ π.head?, dom i

theorem tables_only {role' : Nat → Option Role} (h : Tree dom role m)
    (hr : ∀ f r, role' f = some r ↔ role f = some r ∧ InDomain dom r) : Tree dom role' m where
  lt := fun hf => h.lt ((hr _ _).1 hf).1
  len := fun hf => h.len ((hr _ _).1 hf).1
  child := by
    intro f π i hf hlen hd hp
    obtain ⟨hf, ρ, hρ, hdom⟩ := (hr _ _).1 hf
    cases hρ
    obtain ⟨hc, hh⟩ := h.child hf hlen hd hp
    refine ⟨(hr _ _).2 ⟨hc, _, rfl, ?_⟩, hh⟩
    cases π with
    | nil => simpa using hd rfl
    | cons j π => exact hdom
  parent := by
    intro g π i hg
    obtain ⟨hg, ρ, hρ, hdom⟩ := (hr _ _).1 hg
    cases hρ
    obtain ⟨f, hf, hp, ht⟩ := h.parent hg
    refine ⟨f, (hr _ _).2 ⟨hf, π, rfl, ?_⟩, hp, ht⟩
    cases π with
    | nil => simp
    | cons j π => exact hdom
  inj := fun hf hg => h.inj ((hr _ _).1 hf).1 ((hr _ _).1 hg).1

theorem label_data (h : Tree dom role m) (hz : role z = none) (hlt : z < 2 ^ 40) :
    Tree dom (update role z (some .data)) m := by
  have hta : ∀ {f π}, update role z (some .data) f = some (.table π) ↔ role f = some (.table π) := by
    intro f π
    rw [update_eq_some_iff]
    constructor
    · simp
    · grind
  refine { lt := ?_, len := ?_, child := ?_, parent := ?_, inj := ?_ }
  · intro f r hf
    rcases update_eq_some_iff.1 hf with ⟨rfl, -⟩ | ⟨-, hf'⟩
    · exact hlt
    · exact h.lt hf'
  · intro f ρ hf
    exact h.len (hta.1 hf)
  · intro f ρ i hf hlen hd hp
    obtain ⟨hrole, hh⟩ := h.child (hta.1 hf) hlen hd hp
    exact ⟨hta.2 hrole, hh⟩
  · intro g ρ i hg
    obtain ⟨f, hf, hp, ht⟩ := h.parent (hta.1 hg)
    exact ⟨f, hta.2 hf, hp, ht⟩
  · intro f g ρ hf hg
    exact h.inj (hta.1 hf) (hta.1 hg)

/-! ### Linking a new table -/

/-- In `m'` the empty table `z` hangs at entry `j` of the table `q`; the other entries are as in `m`. -/
structure Links (role : Nat → Option Role) (m m' : ByteMem) (q : Nat) (j : Fin 512) (z : Nat) : Prop where
  absent : ¬present (entry m q j)
  present : present (entry m' q j)
  target : target (entry m' q j) = z
  huge : huge (entry m' q j) = false
  empty : ∀ i, ¬X86.present (entry m' z i)
  same : ∀ f i, role f ≠ none → ¬(f = q ∧ i = j) → entry m' f i = entry m f i

theorem link (h : Tree dom role m) (hl : Links role m m' q j z) (hq : role q = some (.table π)) (hπ : π.length < 3)
    (hz : role z = none) (hlt : z < 2 ^ 40) :
    Tree dom (update role z (some (.table (π ++ [j])))) m' := by
  have hupd : ∀ {f r}, role f = some r → update role z (some (.table (π ++ [j]))) f = some r := by
    grind
  -- no table had the new label, since its parent is `q` and the entry was not present
  have hnew : ∀ g, role g ≠ some (.table (π ++ [j])) := by
    intro g hg
    obtain ⟨f, hf, hp, -⟩ := h.parent hg
    obtain rfl := h.inj hq hf
    exact hl.absent hp
  refine { lt := ?_, len := ?_, child := ?_, parent := ?_, inj := ?_ }
  · intro f r hf
    rcases update_eq_some_iff.1 hf with ⟨rfl, -⟩ | ⟨-, hf'⟩
    · exact hlt
    · exact h.lt hf'
  · intro f ρ hf
    rcases update_eq_some_iff.1 hf with ⟨-, hρ⟩ | ⟨-, hf'⟩
    · grind
    · exact h.len hf'
  · intro f ρ i hf hlen hd hp
    rcases update_eq_some_iff.1 hf with ⟨rfl, -⟩ | ⟨-, hf'⟩
    · exact absurd hp (hl.empty i)
    · by_cases heq : f = q ∧ i = j
      · obtain ⟨rfl, rfl⟩ := heq
        rw [hq] at hf'
        cases hf'
        rw [hl.target, update_self]
        exact ⟨rfl, hl.huge⟩
      · have hsame := hl.same f i (by rw [hf']; simp) heq
        rw [hsame] at hp ⊢
        obtain ⟨hrole, hh⟩ := h.child hf' hlen hd hp
        exact ⟨hupd hrole, hh⟩
  · intro g ρ i hg
    rcases update_eq_some_iff.1 hg with ⟨rfl, hρ⟩ | ⟨-, hg'⟩
    · rw [Role.table.injEq] at hρ
      obtain ⟨rfl, hij⟩ := append_inj' hρ rfl
      cases hij
      exact ⟨q, hupd hq, hl.present, hl.target⟩
    · obtain ⟨f, hf, hp, htar⟩ := h.parent hg'
      have hsame : entry m' f i = entry m f i := by
        refine hl.same f i (by rw [hf]; simp) ?_
        grind
      grind
  · intro f g ρ hf hg
    rcases update_eq_some_iff.1 hf with ⟨rfl, hρ⟩ | ⟨-, hf'⟩
    · rcases update_eq_some_iff.1 hg with ⟨rfl, -⟩ | ⟨-, hg'⟩
      · rfl
      · exact absurd (hρ ▸ hg') (hnew g)
    · rcases update_eq_some_iff.1 hg with ⟨rfl, hρ⟩ | ⟨-, hg'⟩
      · exact absurd (hρ ▸ hf') (hnew f)
      · exact h.inj hf' hg'

theorem lookup_link (h : Tree dom role m) (hl : Links role m m' q j z) (hq : role q = some (.table π))
    (hπ : π.length < 3) {ρ : List (Fin 512)} (ht : role t = some (.table ρ)) (hlen : ρ.length + is.length = 4)
    (hd : ρ = [] → ∀ i ∈ is.head?, dom i) : lookup m' t is = lookup m t is := by
  induction is generalizing t ρ with
  | nil => rfl
  | cons i is ih =>
    rw [length_cons] at hlen
    unfold lookup
    by_cases heq : t = q ∧ i = j
    · obtain ⟨rfl, rfl⟩ := heq
      rw [hq] at ht
      cases ht
      have hnil : is ≠ [] := by
        grind
      rw [if_pos hl.present, if_neg hnil, if_neg hl.absent, hl.target]
      obtain ⟨k, ks, rfl⟩ := exists_cons_of_ne_nil hnil
      unfold lookup
      rw [if_neg (hl.empty k)]
    · rw [hl.same t i (by rw [ht]; simp) heq]
      by_cases hpres : present (entry m t i)
      · by_cases hnil : is = []
        · rw [if_pos hnil, if_pos hnil]
        · have hlt : ρ.length < 3 := by
            have := length_pos_iff.2 hnil
            omega
          obtain ⟨hc, -⟩ := h.child ht hlt (fun hρ => hd hρ i (by simp)) hpres
          grind
      · rw [if_neg hpres, if_neg hpres]

/-! ### The CPU inside a tree -/

theorem walk_eq_lookup (h : Tree dom role m) {v : BitVec 64} {level : Nat} (ht : role t = some (.table π))
    (hlen : π.length + level = 3) (hd : π = [] → dom (index level v)) :
    (walk m v level t).map Prod.fst =
      (lookup m t (indices v level)).map fun e => 4096 * target e + v.toNat % 4096 := by
  induction level generalizing t π with
  | zero =>
    unfold walk indices lookup
    by_cases hp : present (entry m t (index 0 v))
    · simp [hp]
    · rw [if_neg hp, if_neg hp]
      rfl
  | succ level ih =>
    unfold indices lookup
    by_cases hp : present (entry m t (index (level + 1) v))
    · obtain ⟨hc, hh⟩ := h.child ht (by omega) hd hp
      rw [walk_of_table hp hh, if_pos hp, if_neg (indices_ne_nil v level)]
      grind [length_append, length_singleton, Option.map_map, Function.comp_def]
    · rw [walk_of_absent hp, if_neg hp]
      rfl

end Tree

end AstralOS.X86
