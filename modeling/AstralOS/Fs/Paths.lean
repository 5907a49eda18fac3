import AstralOS.Fs.PathResolution

/-!
# The algebra of paths

`normalize_path`, `parent_path` and `file_name` of `kernel/src/fs/vfs.rs` as functions on strings.  A normalized path is
read back to the components it was built from (`components_normalizePath`), and the components of `p/q` are those of `p`
followed by what `q` does to them (`components_append`).  So normalizing is canonical, and it does not matter whether the
front of a path is normalized first (`normalizePath_laws`).

`parent_path` looks at the normalized path, `file_name` at the string it is given.  The two give the path back exactly if
that string ends with a name (`parent_fileName_iff`).
-/

namespace AstralOS.Vfs

open List

/-! ### The functions -/

def rfind (s : Str) (b : Byte) : Option Nat := (s.reverse.findIdx? (· == b)).map (s.length - 1 - ·)

def parentPath (path : Str) : Option Str :=
  let normalized := normalizePath path
  if normalized = root then none
  else
    match rfind normalized slash with
    | some pos => if pos = 0 then some root else some (normalized.take pos)
    | none => some root

def lastPiece (path : Str) : Str := ((path.splitOn slash).getLast?).getD []

def fileName (path : Str) : Option Str :=
  if normalizePath path = root then none else some (lastPiece path) |>.filter (· ≠ [])

/-! ### Components -/

variable {p q c : Str} {cs : List Str}

theorem splitOn_append_slash (p q : Str) : (p ++ slash :: q).splitOn slash = p.splitOn slash ++ q.splitOn slash :=
  splitOnP_append_cons p q (by simp)

theorem pushComponent_of_isComponent (hc : IsComponent c) : pushComponent cs c = cs ++ [c] := by
  rw [pushComponent, if_neg (not_or.2 ⟨hc.ne_nil, hc.ne_dot⟩), if_neg hc.ne_dots]

theorem foldl_pushComponent {ds : List Str} (hds : ∀ d ∈ ds, IsComponent d) : ds.foldl pushComponent cs = cs ++ ds := by
  induction ds generalizing cs with
  | nil => simp
  | cons d ds ih =>
    rw [foldl_cons, pushComponent_of_isComponent (hds d mem_cons_self),
      ih fun e he => hds e (mem_cons_of_mem d he)]
    simp

theorem components_append (p q : Str) :
    components (p ++ slash :: q) = (q.splitOn slash).foldl pushComponent (components p) := by
  rw [components, splitOn_append_slash, foldl_append]
  rfl

theorem components_render (hcs : ∀ c ∈ cs, IsComponent c) : components (render cs) = cs := by
  rw [render]
  split_ifs with h
  · subst h
    rfl
  · have hs : (joined slash cs).splitOn slash = [] :: cs := by
      simpa using splitOn_joined (c := []) (by simp) fun d hd => (hcs d hd).noSlash
    have hskip : pushComponent [] [] = [] := rfl
    rw [components, hs, foldl_cons, hskip, foldl_pushComponent hcs, nil_append]

theorem components_normalizePath (p : Str) : components (normalizePath p) = components p := by
  rw [normalizePath_eq]
  exact components_render fun _ hc => isComponent_of_mem_components hc

/-! ### Normalizing -/

/-- A path that starts with a slash, with no empty, `.` or `..` component and no slash at its end; the path `/` has no
components. -/
structure Canonical (path : Str) : Prop where
  starts : ∃ rest, path = slash :: rest
  components : path ≠ root → ∀ c ∈ path.tail.splitOn slash, c ≠ [] ∧ c ≠ [dot] ∧ c ≠ [dot, dot]
  trailing : path ≠ root → path.getLast? ≠ some slash

theorem joined_concat (cs : List Str) (c : Str) : joined slash (cs ++ [c]) = joined slash cs ++ slash :: c := by
  simp

theorem canonical_render (hcs : ∀ c ∈ cs, IsComponent c) : Canonical (render cs) := by
  by_cases hnil : cs = []
  · subst hnil
    exact ⟨⟨[], rfl⟩, fun h => absurd rfl h, fun h => absurd rfl h⟩
  have hr : render cs = joined slash cs := if_neg hnil
  obtain ⟨d, ds, hcons⟩ := exists_cons_of_ne_nil hnil
  refine ⟨?_, ?_, ?_⟩
  · grind [joined_cons]
  · intro _ c hc
    have hs : (d ++ joined slash ds).splitOn slash = d :: ds := by
      refine splitOn_joined (hcs d (by simp [hcons])).noSlash fun e he => (hcs e (by simp [hcons, he])).noSlash
    rw [hr, hcons, joined_cons, tail_cons, hs, ← hcons] at hc
    exact ⟨(hcs c hc).ne_nil, (hcs c hc).ne_dot, (hcs c hc).ne_dots⟩
  · intro _ hlast
    -- the last byte belongs to the last component
    obtain ⟨es, e, hsnoc⟩ := (eq_nil_or_concat' cs).resolve_left hnil
    have he : IsComponent e := hcs e (by simp [hsnoc])
    obtain ⟨x, e', rfl⟩ := exists_cons_of_ne_nil he.ne_nil
    rw [hr, hsnoc, joined_concat, getLast?_append_cons, getLast?_cons_cons] at hlast
    exact he.noSlash (mem_of_getLast? hlast)

/-- Normalized paths are canonical, normalizing again changes nothing, and the front of a path may be normalized
first. -/
theorem normalizePath_laws (p q : Str) :
    Canonical (normalizePath p) ∧ normalizePath (normalizePath p) = normalizePath p ∧
      normalizePath (p ++ slash :: q) = normalizePath (normalizePath p ++ slash :: q) := by
  refine ⟨?_, ?_, ?_⟩
  · rw [normalizePath_eq]
    exact canonical_render fun _ hc => isComponent_of_mem_components hc
  · rw [normalizePath_eq (normalizePath p), components_normalizePath, ← normalizePath_eq]
  · rw [normalizePath_eq, normalizePath_eq, components_append, components_append, components_normalizePath]

/-! ### The parent and the name -/

theorem rfind_append (s : Str) (hc : slash ∉ c) : rfind (s ++ slash :: c) slash = some s.length := by
  have hnone : c.reverse.findIdx? (· == slash) = none := by
    grind
  have hr : (s ++ slash :: c).reverse = c.reverse ++ slash :: s.reverse := by simp
  rw [rfind, hr, findIdx?_append, hnone, findIdx?_cons]
  simp

theorem normalizePath_eq_root_iff (p : Str) : normalizePath p = root ↔ components p = [] := by
  have hcs : ∀ c ∈ components p, IsComponent c := fun _ hc => isComponent_of_mem_components hc
  rw [← (normal_normalizePath p).pieces_eq_nil_iff, normalizePath_eq, pieces_render hcs]

theorem parentPath_of_components (hcs : components p = cs ++ [c]) : parentPath p = some (render cs) := by
  have hc : c ∈ components p := by simp [hcs]
  have hne : normalizePath p ≠ root := by
    simp_all [ne_eq, normalizePath_eq_root_iff]
  have hn : normalizePath p = joined slash cs ++ slash :: c := by
    rw [normalizePath_eq, hcs, render, if_neg (by simp), joined_concat]
  rw [parentPath, if_neg hne, hn, rfind_append _ (isComponent_of_mem_components hc).noSlash]
  dsimp only
  by_cases hnil : cs = []
  · subst hnil
    rfl
  · have hpos : (joined slash cs).length ≠ 0 := by
      obtain ⟨d, ds, rfl⟩ := exists_cons_of_ne_nil hnil
      simp
    rw [if_neg hpos, take_left, render, if_neg hnil]

theorem splitOn_ne_nil (p : Str) : p.splitOn slash ≠ [] := splitOnP_ne_nil _ p

theorem components_of_lastPiece (h : IsComponent (lastPiece p)) : ∃ cs, components p = cs ++ [lastPiece p] := by
  obtain ⟨ps, c, hps⟩ := (eq_nil_or_concat' (p.splitOn slash)).resolve_left (splitOn_ne_nil p)
  have hlast : lastPiece p = c := by rw [lastPiece, hps]; simp
  rw [hlast] at h ⊢
  simp [components, hps, foldl_append, foldl_cons, foldl_nil, pushComponent_of_isComponent h]

/-- The parent and the name of the path are there, and together they are the path. -/
def Recomposes (p : Str) : Prop :=
  ∃ d n, parentPath p = some d ∧ fileName p = some n ∧ IsComponent n ∧ normalizePath (d ++ slash :: n) = normalizePath p

/-- The parent and the name of a path recompose it exactly if the string ends with a name: not with a slash, and not with
the components `.` or `..`. -/
theorem parent_fileName_iff (p : Str) :
    (normalizePath p ≠ root → Recomposes p) ↔ (normalizePath p ≠ root → IsComponent (lastPiece p)) := by
  refine imp_congr_right fun hne => ⟨?_, ?_⟩
  · rintro ⟨d, n, -, hn, hco, -⟩
    simp_all [fileName, Option.filter_eq_some_iff]
  · intro h
    obtain ⟨cs, hcs⟩ := components_of_lastPiece h
    have hall : ∀ c ∈ cs, IsComponent c := by
      intro c hc
      have hmem : c ∈ components p := by simp [hcs, hc]
      exact isComponent_of_mem_components hmem
    refine ⟨render cs, lastPiece p, parentPath_of_components hcs, ?_, h, ?_⟩
    · rw [fileName, if_neg hne]
      simp [h.ne_nil]
    · have hs : (lastPiece p ++ joined slash []).splitOn slash = [lastPiece p] := splitOn_joined h.noSlash (by simp)
      simp_all [joined_nil, append_nil, normalizePath_eq, components_append, components_render hall, hs,
        foldl_cons, foldl_nil, pushComponent_of_isComponent h, hcs]

/-- The path `a/` has a name before the slash, but `file_name` finds none. -/
theorem trailing_slash_has_no_name :
    normalizePath (Fs.strBytes "a/") ≠ root ∧ ¬Recomposes (Fs.strBytes "a/") := by
  have hname : fileName (Fs.strBytes "a/") = none := by decide
  refine ⟨by decide, ?_⟩
  rintro ⟨d, n, -, hn, -⟩
  cases hn

end AstralOS.Vfs
