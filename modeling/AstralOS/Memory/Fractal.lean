import AstralOS.Memory.PageMap

/-!
# Fractal regions

The model of `memory/fractal.rs`: regions of virtual memory that are divided into eight octants, these again, and so on.  A
region has a coordinate; the coordinate of an octant doubles that of its parent and adds a bit in each direction.  The
number of a root is the `x` of its coordinate, and `find_region` takes the `x` of the coordinate it is given for the number
of a root at every depth.  So in every run a region is found by its coordinate exactly if its `x` is the number of its root
(`find_region_iff`): roots are found, and of the others only those with `x = 0`.
-/

namespace AstralOS.Memory.Fractal

open List BitVec Option

open PageTableEntry (present writable noExecute)
open Fallible

def maxFractalDepth : Nat := 8

structure SpatialCoord where
  x : BitVec 64
  y : BitVec 64
  z : BitVec 64
  depth : BitVec 8
  deriving DecidableEq

namespace SpatialCoord

/-- The coordinate of an octant, without the check of the depth. -/
def below (c : SpatialCoord) (octant : BitVec 8) : SpatialCoord :=
  let offsetX : BitVec 64 := (octant &&& 1).setWidth 64
  let offsetY : BitVec 64 := ((octant >>> 1) &&& 1).setWidth 64
  let offsetZ : BitVec 64 := ((octant >>> 2) &&& 1).setWidth 64
  { x := c.x * 2 + offsetX, y := c.y * 2 + offsetY, z := c.z * 2 + offsetZ, depth := c.depth + 1 }

def child (c : SpatialCoord) (octant : BitVec 8) : Option SpatialCoord :=
  if c.depth ≥ BitVec.ofNat 8 maxFractalDepth then none else some (c.below octant)

def bit (v : BitVec 64) (shift : Nat) : BitVec 64 := (v >>> shift) &&& 1

theorem bit_eq (v : BitVec 64) (shift : Nat) : bit v shift = if v.getLsbD shift then 1 else 0 := by
  grind [bit, toNat_and, toNat_ushiftRight, Nat.shiftRight_eq_div_pow, getLsbD,
    Nat.toNat_testBit]

theorem toNat_bits (c : SpatialCoord) (shift : Nat) :
    (bit c.x shift ||| bit c.y shift <<< 1 ||| bit c.z shift <<< 2).toNat =
      (c.x.getLsbD shift).toNat + 2 * (c.y.getLsbD shift).toNat + 4 * (c.z.getLsbD shift).toNat := by
  grind [bit_eq]

/-- The octant that the bits at one place of a coordinate say; a place past the bits is taken modulo 64. -/
def octant (c : SpatialCoord) (shift : Nat) : Fin 8 :=
  ⟨(bit c.x (shift % 64) ||| bit c.y (shift % 64) <<< 1 ||| bit c.z (shift % 64) <<< 2).toNat, by
    rw [toNat_bits]
    have hx := Bool.toNat_lt (c.x.getLsbD (shift % 64))
    have hy := Bool.toNat_lt (c.y.getLsbD (shift % 64))
    have hz := Bool.toNat_lt (c.z.getLsbD (shift % 64))
    omega⟩

end SpatialCoord

/-- A region (`FractalRegion`), without the counters of its accesses. -/
structure FractalRegion where
  coord : SpatialCoord
  baseAddr : BitVec 64
  size : BitVec 64
  physicalFrames : List PhysAddr
  children : Option (Fin 8 → Option FractalRegion)

namespace FractalRegion

def new (coord : SpatialCoord) (baseAddr size : BitVec 64) : FractalRegion :=
  { coord, baseAddr, size, physicalFrames := [], children := none }

section

variable (r : FractalRegion)

def page (i : Nat) : BitVec 64 := r.baseAddr + BitVec.ofNat 64 (i * pageSize)

def numPages : Nat :=
  ((r.size + BitVec.ofNat 64 pageSize - 1) / BitVec.ofNat 64 pageSize).toNat

def backPage (p4 : PhysAddr) (i : Nat) : PhysM PhysAddr := do
  let frame ← okOr "Out of memory" (← allocateFrame)
  map p4 (r.page i) frame (present ||| writable ||| noExecute)
  return frame

def allocateBacking (p4 : PhysAddr) : PhysM FractalRegion := do
  let frames ← (List.range r.numPages).foldlM (fun frames i => do
    let frame ← r.backPage p4 i
    return frames ++ [frame]) r.physicalFrames
  return { r with physicalFrames := frames }

end

def subdivide (r : FractalRegion) : Except String FractalRegion :=
  if r.coord.depth ≥ BitVec.ofNat 8 maxFractalDepth then .error "Maximum fractal depth reached"
  else if r.children.isSome then .error "Already subdivided"
  else
    let childSize := r.size / 8
    if childSize < BitVec.ofNat 64 pageSize then .error "Region too small to subdivide"
    else
      .ok { r with
        children := some fun octant =>
          (r.coord.child (BitVec.ofNat 8 octant)).map fun childCoord =>
            new childCoord (r.baseAddr + BitVec.ofNat 64 octant * childSize) childSize }

def child (r : FractalRegion) (octant : Fin 8) : Option FractalRegion := r.children.bind fun children => children octant

def setAt : FractalRegion → List (Fin 8) → FractalRegion → FractalRegion
  | _, [], r' => r'
  | r, o :: path, r' =>
    { r with
      children := r.children.map fun children =>
        Function.update children o ((children o).map fun child => child.setAt path r') }

end FractalRegion

/-- The place of a region: the number of its root, and the octants from there.  A reference to a region is modelled by its
place. -/
structure Place where
  root : Nat
  path : List (Fin 8)
  deriving DecidableEq

structure FractalAllocator where
  rootRegions : List FractalRegion
  nextVirtBase : BitVec 64

namespace FractalAllocator

def new : FractalAllocator := { rootRegions := [], nextVirtBase := 0xFFFF900000000000 }

def region (a : FractalAllocator) (place : Place) : Option FractalRegion :=
  (a.rootRegions[place.root]?).bind fun root => place.path.foldlM FractalRegion.child root

def setRegion (a : FractalAllocator) (place : Place) (r : FractalRegion) : FractalAllocator :=
  { a with rootRegions := a.rootRegions.modify place.root fun root => root.setAt place.path r }

def descend (coord : SpatialCoord) (current : Place × FractalRegion) (depth : Nat) : Option (Place × FractalRegion) :=
  match current.2.children with
  | none => none
  | some children =>
    let octant := coord.octant (coord.depth.toNat - depth)
    match children octant with
    | none => none
    | some child => some (⟨current.1.root, current.1.path ++ [octant]⟩, child)

def findRegion (a : FractalAllocator) (coord : SpatialCoord) : Option Place :=
  let rootIdx := coord.x.toNat
  match a.rootRegions[rootIdx]? with
  | none => none
  | some root => do
    let (place, _) ← (List.range' 1 coord.depth.toNat).foldlM (descend coord) (⟨rootIdx, []⟩, root)
    return place

end FractalAllocator

/-- The allocator, and the memory it takes frames from. -/
structure FractalState where
  phys : Phys
  alloc : FractalAllocator

/-- The calls; `subdivide` is one on the region at a place. -/
inductive FractalCall
  | allocateRegion (p4 : PhysAddr) (size : BitVec 64)
  | subdivide (place : Place)

namespace FractalState

section

variable (s : FractalState)

/-- A new root region (`allocate_region`).  The addresses are used up even if there are no frames for them. -/
def allocateRegion (p4 : PhysAddr) (size : BitVec 64) : Except Stop Place × FractalState :=
  let alignedSize := (size + BitVec.ofNat 64 pageSize - 1) &&& ~~~(BitVec.ofNat 64 pageSize - 1)
  let baseAddr := s.alloc.nextVirtBase
  let alloc := { s.alloc with nextVirtBase := s.alloc.nextVirtBase + alignedSize }
  let coord := ⟨BitVec.ofNat 64 alloc.rootRegions.length, 0, 0, 0⟩
  match ((FractalRegion.new coord baseAddr alignedSize).allocateBacking p4).exec s.phys with
  | (.error e, phys) => (.error e, { phys, alloc })
  | (.ok region, phys) =>
    (.ok ⟨alloc.rootRegions.length, []⟩, { phys, alloc := { alloc with rootRegions := alloc.rootRegions ++ [region] } })

def subdivide (place : Place) : Except Stop Place × FractalState :=
  match s.alloc.region place with
  | none => (.error (.err "Region not found"), s)
  | some r =>
    match r.subdivide with
    | .error msg => (.error (.err msg), s)
    | .ok r' => (.ok place, { s with alloc := s.alloc.setRegion place r' })

def exec : FractalCall → Except Stop Place × FractalState
  | .allocateRegion p4 size => s.allocateRegion p4 size
  | .subdivide place => s.subdivide place

def step (c : FractalCall) : FractalState := (s.exec c).2

def Succeeds (c : FractalCall) : Prop := ∃ place, (s.exec c).1 = .ok place

end

end FractalState

/-! ### Coordinates -/

namespace SpatialCoord

variable {c : SpatialCoord} {o : Fin 8} {shift : Nat}

def ofRoot (root : Nat) : SpatialCoord := ⟨BitVec.ofNat 64 root, 0, 0, 0⟩

def down (c : SpatialCoord) (o : Fin 8) : SpatialCoord := c.below (BitVec.ofNat 8 o)

theorem toNat_double (v : BitVec 64) (b : Nat) :
    (v * 2 + BitVec.ofNat 64 b).toNat = (2 * v.toNat + b) % 2 ^ 64 := by
  simp [toNat_add, toNat_mul, toNat_ofNat]
  omega

theorem getLsbD_double_zero (v : BitVec 64) {b : Nat} (hb : b < 2) :
    (v * 2 + BitVec.ofNat 64 b).getLsbD 0 = decide (b = 1) := by
  simp [getLsbD, toNat_double v b, Nat.testBit_mod_two_pow, Nat.testBit_zero, Bool.true_and, decide_eq_decide]
  omega

theorem getLsbD_double_succ (v : BitVec 64) {b : Nat} (hb : b < 2) (hs : shift + 1 < 64) :
    (v * 2 + BitVec.ofNat 64 b).getLsbD (shift + 1) = v.getLsbD shift := by
  rw [getLsbD, toNat_double v b, Nat.testBit_mod_two_pow, decide_eq_true hs, Bool.true_and, Nat.testBit_succ,
    Nat.mul_add_div (by decide), Nat.div_eq_of_lt hb, Nat.add_zero, getLsbD]

section

variable (c : SpatialCoord)

theorem down_eq (o : Fin 8) :
    c.down o = ⟨c.x * 2 + BitVec.ofNat 64 (o.val % 2), c.y * 2 + BitVec.ofNat 64 (o.val / 2 % 2),
      c.z * 2 + BitVec.ofNat 64 (o.val / 4 % 2), c.depth + 1⟩ := by
  have hbits : ∀ o : Fin 8, (BitVec.ofNat 8 o &&& 1).setWidth 64 = BitVec.ofNat 64 (o.val % 2) ∧
      ((BitVec.ofNat 8 o >>> 1) &&& 1).setWidth 64 = BitVec.ofNat 64 (o.val / 2 % 2) ∧
      ((BitVec.ofNat 8 o >>> 2) &&& 1).setWidth 64 = BitVec.ofNat 64 (o.val / 4 % 2) := by decide
  grind [down, below]

theorem octant_val (hs : shift < 64) :
    (c.octant shift).val =
      (c.x.getLsbD shift).toNat + 2 * (c.y.getLsbD shift).toNat + 4 * (c.z.getLsbD shift).toNat := by
  have hmod := toNat_bits c (shift % 64)
  simpa [octant, Nat.mod_eq_of_lt hs] using hmod

theorem octant_down_zero (o : Fin 8) : (c.down o).octant 0 = o := by
  apply Fin.ext
  rw [octant_val _ (by decide), down_eq]
  rw [getLsbD_double_zero _ (Nat.mod_lt _ (by decide)), getLsbD_double_zero _ (Nat.mod_lt _ (by decide)),
    getLsbD_double_zero _ (Nat.mod_lt _ (by decide))]
  revert o
  decide

theorem octant_down_succ (o : Fin 8) (hs : shift + 1 < 64) :
    (c.down o).octant (shift + 1) = c.octant shift := by
  apply Fin.ext
  rw [octant_val _ hs, octant_val _ (by omega), down_eq]
  rw [getLsbD_double_succ _ (Nat.mod_lt _ (by decide)) hs, getLsbD_double_succ _ (Nat.mod_lt _ (by decide)) hs,
    getLsbD_double_succ _ (Nat.mod_lt _ (by decide)) hs]

theorem octant_foldl_down {path : List (Fin 8)} (hlen : path.length ≤ 64) {j : Nat}
    (hj : j < path.length) : (path.foldl down c).octant (path.length - (j + 1)) = path[j] := by
  induction path using reverseRecOn generalizing j with
  | nil => cases hj
  | append_singleton path o ih =>
    rw [length_append, length_singleton] at hlen hj
    simp only [foldl_append, foldl_cons, foldl_nil, length_append, length_singleton]
    rcases Nat.lt_or_ge j path.length with hlt | hge
    · rw [show path.length + 1 - (j + 1) = path.length - (j + 1) + 1 by omega, octant_down_succ _ _ (by omega),
        ih (by omega) hlt, getElem_append_left hlt]
    · simp_all [octant_down_zero]

theorem depth_foldl_down (path : List (Fin 8)) :
    (path.foldl down c).depth = c.depth + BitVec.ofNat 8 path.length := by
  induction path generalizing c with
  | nil => exact (BitVec.add_zero _).symm
  | cons o path ih =>
    rw [List.foldl_cons, ih, List.length_cons, down_eq, Nat.add_comm path.length 1, BitVec.ofNat_add, BitVec.add_assoc]
    rfl

end

theorem x_foldl_down {root : Nat} {path : List (Fin 8)} (h : (root + 1) * 2 ^ path.length ≤ 2 ^ 64) :
    root * 2 ^ path.length ≤ (path.foldl down (ofRoot root)).x.toNat ∧
      (path.foldl down (ofRoot root)).x.toNat < (root + 1) * 2 ^ path.length := by
  induction path using reverseRecOn with
  | nil =>
    rw [length_nil, Nat.pow_zero, Nat.mul_one, Nat.mul_one] at *
    change root ≤ (BitVec.ofNat 64 root).toNat ∧ (BitVec.ofNat 64 root).toNat < root + 1
    rw [toNat_ofNat]
    omega
  | append_singleton path o ih =>
    rw [length_append, length_singleton, Nat.pow_succ, ← Nat.mul_assoc] at h
    obtain ⟨hlo, hhi⟩ := ih (by omega)
    rw [length_append, length_singleton, Nat.pow_succ, ← Nat.mul_assoc, ← Nat.mul_assoc]
    grind [foldl_append, foldl_cons, foldl_nil, down_eq, toNat_double]

end SpatialCoord

def Place.coord (place : Place) : SpatialCoord := place.path.foldl SpatialCoord.down (.ofRoot place.root)

/-! ### The walk -/

namespace FractalAllocator

variable {a : FractalAllocator} {place : Place}

theorem descend_eq (coord : SpatialCoord) (place : Place) (r : FractalRegion) (depth : Nat) :
    descend coord (place, r) depth = (r.child (coord.octant (coord.depth.toNat - depth))).map fun r' =>
      (⟨place.root, place.path ++ [coord.octant (coord.depth.toNat - depth)]⟩, r') := by
  unfold descend FractalRegion.child
  cases r.children with
  | none => rfl
  | some children =>
    grind

theorem foldlM_descend {coord : SpatialCoord} {root m : Nat} {path : List (Fin 8)} (done : List (Fin 8))
    (r : FractalRegion)
    (h : ∀ (j : Nat) (hj : j < path.length), coord.octant (coord.depth.toNat - (m + j)) = path[j]) :
    (List.range' m path.length).foldlM (descend coord) (⟨root, done⟩, r) =
      (path.foldlM FractalRegion.child r).map fun r' => (⟨root, done ++ path⟩, r') := by
  induction path generalizing m done r with
  | nil => simp
  | cons o path ih =>
    have ho : coord.octant (coord.depth.toNat - m) = o := h 0 (Nat.zero_lt_succ _)
    have hrest : ∀ (j : Nat) (hj : j < path.length), coord.octant (coord.depth.toNat - (m + 1 + j)) = path[j] := by
      intro j hj
      have := h (j + 1) (Nat.succ_lt_succ hj)
      rwa [← Nat.add_assoc, Nat.add_right_comm] at this
    rw [length_cons, range'_succ, foldlM_cons, foldlM_cons, descend_eq, ho]
    grind

theorem depth_coord {place : Place} (hlen : place.path.length ≤ 8) : place.coord.depth.toNat = place.path.length := by
  unfold Place.coord
  rw [SpatialCoord.depth_foldl_down]
  change (0#8 + BitVec.ofNat 8 place.path.length).toNat = _
  grind

/-- The place that is found by the coordinate of a place: the one with the same path in the root with number `x`, if there is
a region. -/
theorem findRegion_coord (a : FractalAllocator) {place : Place} (hlen : place.path.length ≤ 8) :
    a.findRegion place.coord =
      (a.region ⟨place.coord.x.toNat, place.path⟩).map fun _ => ⟨place.coord.x.toNat, place.path⟩ := by
  unfold findRegion region
  dsimp only
  cases a.rootRegions[place.coord.x.toNat]? with
  | none => rfl
  | some root =>
    have ho : ∀ (j : Nat) (hj : j < place.path.length),
        place.coord.octant (place.coord.depth.toNat - (1 + j)) = place.path[j] := by
      intro j hj
      rw [depth_coord hlen, Nat.add_comm 1 j]
      exact SpatialCoord.octant_foldl_down _ (by omega) hj
    dsimp only
    rw [depth_coord hlen, foldlM_descend [] root ho, bind_some, nil_append]
    cases place.path.foldlM FractalRegion.child root with
    | none => rfl
    | some r => rfl

end FractalAllocator

/-! ### Regions and their coordinates -/

namespace FractalRegion

/-- The region has the coordinate, and its descendants have those that belong to their places. -/
inductive Tiled : SpatialCoord → FractalRegion → Prop
  | mk {c : SpatialCoord} {r : FractalRegion} (coord : r.coord = c)
      (depth : ∀ o r', r.child o = some r' → c.depth.toNat < maxFractalDepth)
      (children : ∀ o r', r.child o = some r' → Tiled (c.down o) r') : Tiled c r

variable {c : SpatialCoord} {r r' : FractalRegion} {path : List (Fin 8)}

theorem Tiled.coord_eq (h : Tiled c r) : r.coord = c := by
  cases h with
  | mk coord _ _ => exact coord

theorem Tiled.descendant (h : Tiled c r) (hc : c.depth.toNat ≤ maxFractalDepth) (hr : path.foldlM child r = some r') :
    Tiled (path.foldl SpatialCoord.down c) r' ∧ c.depth.toNat + path.length ≤ maxFractalDepth := by
  induction path generalizing c r with
  | nil =>
    cases hr
    exact ⟨h, hc⟩
  | cons o path ih =>
    obtain ⟨r1, hr1, hr⟩ := bind_eq_some_iff.1 hr
    cases h with
    | mk _ depth children =>
      have hmax : maxFractalDepth = 8 := rfl
      have hdown : (c.down o).depth.toNat = c.depth.toNat + 1 := by
        change (c.depth + 1).toNat = _
        simp [toNat_add]
        omega
      grind

theorem tiled_of_children (hc : r.coord = c) (hr : r.children = none) : Tiled c r := by
  have hnone : ∀ o r', r.child o ≠ some r' := by
    simp [child, hr]
  exact ⟨hc, fun o r' h => absurd h (hnone o r'), fun o r' h => absurd h (hnone o r')⟩

theorem subdivide_of (hd : r.coord.depth < BitVec.ofNat 8 maxFractalDepth) (hr : r.children = none)
    (hsize : ¬r.size / 8 < BitVec.ofNat 64 pageSize) :
    r.subdivide = .ok { r with
      children := some fun octant => some
        (new (r.coord.down octant) (r.baseAddr + BitVec.ofNat 64 octant * (r.size / 8)) (r.size / 8)) } := by
  have hc : ∀ o : Fin 8, r.coord.child (BitVec.ofNat 8 o) = some (r.coord.down o) :=
    fun o => if_neg (BitVec.not_le.2 hd)
  unfold FractalRegion.subdivide
  rw [if_neg (BitVec.not_le.2 hd), hr]
  rw [if_neg (by simp), if_neg hsize]
  simp only [hc, map_some]

theorem Tiled.subdivide (h : Tiled c r) (hr : r.subdivide = .ok r') : Tiled c r' := by
  unfold FractalRegion.subdivide at hr
  split at hr
  · cases hr
  · rename_i hd
    split at hr
    · cases hr
    · dsimp only at hr
      split at hr
      · cases hr
      · cases hr
        rw [h.coord_eq] at hd ⊢
        refine ⟨rfl, fun _ _ _ => BitVec.lt_def.1 (BitVec.not_le.1 hd), fun o r1 hr1 => ?_⟩
        have hc : c.child (BitVec.ofNat 8 o) = some (c.down o) := if_neg hd
        unfold child at hr1
        rw [bind_some] at hr1
        dsimp only at hr1
        rw [hc, map_some] at hr1
        cases hr1
        exact tiled_of_children rfl rfl

theorem child_setAt (r r' : FractalRegion) (o o' : Fin 8) (path : List (Fin 8)) :
    (r.setAt (o :: path) r').child o' =
      if o' = o then (r.child o).map fun r1 => r1.setAt path r' else r.child o' := by
  unfold child
  rw [setAt]
  cases r.children with
  | none => simp
  | some children =>
    rw [map_some, bind_some, bind_some, bind_some, Function.update_apply]

theorem Tiled.setAt (h : Tiled c r) (hr' : Tiled (path.foldl SpatialCoord.down c) r') : Tiled c (r.setAt path r') := by
  induction path generalizing c r with
  | nil => exact hr'
  | cons o path ih =>
    cases h with
    | mk coord depth children =>
      -- a child is the one that was there, or the one on the path with its descendant replaced
      have hc : ∀ o' r1, (r.setAt (o :: path) r').child o' = some r1 →
          ∃ r0, r.child o' = some r0 ∧ Tiled (c.down o') r1 := by
        intro o' r1 hr1
        rw [child_setAt] at hr1
        by_cases ho : o' = o
        · subst ho
          rw [if_pos rfl] at hr1
          obtain ⟨r0, hr0, rfl⟩ := map_eq_some_iff.1 hr1
          exact ⟨r0, hr0, ih (children o' r0 hr0) hr'⟩
        · simp_all
      refine ⟨coord, fun o' r1 hr1 => ?_, fun o' r1 hr1 => ?_⟩
      · grind
      · simp_all

end FractalRegion

/-! ### Runs -/

/-- Every region has the coordinate of its place. -/
def FractalAllocator.Inv (a : FractalAllocator) : Prop :=
  ∀ (i : Nat) (root : FractalRegion), a.rootRegions[i]? = some root → root.Tiled (.ofRoot i)

namespace FractalAllocator

variable {a : FractalAllocator} {place : Place} {r r' : FractalRegion}

theorem Inv.region (h : a.Inv) (hr : a.region place = some r) : r.Tiled place.coord ∧ place.path.length ≤ 8 := by
  obtain ⟨root, hroot, hr⟩ := bind_eq_some_iff.1 hr
  obtain ⟨ht, hlen⟩ := (h place.root root hroot).descendant (Nat.zero_le 8) hr
  exact ⟨ht, Nat.le_trans (Nat.le_add_left _ _) hlen⟩

theorem Inv.push (h : a.Inv) (hr : r.Tiled (.ofRoot a.rootRegions.length)) :
    Inv { a with rootRegions := a.rootRegions ++ [r] } := by
  intro i root hroot
  rcases Nat.lt_trichotomy i a.rootRegions.length with hlt | rfl | hgt
  · rw [getElem?_append_left hlt] at hroot
    exact h i root hroot
  · simp_all
  · grind

theorem Inv.setRegion (h : a.Inv) (hr : r.Tiled place.coord) : (a.setRegion place r).Inv := by
  intro i root hroot
  unfold FractalAllocator.setRegion at hroot
  rw [List.getElem?_modify, Option.map_eq_map] at hroot
  obtain ⟨root0, hroot0, rfl⟩ := map_eq_some_iff.1 hroot
  have ht := h i root0 hroot0
  split
  · rename_i hi
    subst hi
    exact ht.setAt hr
  · exact ht

end FractalAllocator

namespace FractalState

theorem allocateBacking_ends (r : FractalRegion) (p4 : PhysAddr) (s : Phys) :
    Ends (r.allocateBacking p4) s (fun r' _ => r' = { r with physicalFrames := r'.physicalFrames }) (fun _ _ => True) := by
  exact Ends.bind (ends_true _ s) (fun _ _ _ => ends_pure rfl)

theorem inv_allocateRegion {s : FractalState} (h : s.alloc.Inv) (p4 : PhysAddr) (size : BitVec 64) :
    (s.allocateRegion p4 size).2.alloc.Inv := by
  unfold allocateRegion
  dsimp only
  split
  · exact h
  · rename_i region phys hexec
    have hr := (allocateBacking_ends _ p4 s.phys).ok hexec
    rw [hr]
    exact FractalAllocator.Inv.push h (FractalRegion.tiled_of_children rfl rfl)

theorem inv_subdivide {s : FractalState} (h : s.alloc.Inv) (place : Place) : (s.subdivide place).2.alloc.Inv := by
  unfold subdivide
  split
  · exact h
  · rename_i r hr
    split
    · exact h
    · rename_i r' hr'
      exact h.setRegion ((h.region hr).1.subdivide hr')

theorem inv_step {s : FractalState} (h : s.alloc.Inv) (c : FractalCall) : (s.step c).alloc.Inv := by
  cases c with
  | allocateRegion p4 size => exact inv_allocateRegion h p4 size
  | subdivide place => exact inv_subdivide h place

theorem inv_run (phys : Phys) (calls : List FractalCall) : (run step ⟨phys, .new⟩ calls).alloc.Inv := by
  have hnew : FractalAllocator.new.Inv := by
    intro i root hroot
    cases hroot
  exact run_invariant (P := fun s : FractalState => s.alloc.Inv) (Q := fun _ => True) (fun s c h _ => inv_step h c) hnew
    fun _ _ => trivial

theorem x_coord_eq_iff {place : Place} (hlen : place.path.length ≤ 8) (hroot : place.root < 2 ^ 56) :
    place.coord.x.toNat = place.root ↔ place.coord.depth = 0 ∨ place.coord.x = 0 := by
  have hde : place.coord.depth = 0 ↔ place.path.length = 0 := by
    rw [← toNat_inj, FractalAllocator.depth_coord hlen]
    rfl
  have hx : place.coord.x = 0 ↔ place.coord.x.toNat = 0 := by
    rw [← toNat_inj]
    rfl
  have hpow : 2 ^ place.path.length ≤ 2 ^ 8 := Nat.pow_le_pow_right (by decide) hlen
  have hwrap : (place.root + 1) * 2 ^ place.path.length ≤ 2 ^ 64 := by
    calc (place.root + 1) * 2 ^ place.path.length ≤ 2 ^ 56 * 2 ^ 8 := Nat.mul_le_mul hroot hpow
      _ = 2 ^ 64 := by decide
  obtain ⟨hlo, hhi⟩ := SpatialCoord.x_foldl_down hwrap
  change _ ≤ place.coord.x.toNat at hlo
  change place.coord.x.toNat < _ at hhi
  rw [hde, hx]
  rcases Nat.eq_zero_or_pos place.path.length with hzero | hpos
  · grind
  · have hdo : place.root * 2 ≤ place.root * 2 ^ place.path.length :=
      Nat.mul_le_mul_left _ (Nat.le_pow hpos)
    omega

/-- After every run, the region at a place is found by its coordinate exactly if `x` is the number of its root.  While there
are not too many roots, these are the roots and the regions with `x = 0`. -/
theorem find_region_iff (phys : Phys) (calls : List FractalCall) (place : Place) (r : FractalRegion)
    (hr : (run step ⟨phys, .new⟩ calls).alloc.region place = some r) :
    ((run step ⟨phys, .new⟩ calls).alloc.findRegion r.coord = some place ↔ r.coord.x.toNat = place.root) ∧
      ((run step ⟨phys, .new⟩ calls).alloc.rootRegions.length ≤ 2 ^ 56 →
        ((run step ⟨phys, .new⟩ calls).alloc.findRegion r.coord = some place ↔ r.coord.depth = 0 ∨ r.coord.x = 0)) := by
  obtain ⟨ht, hlen⟩ := (inv_run phys calls).region hr
  generalize (run step ⟨phys, .new⟩ calls).alloc = a at *
  rw [ht.coord_eq]
  have hiff : a.findRegion place.coord = some place ↔ place.coord.x.toNat = place.root := by
    rw [FractalAllocator.findRegion_coord a hlen]
    constructor
    · intro hf
      obtain ⟨-, -, heq⟩ := map_eq_some_iff.1 hf
      exact congrArg Place.root heq
    · intro hx
      rw [hx, hr]
      rfl
  refine ⟨hiff, fun hro => hiff.trans (x_coord_eq_iff hlen ?_)⟩
  obtain ⟨root, hroot, -⟩ := bind_eq_some_iff.1 hr
  exact Nat.lt_of_lt_of_le (List.getElem?_eq_some_iff.1 hroot).1 hro

/-! ### A divided region -/

variable {r : FractalRegion} {s : Phys} {p4 : PhysAddr}

theorem backPage_ends (h : PageTables (fun _ => True) s p4) (i : Nat) :
    Ends (r.backPage p4 i) s
      (fun frame s' => translate s p4 (r.page i) = none ∧ PageTables (fun _ => True) s' p4 ∧
        (∀ v, translate s' p4 v = if pageOf v = pageOf (r.page i) then some frame else translate s p4 v) ∧
        s.frames.avail ≤ s'.frames.avail + 4 ∧ s.frames.Free frame.frame ∧
        ∀ f, s'.frames.Free f → s.frames.Free f ∧ f ≠ frame.frame)
      (fun _ _ => s.frames.avail < 4 ∨ translate s p4 (r.page i) ≠ none) := by
  refine ends_bind_of (allocateFrame_ends s) ?_ fun _ _ h => h.elim
  rintro o s1 ⟨rfl, rfl⟩
  rcases s.frames.allocate_spec with ⟨p, hp, hfree, hrest, ha⟩ | ⟨hp, -, ha, -⟩
  · rw [hp]
    obtain ⟨hta, htr⟩ : PageTables (fun _ => True) { s with frames := s.frames.allocate.2 } p4 ∧
        ∀ v, translate { s with frames := s.frames.allocate.2 } p4 v = translate s p4 v :=
      h.of_mem rfl fun f hf => ((hrest f).1 hf).1
    refine ends_okOr_bind (fun frame hfr => ?_) fun hnone => by cases hnone
    obtain rfl := some.inj hfr
    by_cases hnone : translate s p4 (r.page i) = none
    · refine ends_bind_of (hta.map trivial (by decide) ((htr _).trans hnone)) ?_ ?_
      · rintro _ s2 ⟨hta2, htr2, ha2, hfree2⟩
        refine ends_pure ⟨hnone, hta2, fun v => ?_, ?_, hfree, fun f hf => (hrest f).1 (hfree2 f hf)⟩
        · rw [htr2 v trivial, htr]
        · dsimp only at ha2
          omega
      · grind
    · -- the page is mapped already
      refine ends_bind (ends_of (fun _ _ hok => ?_) fun _ _ _ => .inr hnone)
      rw [map_of_mapped (by rwa [htr])] at hok
      cases hok
  · rw [hp]
    refine ends_okOr_bind (fun frame hfr => by cases hfr) fun _ => ?_
    exact .inl (by omega)

theorem exists_allocateBacking (h : PageTables (fun _ => True) s p4)
    (hnone : ∀ i, i < r.numPages → translate s p4 (r.page i) = none)
    (hne : ∀ j, j < r.numPages → ∀ i, i < j → pageOf (r.page j) ≠ pageOf (r.page i))
    (ha : 4 * r.numPages ≤ s.frames.avail) : ∃ r' s', (r.allocateBacking p4).exec s = (.ok r', s') := by
  have hends : Ends (r.allocateBacking p4) s (fun _ _ => True) fun _ _ => False := by
    refine Ends.bind (ends_foldlM_done (E := fun _ _ => False) (range r.numPages) (fun done _ s' =>
      PageTables (fun _ => True) s' p4 ∧
      (∀ v, (∀ i ∈ done, pageOf v ≠ pageOf (r.page i)) → translate s' p4 v = translate s p4 v) ∧
      s.frames.avail ≤ s'.frames.avail + 4 * done.length) ?_ ⟨h, fun _ _ => rfl, Nat.le_add_right _ _⟩)
      (fun _ _ _ => ends_pure trivial)
    rintro done i rest frames s1 hdone ⟨hta, htr, ha1⟩
    have hi : i < r.numPages := mem_range.1 (hdone ▸ mem_append_right _ mem_cons_self)
    have hlen : done.length < r.numPages := by
      grind [length_append, length_cons, length_range]
    have hb : ∀ j ∈ done, pageOf (r.page i) ≠ pageOf (r.page j) := by
      intro j hj
      have hs := pairwise_lt_range (n := r.numPages)
      grind
    refine ends_bind_of (backPage_ends hta i) ?_ fun _ _ hfew =>
      hfew.elim (fun hfew => by omega) fun hm => hm ((htr _ hb).trans (hnone i hi))
    rintro frame s2 ⟨-, hta2, htr2, ha2, -⟩
    refine ends_pure ⟨hta2, fun v hv => ?_, ?_⟩
    · rw [htr2 v, if_neg (hv i (by simp)), htr v fun j hj => hv j (by simp [hj])]
    · grind
  obtain ⟨r', s', hok, -⟩ := hends.exists_ok
  exact ⟨r', s', hok⟩

theorem exists_firstRoot :
    ∃ (phys phys' : Phys) (p4 : PhysAddr) (root : FractalRegion), PageTables (fun _ => True) phys p4 ∧
      allocateRegion ⟨phys, .new⟩ p4 0x8000 = (.ok ⟨0, []⟩, ⟨phys', ⟨[root], 0xFFFF900000008000⟩⟩) ∧
      root.coord = .ofRoot 0 ∧ root.children = none ∧ root.size = 0x8000 := by
  obtain ⟨phys, p4, ht, hnone, ha⟩ := Mapping.exists_newTables
  have hmax : maxFrames = 1024 * 1024 := rfl
  have hp : (FractalRegion.new (.ofRoot 0) 0xFFFF900000000000 0x8000).numPages = 8 := by decide
  have hne : ∀ j, j < 8 → ∀ i, i < j → pageOf ((FractalRegion.new (.ofRoot 0) 0xFFFF900000000000 0x8000).page j) ≠
      pageOf ((FractalRegion.new (.ofRoot 0) 0xFFFF900000000000 0x8000).page i) := by decide
  obtain ⟨root, phys', hexec⟩ := exists_allocateBacking ht (fun i _ => hnone _) (by rw [hp]; exact hne)
    (by rw [hp]; omega)
  have hroot := (allocateBacking_ends _ p4 phys).ok hexec
  have hsize : ((0x8000 : BitVec 64) + BitVec.ofNat 64 pageSize - 1) &&& ~~~(BitVec.ofNat 64 pageSize - 1) = 0x8000 := by
    decide
  refine ⟨phys, phys', p4, root, ht, ?_, by rw [hroot]; rfl, by rw [hroot]; rfl, by rw [hroot]; rfl⟩
  have hexec' : ((FractalRegion.new ⟨BitVec.ofNat 64 FractalAllocator.new.rootRegions.length, 0, 0, 0⟩
      FractalAllocator.new.nextVirtBase 0x8000).allocateBacking p4).exec phys = (.ok root, phys') := hexec
  unfold allocateRegion
  dsimp only
  rw [hsize, hexec']
  rfl

def dividedRoot (p4 : PhysAddr) : List FractalCall := [.allocateRegion p4 0x8000, .subdivide ⟨0, []⟩]

theorem exists_dividedRoot :
    ∃ (phys : Phys) (p4 : PhysAddr) (root : FractalRegion), Meets step Succeeds ⟨phys, .new⟩ (dividedRoot p4) ∧
      (run step ⟨phys, .new⟩ (dividedRoot p4)).alloc.rootRegions = [root] ∧
      ∀ o, ∃ r, root.child o = some r ∧ r.coord = (SpatialCoord.ofRoot 0).down o := by
  obtain ⟨phys, phys', p4, root, -, hf, hco, hnone, hsize⟩ := exists_firstRoot
  obtain ⟨root', hd, hch⟩ : ∃ root', root.subdivide = .ok root' ∧
      ∀ o, ∃ r, root'.child o = some r ∧ r.coord = (SpatialCoord.ofRoot 0).down o := by
    have hok : root.subdivide = .ok _ := FractalRegion.subdivide_of (by rw [hco]; decide) hnone
      (by rw [hsize]; decide)
    refine ⟨_, hok, fun o => ⟨_, rfl, ?_⟩⟩
    rw [hco]
    rfl
  have hs : exec ⟨phys', ⟨[root], 0xFFFF900000008000⟩⟩ (.subdivide ⟨0, []⟩) =
      (.ok ⟨0, []⟩, ⟨phys', ⟨[root'], 0xFFFF900000008000⟩⟩) := by
    have hr : FractalAllocator.region ⟨[root], 0xFFFF900000008000⟩ ⟨0, []⟩ = some root := rfl
    unfold exec subdivide
    dsimp only
    rw [hr]
    dsimp only
    rw [hd]
    rfl
  have hstep1 : step ⟨phys, .new⟩ (.allocateRegion p4 0x8000) = ⟨phys', ⟨[root], 0xFFFF900000008000⟩⟩ :=
    congrArg Prod.snd hf
  have hstep2 : step ⟨phys', ⟨[root], 0xFFFF900000008000⟩⟩ (.subdivide ⟨0, []⟩) =
      ⟨phys', ⟨[root'], 0xFFFF900000008000⟩⟩ :=
    congrArg Prod.snd hs
  refine ⟨phys, p4, root', ⟨⟨_, congrArg Prod.fst hf⟩, ⟨⟨0, []⟩, ?_⟩, trivial⟩, ?_, hch⟩
  · simp_all [hstep1]
  · rw [dividedRoot, run_cons, run_cons, run_nil, hstep1, hstep2]

theorem region_octant {a : FractalAllocator} {root r : FractalRegion} {o : Fin 8} (hro : a.rootRegions = [root])
    (hr : root.child o = some r) : a.region ⟨0, [o]⟩ = some r := by
  simp [FractalAllocator.region, hro, hr]

/-- The octants with `x = 0` are found, the third one for instance. -/
theorem find_region_octant :
    ∃ (phys : Phys) (p4 : PhysAddr) (r : FractalRegion),
      (run step ⟨phys, .new⟩ (dividedRoot p4)).alloc.region ⟨0, [2]⟩ = some r ∧
      (run step ⟨phys, .new⟩ (dividedRoot p4)).alloc.findRegion r.coord = some ⟨0, [2]⟩ := by
  obtain ⟨phys, p4, root, -, hro, hch⟩ := exists_dividedRoot
  obtain ⟨r, hr, hco⟩ := hch 2
  have hre := region_octant hro hr
  exact ⟨phys, p4, r, hre, (find_region_iff phys _ _ r hre).1.2 (by rw [hco]; decide)⟩

/-- The second octant of the only root has `x = 1`, and there is no root with that number. -/
theorem find_region_misses :
    ¬∀ (phys : Phys) (calls : List FractalCall), Meets step Succeeds ⟨phys, .new⟩ calls →
      ∀ place r, (run step ⟨phys, .new⟩ calls).alloc.region place = some r →
        (run step ⟨phys, .new⟩ calls).alloc.findRegion r.coord = some place := by
  intro hall
  obtain ⟨phys, p4, root, hm, hro, hch⟩ := exists_dividedRoot
  obtain ⟨r, hr, hco⟩ := hch 1
  have hf := hall phys (dividedRoot p4) hm _ r (region_octant hro hr)
  have hone : r.coord.x.toNat = 1 := by
    rw [hco]
    decide
  simp_all [FractalAllocator.findRegion]

end FractalState

end AstralOS.Memory.Fractal
