import AstralOS.Graphics.Painting
import AstralOS.Lib.Raster

/-!
# Drawing surfaces

What the loops of the compositor do to one pixel of the back buffer.  The whole of a surface on the screen is put once over
each pixel it covers (`blitSurface_apply`), and a dirty rectangle once over each pixel of the rectangle
(`blitRegion_apply`).  So a surface with dirty rectangles gives a pixel as many coats as rectangles cover it
(`compositeSurface_apply`).
-/

namespace AstralOS.Graphics

open BitVec

/-! ### Clipping -/

theorem asUsize_of_nonneg {i : BitVec 32} (h : 0 ≤ i.toInt) : (asUsize i : Int) = i.toInt := by
  grind [asUsize, msb_eq_toInt]

theorem toInt_signedMax (i j : BitVec 32) : (signedMax i j).toInt = max i.toInt j.toInt := by
  unfold signedMax
  by_cases h : i.slt j
  · rw [if_pos h]
    rw [slt_iff_toInt_lt] at h
    omega
  · rw [if_neg h]
    rw [slt_iff_toInt_lt] at h
    omega

theorem toInt_signedMin (i j : BitVec 32) : (signedMin i j).toInt = min i.toInt j.toInt := by
  unfold signedMin
  by_cases h : j.slt i
  · rw [if_pos h]
    rw [slt_iff_toInt_lt] at h
    omega
  · rw [if_neg h]
    rw [slt_iff_toInt_lt] at h
    omega

/-- A side of a surface that is partly on the screen, and the part that `blit_surface` cuts out of it. -/
structure Clip (x w : BitVec 32) (n : Nat) : Prop where
  len_le : w.toNat ≤ 8192
  size_lt : n + 8192 < 2 ^ 31
  lt : x.toInt < n
  pos : 0 < x.toInt + w.toNat

namespace Clip

variable {x w : BitVec 32} {n : Nat}

theorem toInt_size (h : Clip x w n) : (BitVec.ofNat 32 n).toInt = n := by
  have := h.size_lt
  rw [toInt_eq_toNat_of_lt, toNat_ofNat]
  · omega
  · rw [toNat_ofNat]
    omega

theorem toInt_add (h : Clip x w n) {i : Nat} (hi : i ≤ w.toNat) : (x + BitVec.ofNat 32 i).toInt = x.toInt + i := by
  have hlen := h.len_le
  have hsize := h.size_lt
  have hlt := h.lt
  have hpos := h.pos
  have hint : (BitVec.ofNat 32 i).toInt = i := by
    rw [toInt_eq_toNat_of_lt, toNat_ofNat]
    · omega
    · rw [toNat_ofNat]
      omega
  rw [BitVec.toInt_add, hint, Int.bmod_eq_of_le]
  · omega
  · omega

theorem start_eq (_ : Clip x w n) : (asUsize (signedMax x 0) : Int) = max x.toInt 0 := by
  have hzero : (0 : BitVec 32).toInt = 0 := by decide
  have hmax := toInt_signedMax x 0
  rw [asUsize_of_nonneg (by omega), hmax, hzero]

section

variable (h : Clip x w n)
include h

theorem stop_eq :
    (asUsize (signedMin (x + w) (BitVec.ofNat 32 n)) : Int) = min (x.toInt + w.toNat) n := by
  have hmin := toInt_signedMin (x + w) (BitVec.ofNat 32 n)
  have hadd := h.toInt_add (Nat.le_refl w.toNat)
  rw [ofNat_toNat, setWidth_eq] at hadd
  have hpos := h.pos
  rw [hadd, h.toInt_size] at hmin
  rw [asUsize_of_nonneg (by omega), hmin]

theorem source_eq : ((if x.slt 0 then asUsize (-x) else 0 : Nat) : Int) = max (-x.toInt) 0 := by
  have hzero : (0 : BitVec 32).toInt = 0 := by decide
  have hlen := h.len_le
  have hpos := h.pos
  by_cases hx : x.slt 0
  · have hlt := hx
    rw [slt_iff_toInt_lt, hzero] at hlt
    have hneg : (-x).toInt = -x.toInt := by
      rw [toInt_neg, Int.bmod_eq_of_le]
      · omega
      · omega
    rw [if_pos hx, asUsize_of_nonneg (by omega), hneg]
    omega
  · grind [slt_iff_toInt_lt]

theorem outside_iff {i : Nat} (hi : i ≤ w.toNat) :
    ((x + BitVec.ofNat 32 i).slt 0 ∨ (BitVec.ofNat 32 n).sle (x + BitVec.ofNat 32 i)) ↔
      ¬(0 ≤ x.toInt + i ∧ x.toInt + i < n) := by
  have hzero : (0 : BitVec 32).toInt = 0 := by decide
  rw [slt_iff_toInt_lt, sle_iff_toInt_le, h.toInt_add hi, h.toInt_size, hzero]
  omega

theorem asUsize_add {i : Nat} (hi : i ≤ w.toNat) (hpos : 0 ≤ x.toInt + i) :
    (asUsize (x + BitVec.ofNat 32 i) : Int) = x.toInt + i := by
  have hadd := h.toInt_add hi
  rw [asUsize_of_nonneg (by omega), hadd]

end

end Clip

/-- The surface is partly on the screen. -/
structure Surface.OnScreen (s : Surface) (screen : Screen) : Prop where
  x_lt : s.x.toInt < screen.width
  x_pos : 0 < s.x.toInt + s.width.toNat
  y_lt : s.y.toInt < screen.height
  y_pos : 0 < s.y.toInt + s.height.toNat

instance (s : Surface) (screen : Screen) : Decidable (s.OnScreen screen) :=
  decidable_of_iff
    ((s.x.toInt < screen.width ∧ 0 < s.x.toInt + s.width.toNat) ∧
      s.y.toInt < screen.height ∧ 0 < s.y.toInt + s.height.toNat)
    ⟨fun h => ⟨h.1.1, h.1.2, h.2.1, h.2.2⟩, fun h => ⟨⟨h.x_lt, h.x_pos⟩, h.y_lt, h.y_pos⟩⟩

namespace Surface.OnScreen

variable {s : Surface} {screen : Screen}

theorem clipX (h : s.OnScreen screen) : Clip s.x s.width screen.width := ⟨s.width_le, screen.width_lt, h.x_lt, h.x_pos⟩

theorem clipY (h : s.OnScreen screen) : Clip s.y s.height screen.height :=
  ⟨s.height_le, screen.height_lt, h.y_lt, h.y_pos⟩

end Surface.OnScreen

/-! ### What is drawn of a surface -/

namespace Surface

/-- The rectangle is a part of the surface, or empty. -/
structure Holds (s : Surface) (rect : DirtyRect) : Prop where
  right_le : (rect.x + rect.width).toNat ≤ s.width.toNat
  bottom_le : (rect.y + rect.height).toNat ≤ s.height.toNat

def RectCovers (s : Surface) (rect : DirtyRect) (x y : Nat) : Prop :=
  (s.x.toInt + rect.x.toNat ≤ x ∧ (x : Int) < s.x.toInt + (rect.x + rect.width).toNat) ∧
    s.y.toInt + rect.y.toNat ≤ y ∧ (y : Int) < s.y.toInt + (rect.y + rect.height).toNat

instance (s : Surface) (rect : DirtyRect) (x y : Nat) : Decidable (s.RectCovers rect x y) :=
  inferInstanceAs (Decidable (_ ∧ _))

def paintRect (s : Surface) (x y : Nat) (c : Color) (rect : DirtyRect) : Color :=
  if s.RectCovers rect x y then (s.texelAt x y).over c else c

/-- Put the dirty rectangles over the colour, one after the other, or the whole surface if there are none. -/
def retouch (s : Surface) (x y : Nat) (c : Color) : Color :=
  if s.dirtyRects.isEmpty then s.paint x y c else s.dirtyRects.foldl (s.paintRect x y) c

end Surface

/-! ### Whole surfaces -/

variable {c : Compositor} {s : Surface} {x y : Nat} {color : Color}

namespace Compositor

def pixel (c : Compositor) (x y : Nat) : BitVec 32 := c.backBuffer (y * c.screen.width + x)

theorem blitSurface_apply (hs : s.OnScreen c.screen) (hx : x < c.screen.width) (hy : y < c.screen.height)
    (hc : c.pixel x y = color.word) : (c.blitSurface s).pixel x y = (s.paint x y color).word := by
  have hstaX := hs.clipX.start_eq
  have hstoX := hs.clipX.stop_eq
  have hsrcX := hs.clipX.source_eq
  have hstaY := hs.clipY.start_eq
  have hstoY := hs.clipY.stop_eq
  have hsrcY := hs.clipY.source_eq
  obtain ⟨hltX, hposX, hltY, hposY⟩ := hs
  have hw := s.width_pos
  have hh := s.height_pos
  unfold blitSurface pixel at *
  generalize asUsize (signedMax s.x 0) = startX at hstaX ⊢
  generalize asUsize (signedMax s.y 0) = startY at hstaY ⊢
  generalize asUsize (signedMin (s.x + s.width) (BitVec.ofNat 32 c.screen.width)) = endX at hstoX ⊢
  generalize asUsize (signedMin (s.y + s.height) (BitVec.ofNat 32 c.screen.height)) = endY at hstoY ⊢
  generalize (if s.x.slt 0 then asUsize (-s.x) else 0) = srcX at hsrcX ⊢
  generalize (if s.y.slt 0 then asUsize (-s.y) else 0) = srcY at hsrcY ⊢
  have hn : ¬(startX ≥ endX ∨ startY ≥ endY) := by omega
  rw [if_neg hn]
  refine (foldl_rect_apply (fun row col =>
    s.blitColor (((srcY + row) * s.width.toNat + (srcX + col)) * s.format.bytesPerPixel)) c.backBuffer
    (show endX ≤ c.screen.width by omega) hx).trans ?_
  rw [hc]
  unfold Surface.paint
  by_cases hcov : s.Covers x y
  · have hin : (startX ≤ x ∧ x < endX) ∧ startY ≤ y ∧ y < endY := by
      unfold Surface.Covers at hcov
      omega
    have hrow : srcY + (y - startY) = (y - s.y.toInt).toNat := by
      omega
    have hcol : srcX + (x - startX) = (x - s.x.toInt).toNat := by
      omega
    rw [if_pos hin, if_pos hcov, hrow, hcol, Surface.blitColor_word]
    rfl
  · grind [Surface.Covers]

/-! ### Rectangles -/

def regionCell (c : Compositor) (s : Surface) (i : Nat × Nat) : Option Nat :=
  if (s.y + BitVec.ofNat 32 i.1).slt 0 ∨ (BitVec.ofNat 32 c.screen.height).sle (s.y + BitVec.ofNat 32 i.1) then none
  else if (s.x + BitVec.ofNat 32 i.2).slt 0 ∨ (BitVec.ofNat 32 c.screen.width).sle (s.x + BitVec.ofNat 32 i.2) then none
  else some (asUsize (s.y + BitVec.ofNat 32 i.1) * c.screen.width + asUsize (s.x + BitVec.ofNat 32 i.2))

def regionChange (s : Surface) (i : Nat × Nat) : BitVec 32 → BitVec 32 :=
  s.regionColor ((BitVec.ofNat 32 i.1 * s.width + BitVec.ofNat 32 i.2).toNat * s.format.bytesPerPixel)

def regionPlaces (rect : DirtyRect) : List (Nat × Nat) :=
  List.range' rect.y.toNat ((rect.y + rect.height).toNat - rect.y.toNat) ×ˢ
    List.range' rect.x.toNat ((rect.x + rect.width).toNat - rect.x.toNat)

theorem blitRegion_eq (c : Compositor) (s : Surface) (rect : DirtyRect) :
    c.blitRegion s rect =
      { c with backBuffer := draw (regionCell c s) (regionChange s) c.backBuffer (regionPlaces rect) } := by
  unfold blitRegion draw regionPlaces
  rw [foldl_product]
  congr 2
  funext buffer row
  by_cases hrow : (s.y + BitVec.ofNat 32 row).slt 0 ∨ (BitVec.ofNat 32 c.screen.height).sle (s.y + BitVec.ofNat 32 row)
  · rw [if_pos hrow]
    -- a row that is not on the screen is a row of places without a cell
    have hnone : draw (fun col => regionCell c s (row, col)) (fun col => regionChange s (row, col)) buffer
        (List.range' rect.x.toNat ((rect.x + rect.width).toNat - rect.x.toNat)) = buffer :=
      draw_of_forall_none fun col _ => if_pos hrow
    exact hnone.symm
  · rw [if_neg hrow]
    congr 1
    funext buffer col
    unfold dot regionCell
    rw [if_neg hrow]
    by_cases hcol : (s.x + BitVec.ofNat 32 col).slt 0 ∨ (BitVec.ofNat 32 c.screen.width).sle (s.x + BitVec.ofNat 32 col)
    · rw [if_pos hcol, if_pos hcol]
    · rw [if_neg hcol, if_neg hcol]
      rfl

theorem mem_regionPlaces {rect : DirtyRect} {i : Nat × Nat} :
    i ∈ regionPlaces rect ↔
      (rect.y.toNat ≤ i.1 ∧ i.1 < (rect.y + rect.height).toNat) ∧ rect.x.toNat ≤ i.2 ∧ i.2 < (rect.x + rect.width).toNat := by
  grind [regionPlaces, List.mem_product, List.mem_range'_1]

theorem regionCell_eq_some (hs : s.OnScreen c.screen) (hx : x < c.screen.width) (hy : y < c.screen.height)
    {i : Nat × Nat} (hrow : i.1 ≤ s.height.toNat) (hcol : i.2 ≤ s.width.toNat) :
    regionCell c s i = some (y * c.screen.width + x) ↔ s.y.toInt + i.1 = y ∧ s.x.toInt + i.2 = x := by
  unfold regionCell
  simp only [hs.clipY.outside_iff hrow, hs.clipX.outside_iff hcol]
  by_cases hinY : 0 ≤ s.y.toInt + i.1 ∧ s.y.toInt + i.1 < c.screen.height
  · rw [if_neg (not_not.2 hinY)]
    by_cases hinX : 0 ≤ s.x.toInt + i.2 ∧ s.x.toInt + i.2 < c.screen.width
    · have huY := hs.clipY.asUsize_add hrow hinY.1
      have huX := hs.clipX.asUsize_add hcol hinX.1
      rw [if_neg (not_not.2 hinX), Option.some.injEq, cell_eq_iff (by omega) hx]
      omega
    · simp [hinX]
      omega
  · simp [hinY]
    omega

theorem toNat_offset {row col : Nat} (hrow : row < s.height.toNat) (hcol : col < s.width.toNat) :
    (BitVec.ofNat 32 row * s.width + BitVec.ofNat 32 col).toNat = row * s.width.toNat + col := by
  have hh := s.height_le
  have hw := s.width_le
  have hmul : row * s.width.toNat ≤ 8192 * 8192 := Nat.mul_le_mul (by omega) hw
  simp [toNat_add, toNat_mul, toNat_ofNat]
  omega

theorem blitRegion_apply {rect : DirtyRect} (hs : s.OnScreen c.screen) (hrect : s.Holds rect) (hx : x < c.screen.width)
    (hy : y < c.screen.height) (hc : c.pixel x y = color.word) :
    (c.blitRegion s rect).pixel x y = (s.paintRect x y color rect).word := by
  have hp : ∀ i ∈ regionPlaces rect,
      regionCell c s i = some (y * c.screen.width + x) ↔ s.y.toInt + i.1 = y ∧ s.x.toInt + i.2 = x := by
    intro i hi
    have hi' := mem_regionPlaces.1 hi
    exact regionCell_eq_some hs hx hy (by have := hrect.bottom_le; omega) (by have := hrect.right_le; omega)
  have hr := hrect.right_le
  have hb := hrect.bottom_le
  rw [blitRegion_eq]
  unfold pixel Surface.paintRect at *
  dsimp only
  by_cases hcov : s.RectCovers rect x y
  · rw [if_pos hcov]
    unfold Surface.RectCovers at hcov
    let i : Nat × Nat := ((y - s.y.toInt).toNat, (x - s.x.toInt).toNat)
    have hi : i ∈ regionPlaces rect := mem_regionPlaces.2 (by dsimp only [i]; omega)
    have hn : (regionPlaces rect).Nodup := (List.nodup_range' ..).product (List.nodup_range' ..)
    rw [draw_of_unique hn hi fun j hj => by rw [hp j hj, Prod.ext_iff]; dsimp only [i]; omega, hc]
    have hi' := mem_regionPlaces.1 hi
    unfold regionChange
    rw [Surface.regionColor_word, toNat_offset (by omega) (by omega)]
    rfl
  · rw [if_neg hcov, draw_of_forall_ne, hc]
    intro i hi h
    have hi' := mem_regionPlaces.1 hi
    grind [Surface.RectCovers]

/-! ### Surfaces -/

def Redrawn (c c' : Compositor) : Prop := ∃ buffer, c' = { c with backBuffer := buffer }

theorem Redrawn.refl (c : Compositor) : Redrawn c c := ⟨c.backBuffer, rfl⟩

theorem Redrawn.trans {c c' c'' : Compositor} (h : Redrawn c c') (h' : Redrawn c' c'') : Redrawn c c'' := by
  obtain ⟨buffer, rfl⟩ := h
  obtain ⟨buffer', rfl⟩ := h'
  exact ⟨buffer', rfl⟩

theorem Redrawn.screen_eq {c c' : Compositor} (h : Redrawn c c') : c'.screen = c.screen := by
  obtain ⟨buffer, rfl⟩ := h
  rfl

theorem redrawn_foldl {α : Type} {f : Compositor → α → Compositor} (hf : ∀ c a, Redrawn c (f c a)) (c : Compositor)
    (as : List α) : Redrawn c (as.foldl f c) := by
  induction as generalizing c with
  | nil => exact .refl c
  | cons a as ih => exact (hf c a).trans (ih (f c a))

theorem redrawn_blitSurface (c : Compositor) (s : Surface) : Redrawn c (c.blitSurface s) := by
  unfold blitSurface
  dsimp only
  split
  · exact .refl c
  · exact ⟨_, rfl⟩

theorem redrawn_compositeSurface (c : Compositor) (s : Surface) : Redrawn c (c.compositeSurface s) := by
  unfold compositeSurface
  split
  · exact .refl c
  split
  · exact redrawn_foldl (fun c rect => ⟨_, rfl⟩) c s.dirtyRects
  · exact redrawn_blitSurface c s

theorem foldl_blitRegion_apply {rects : List DirtyRect} (hs : s.OnScreen c.screen) (hre : ∀ rect ∈ rects, s.Holds rect)
    (hx : x < c.screen.width) (hy : y < c.screen.height) (hc : c.pixel x y = color.word) :
    (rects.foldl (fun c rect => c.blitRegion s rect) c).pixel x y = (rects.foldl (s.paintRect x y) color).word := by
  induction rects generalizing c color with
  | nil => exact hc
  | cons rect rects ih =>
    have hrect := blitRegion_apply hs (hre rect List.mem_cons_self) hx hy hc
    exact ih (c := c.blitRegion s rect) hs (fun r hr => hre r (List.mem_cons_of_mem rect hr)) hx hy hrect

theorem compositeSurface_apply (hs : s.OnScreen c.screen) (hv : s.visible = true)
    (hr : ∀ rect ∈ s.dirtyRects, s.Holds rect) (hx : x < c.screen.width) (hy : y < c.screen.height)
    (hc : c.pixel x y = color.word) : (c.compositeSurface s).pixel x y = (s.retouch x y color).word := by
  unfold compositeSurface Surface.retouch
  rw [hv]
  cases hem : s.dirtyRects.isEmpty with
  | true => exact blitSurface_apply hs hx hy hc
  | false => exact foldl_blitRegion_apply hs hr hx hy hc

end Compositor

end AstralOS.Graphics
