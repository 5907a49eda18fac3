import AstralOS.Lib.Bytes

/-!
# Surfaces

The model of `graphics/surface.rs` and of the surface list of the graphics server (`graphics/mod.rs`).  A surface holds
one buffer of pixels, row by row; its size is fixed by the dimensions and the format, and the record carries that fact.
Here `compositeFrame` is what a frame does to the order of the surfaces and their dirty flags; the drawing is that of the
compositor.
-/

namespace AstralOS.Graphics

inductive PixelFormat
  | rgba8888
  | rgb888
  | bgra8888
  deriving DecidableEq

def PixelFormat.bytesPerPixel : PixelFormat → Nat
  | .rgba8888 | .bgra8888 => 4
  | .rgb888 => 3

structure DirtyRect where
  x : BitVec 32
  y : BitVec 32
  width : BitVec 32
  height : BitVec 32
  deriving DecidableEq

/-- A surface (`Surface`), with the facts that `Surface::new` and `resize` establish. -/
structure Surface where
  id : BitVec 64
  width : BitVec 32
  height : BitVec 32
  x : BitVec 32
  y : BitVec 32
  zOrder : Int
  visible : Bool
  format : PixelFormat
  pixels : List Byte
  dirty : Bool
  presentRequested : Bool
  dirtyRects : List DirtyRect
  width_pos : 0 < width.toNat
  width_le : width.toNat ≤ 8192
  height_pos : 0 < height.toNat
  height_le : height.toNat ≤ 8192
  length_pixels : pixels.length = (width * height).toNat * format.bytesPerPixel

namespace Surface

def new (id : BitVec 64) (width height : BitVec 32) : Except String Surface :=
  if hz : width = 0 ∨ height = 0 then .error "Invalid surface dimensions"
  else if hl : width.toNat > 8192 ∨ height.toNat > 8192 then .error "Surface too large"
  else
    .ok
      { id, width, height, x := 0, y := 0, zOrder := 0, visible := true, format := .rgba8888
        pixels := List.replicate ((width * height).toNat * PixelFormat.rgba8888.bytesPerPixel) 0
        dirty := true, presentRequested := false, dirtyRects := []
        width_pos := by
          rw [not_or] at hz
          exact Nat.pos_of_ne_zero fun h => hz.1 (BitVec.eq_of_toNat_eq h)
        width_le := by omega
        height_pos := by
          rw [not_or] at hz
          exact Nat.pos_of_ne_zero fun h => hz.2 (BitVec.eq_of_toNat_eq h)
        height_le := by omega
        length_pixels := List.length_replicate }

section

variable (s : Surface)

def markDirty : Surface := { s with dirty := true }

def clearDirty : Surface := { s with dirty := false, dirtyRects := [] }

def expectedSize : Nat := (s.width * s.height).toNat * s.format.bytesPerPixel

def updatePixels (data : List Byte) : Except String Surface :=
  if h : data.length ≠ s.expectedSize then .error "Invalid pixel data size"
  else .ok { s with pixels := data, length_pixels := not_not.1 h }.markDirty

end

/-- Set the bytes of one pixel, as `sys_graphics_fill_rect` does; a pixel outside the surface or the buffer is left
out.  The sums and the product are 32 bits wide. -/
def fillPixel (s : Surface) (px py color : BitVec 32) : Surface :=
  if px < s.width ∧ py < s.height then
    let offset := (py * s.width + px).toNat * s.format.bytesPerPixel
    if offset + 3 < s.pixels.length then
      { s with
        pixels := (((s.pixels.set offset (color.extractLsb' 24 8)).set (offset + 1) (color.extractLsb' 16 8)).set
          (offset + 2) (color.extractLsb' 8 8)).set (offset + 3) (color.extractLsb' 0 8)
        length_pixels := by
          rw [List.length_set, List.length_set, List.length_set, List.length_set]
          exact s.length_pixels }
    else s
  else s

/-- Fill a rectangle, row by row: the loops of `sys_graphics_fill_rect`. -/
def fillRect (s : Surface) (x y w h color : BitVec 32) : Surface :=
  ((List.range h.toNat).foldl (fun s dy =>
    (List.range w.toNat).foldl (fun s dx =>
      s.fillPixel (x + BitVec.ofNat 32 dx) (y + BitVec.ofNat 32 dy) color) s) s).markDirty

end Surface

/-! ### The server -/

/-- The graphics server (`GraphicsServer`) without its compositor. -/
structure GraphicsServer where
  surfaces : List Surface
  nextSurfaceId : BitVec 64

namespace GraphicsServer

section

variable (g : GraphicsServer)

/-- Create a surface; the number is used up even when it fails (`create_surface`). -/
def createSurface (width height : BitVec 32) : Except String (BitVec 64) × GraphicsServer :=
  let id := g.nextSurfaceId
  let g := { g with nextSurfaceId := g.nextSurfaceId + 1 }
  match Surface.new id width height with
  | .error e => (.error e, g)
  | .ok surface => (.ok id, { g with surfaces := g.surfaces ++ [surface] })

def destroySurface (id : BitVec 64) : GraphicsServer :=
  { g with surfaces := g.surfaces.filter (·.id != id) }

def getSurface (id : BitVec 64) : Option Surface := g.surfaces.find? (·.id == id)

def setSurface (id : BitVec 64) (surface : Surface) : GraphicsServer :=
  match g.surfaces.findIdx? (·.id == id) with
  | some i => { g with surfaces := g.surfaces.set i surface }
  | none => g

def updateSurface (id : BitVec 64) (data : List Byte) : Except String GraphicsServer :=
  match g.getSurface id with
  | none => .error "Surface not found"
  | some surface => (surface.updatePixels data).map fun surface => g.setSurface id surface.markDirty

def presentSurface (id : BitVec 64) : Except String GraphicsServer :=
  match g.getSurface id with
  | none => .error "Surface not found"
  | some surface => .ok (g.setSurface id { surface with presentRequested := true })

/-- Draw the surfaces in the order of their z-order (`composite_frame`). -/
def compositeFrame : GraphicsServer :=
  { g with
    surfaces := (g.surfaces.mergeSort fun a b => decide (a.zOrder ≤ b.zOrder)).map fun surface =>
      if surface.visible && surface.dirty then surface.clearDirty else surface }

end

end GraphicsServer

end AstralOS.Graphics
