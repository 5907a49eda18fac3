import AstralOS.Graphics.Surface

/-!
# The compositor

The model of `graphics/compositor.rs` and of the functions of `graphics/surface.rs` and `graphics/mod.rs` that change what
is to be drawn.  Surfaces are drawn into a back buffer, and the end of a frame copies it to the framebuffer: all of it in a
full redraw, otherwise the damaged rectangles.  `Compositor::new` always makes a back buffer.  Screen coordinates are
signed words of 32 bits, and a conversion to `usize` extends their sign.
-/

namespace AstralOS.Graphics

/-! ### Changing a surface -/

namespace Surface

/-- Copy one row of a region (the body of the loop in `update_region`); `none` when an index is out of range. -/
def copyRow (s : Surface) (x y width : BitVec 32) (data : List Byte) (row : BitVec 32) : Option Surface :=
  let bytesPerPixel := s.format.bytesPerPixel
  let srcOffset := (row * width).toNat * bytesPerPixel
  let dstOffset := ((y + row) * s.width + x).toNat * bytesPerPixel
  let rowSize := width.toNat * bytesPerPixel
  if h : dstOffset + rowSize ≤ s.pixels.length ∧ srcOffset + rowSize ≤ data.length then
    some
      { s with
        pixels := s.pixels.take dstOffset ++ (data.drop srcOffset).take rowSize ++ s.pixels.drop (dstOffset + rowSize)
        length_pixels := by
          rw [List.length_append, List.length_append, List.length_take, List.length_take, List.length_drop,
            List.length_drop, ← s.length_pixels]
          omega }
  else none

/-- Replace the pixels of a rectangle (`update_region`); `none` when the call panics. -/
def updateRegion (s : Surface) (x y width height : BitVec 32) (data : List Byte) : Option (Except String Surface) :=
  if x + width > s.width ∨ y + height > s.height then some (.error "Region out of bounds")
  else if data.length ≠ (width * height).toNat * s.format.bytesPerPixel then some (.error "Invalid pixel data size")
  else
    let copied := (List.range height.toNat).foldlM
      (fun (s : Surface) row => s.copyRow x y width data (BitVec.ofNat 32 row)) s
    copied.map fun s => .ok (markDirty { s with dirtyRects := s.dirtyRects ++ [⟨x, y, width, height⟩] })

def clearBytes (format : PixelFormat) (color : BitVec 32) : List Byte :=
  match format with
  | .rgba8888 => [color.extractLsb' 24 8, color.extractLsb' 16 8, color.extractLsb' 8 8, color.extractLsb' 0 8]
  | .bgra8888 => [color.extractLsb' 8 8, color.extractLsb' 16 8, color.extractLsb' 24 8, color.extractLsb' 0 8]
  | .rgb888 => [color.extractLsb' 16 8, color.extractLsb' 8 8, color.extractLsb' 0 8]

section

variable (s : Surface)

def clear (color : BitVec 32) : Surface :=
  { s with
    pixels := (List.replicate (s.width * s.height).toNat (clearBytes s.format color)).flatten
    length_pixels := by
      rw [List.length_flatten, List.map_replicate, List.sum_replicate_nat]
      cases s.format <;> rfl }.markDirty

def setPosition (x y : BitVec 32) : Surface := { s with x, y }.markDirty

def setZOrder (z : BitVec 32) : Surface := { s with zOrder := z.toInt }.markDirty

def setVisible (visible : Bool) : Surface := { s with visible }.markDirty

end

end Surface

/-! ### Pixels -/

def opaqueWord (r g b : BitVec 32) : BitVec 32 := ((0xFF : BitVec 32) <<< 24) ||| (r <<< 16) ||| (g <<< 8) ||| b

def blendPixel (srcR srcG srcB srcA dst : BitVec 32) : BitVec 32 :=
  if srcA = 255 then opaqueWord srcR srcG srcB
  else if srcA = 0 then dst
  else
    let dstR := (dst >>> 16) &&& 0xFF
    let dstG := (dst >>> 8) &&& 0xFF
    let dstB := dst &&& 0xFF
    let invAlpha := 255 - srcA
    let outR := (srcR * srcA + dstR * invAlpha) / 255
    let outG := (srcG * srcA + dstG * invAlpha) / 255
    let outB := (srcB * srcA + dstB * invAlpha) / 255
    opaqueWord outR outG outB

namespace Surface

def byte (s : Surface) (offset : Nat) : BitVec 32 := ((s.pixels[offset]?).getD 0).setWidth 32

/-- What `blit_surface` writes for a colour with alpha: transparent pixels are skipped, opaque ones copied. -/
def blitAlpha (r g b a dst : BitVec 32) : BitVec 32 :=
  if a = 0 then dst else if a = 255 then opaqueWord r g b else blendPixel r g b a dst

/-- The word that `blit_surface` leaves where `dst` was. -/
def blitColor (s : Surface) (offset : Nat) (dst : BitVec 32) : BitVec 32 :=
  match s.format with
  | .rgba8888 => blitAlpha (s.byte offset) (s.byte (offset + 1)) (s.byte (offset + 2)) (s.byte (offset + 3)) dst
  | .bgra8888 => blitAlpha (s.byte (offset + 2)) (s.byte (offset + 1)) (s.byte offset) (s.byte (offset + 3)) dst
  | .rgb888 => opaqueWord (s.byte offset) (s.byte (offset + 1)) (s.byte (offset + 2))

/-- The word that `blit_region` leaves where `dst` was. -/
def regionColor (s : Surface) (offset : Nat) (dst : BitVec 32) : BitVec 32 :=
  match s.format with
  | .rgba8888 => blendPixel (s.byte offset) (s.byte (offset + 1)) (s.byte (offset + 2)) (s.byte (offset + 3)) dst
  | .bgra8888 => blendPixel (s.byte (offset + 2)) (s.byte (offset + 1)) (s.byte offset) (s.byte (offset + 3)) dst
  | .rgb888 => opaqueWord (s.byte offset) (s.byte (offset + 1)) (s.byte (offset + 2))

end Surface

/-! ### The compositor -/

/-- The size of the screen, and the words from one row of the framebuffer to the next.  Screen coordinates and the far
edges of surfaces on the screen are `i32`. -/
structure Screen where
  width : Nat
  height : Nat
  pitch : Nat
  width_lt : width + 8192 < 2 ^ 31
  height_lt : height + 8192 < 2 ^ 31
  width_le : width ≤ pitch

abbrev Buffer := Nat → BitVec 32

structure DamageRect where
  x : BitVec 32
  y : BitVec 32
  width : BitVec 32
  height : BitVec 32
  deriving DecidableEq

/-- The compositor (`Compositor`), without its statistics. -/
structure Compositor where
  screen : Screen
  framebuffer : Buffer
  backBuffer : Buffer
  damageRects : List DamageRect
  fullRedraw : Bool

def asUsize (i : BitVec 32) : Nat := (i.signExtend 64).toNat

def signedMax (i j : BitVec 32) : BitVec 32 := if i.slt j then j else i
def signedMin (i j : BitVec 32) : BitVec 32 := if j.slt i then j else i

def copyWords (src dst : Buffer) (srcOffset dstOffset count : Nat) : Buffer := fun i =>
  if dstOffset ≤ i ∧ i < dstOffset + count then src (srcOffset + (i - dstOffset)) else dst i

namespace Compositor

def new (screen : Screen) (framebuffer : Buffer) : Compositor :=
  { screen, framebuffer, backBuffer := fun _ => 0, damageRects := [], fullRedraw := true }

section

variable (c : Compositor)

def beginFrame : Compositor := if c.fullRedraw then { c with backBuffer := fun _ => 0xFF000000 } else c

def copyDamage (rect : DamageRect) : Compositor :=
  let startY := asUsize (signedMax rect.y 0)
  let endY := asUsize (signedMin (rect.y + rect.height) (BitVec.ofNat 32 c.screen.height))
  let startX := asUsize (signedMax rect.x 0)
  let endX := asUsize (signedMin (rect.x + rect.width) (BitVec.ofNat 32 c.screen.width))
  { c with
    framebuffer := (List.range' startY (endY - startY)).foldl (fun framebuffer y =>
      copyWords c.backBuffer framebuffer (y * c.screen.width + startX) (y * c.screen.pitch + startX) (endX - startX))
      c.framebuffer }

def endFrame : Compositor :=
  let c :=
    if c.fullRedraw then
      { c with
        framebuffer := (List.range c.screen.height).foldl (fun framebuffer y =>
          copyWords c.backBuffer framebuffer (y * c.screen.width) (y * c.screen.pitch) c.screen.width) c.framebuffer }
    else c.damageRects.foldl copyDamage c
  { c with damageRects := [], fullRedraw := false }

def blitSurface (s : Surface) : Compositor :=
  let startX := asUsize (signedMax s.x 0)
  let startY := asUsize (signedMax s.y 0)
  let endX := asUsize (signedMin (s.x + s.width) (BitVec.ofNat 32 c.screen.width))
  let endY := asUsize (signedMin (s.y + s.height) (BitVec.ofNat 32 c.screen.height))
  if startX ≥ endX ∨ startY ≥ endY then c
  else
    let srcOffsetX := if s.x.slt 0 then asUsize (-s.x) else 0
    let srcOffsetY := if s.y.slt 0 then asUsize (-s.y) else 0
    { c with
      backBuffer := (List.range (endY - startY)).foldl (fun buffer row =>
        (List.range (endX - startX)).foldl (fun buffer col =>
          let srcOffset := ((srcOffsetY + row) * s.width.toNat + (srcOffsetX + col)) * s.format.bytesPerPixel
          let dstOffset := (startY + row) * c.screen.width + startX + col
          Function.update buffer dstOffset (s.blitColor srcOffset (buffer dstOffset))) buffer) c.backBuffer }

/-- Draw a rectangle of a surface (`blit_region`); what is not on the screen is skipped. -/
def blitRegion (s : Surface) (rect : DirtyRect) : Compositor :=
  { c with
    backBuffer := (List.range' rect.y.toNat ((rect.y + rect.height).toNat - rect.y.toNat)).foldl (fun buffer y =>
      let screenY := s.y + BitVec.ofNat 32 y
      if screenY.slt 0 ∨ (BitVec.ofNat 32 c.screen.height).sle screenY then buffer
      else
        (List.range' rect.x.toNat ((rect.x + rect.width).toNat - rect.x.toNat)).foldl (fun buffer x =>
          let screenX := s.x + BitVec.ofNat 32 x
          if screenX.slt 0 ∨ (BitVec.ofNat 32 c.screen.width).sle screenX then buffer
          else
            let srcOffset := (BitVec.ofNat 32 y * s.width + BitVec.ofNat 32 x).toNat * s.format.bytesPerPixel
            let dstOffset := asUsize screenY * c.screen.width + asUsize screenX
            Function.update buffer dstOffset (s.regionColor srcOffset (buffer dstOffset))) buffer) c.backBuffer }

/-- Draw the dirty rectangles of a surface, or all of it if it has none (`composite_surface`). -/
def compositeSurface (s : Surface) : Compositor :=
  if !s.visible then c
  else if !s.dirtyRects.isEmpty then s.dirtyRects.foldl (fun c rect => c.blitRegion s rect) c
  else c.blitSurface s

end

end Compositor

/-! ### The server with its compositor -/

def GraphicsServer.modifySurface (g : GraphicsServer) (id : BitVec 64) (f : Surface → Surface) : GraphicsServer :=
  match g.getSurface id with
  | some surface => g.setSurface id (f surface)
  | none => g

/-- The order in which surfaces are drawn: by z-order, and by age where that is the same. -/
def GraphicsServer.drawOrder (g : GraphicsServer) : List Surface :=
  g.surfaces.mergeSort fun a b => decide (a.zOrder ≤ b.zOrder)

/-- The graphics server with its compositor. -/
structure Display where
  server : GraphicsServer
  compositor : Compositor

/-- What may be done to surfaces and to the display. -/
inductive DisplayCall
  | createSurface (width height : BitVec 32)
  | destroySurface (id : BitVec 64)
  | updateSurface (id : BitVec 64) (data : List Byte)
  | updateRegion (id : BitVec 64) (x y width height : BitVec 32) (data : List Byte)
  | clear (id : BitVec 64) (color : BitVec 32)
  | fillRect (id : BitVec 64) (x y w h color : BitVec 32)
  | setPosition (id : BitVec 64) (x y : BitVec 32)
  | setZOrder (id : BitVec 64) (z : BitVec 32)
  | setVisible (id : BitVec 64) (visible : Bool)
  | presentSurface (id : BitVec 64)
  | compositeFrame
  deriving DecidableEq

namespace Display

def new (screen : Screen) (framebuffer : Buffer) : Display :=
  { server := { surfaces := [], nextSurfaceId := 1 }, compositor := .new screen framebuffer }

def compositeFrame (d : Display) : Display :=
  let c := d.server.drawOrder.foldl
    (fun c surface => if surface.visible && surface.dirty then c.compositeSurface surface else c) d.compositor.beginFrame
  { server := d.server.compositeFrame, compositor := c.endFrame }

/-- One call; one that fails changes nothing, except that the number of a surface is used up.  A panic, which stops the
kernel, also counts as no change. -/
def exec (d : Display) : DisplayCall → Display
  | .createSurface width height => { d with server := (d.server.createSurface width height).2 }
  | .destroySurface id => { d with server := d.server.destroySurface id }
  | .updateSurface id data =>
    match d.server.updateSurface id data with
    | .ok server => { d with server }
    | .error _ => d
  | .updateRegion id x y width height data =>
    { d with
      server := d.server.modifySurface id fun s =>
        match s.updateRegion x y width height data with
        | some (.ok s) => s
        | _ => s }
  | .clear id color => { d with server := d.server.modifySurface id (·.clear color) }
  | .fillRect id x y w h color => { d with server := d.server.modifySurface id (·.fillRect x y w h color) }
  | .setPosition id x y => { d with server := d.server.modifySurface id (·.setPosition x y) }
  | .setZOrder id z => { d with server := d.server.modifySurface id (·.setZOrder z) }
  | .setVisible id visible => { d with server := d.server.modifySurface id (·.setVisible visible) }
  | .presentSurface id =>
    match d.server.presentSurface id with
    | .ok server => { d with server }
    | .error _ => d
  | .compositeFrame => d.compositeFrame

end Display

end AstralOS.Graphics
