import AstralOS.Graphics.Blit
import AstralOS.Lib.Run

/-!
# Frames

What the framebuffer shows over whole runs.  Nothing adds damage and only the first frame is a full redraw, so the first
frame puts a picture on the screen (`Unseen.compositeFrame`), and it stays there (`Frozen.compositeFrame`).  The picture is
the composition of the surfaces, except that of a surface with dirty rectangles only these are drawn (`drawing`).  So the
screen shows the composition after each frame exactly if all compositions are equal to that first drawing
(`frames_show_composition_iff`).
-/

namespace AstralOS.Graphics

open List

/-! ### The frame that is drawn -/

def GraphicsServer.drawing (g : GraphicsServer) : Picture := fun x y =>
  (g.drawOrder.filter (·.visible)).foldl (fun c s => s.retouch x y c) .black

/-- A surface that has not been drawn yet. -/
structure Surface.Fresh (s : Surface) : Prop where
  dirty : s.dirty = true
  holds : ∀ rect ∈ s.dirtyRects, s.Holds rect

namespace Compositor

variable {c : Compositor} {x y : Nat} {color : Color}

def compositeDirty (c : Compositor) (s : Surface) : Compositor :=
  if s.visible && s.dirty then c.compositeSurface s else c

theorem redrawn_compositeDirty (c : Compositor) (s : Surface) : Redrawn c (c.compositeDirty s) := by
  unfold compositeDirty
  split
  · exact redrawn_compositeSurface c s
  · exact .refl c

theorem compositeDirty_apply {s : Surface} (hf : s.Fresh) (hon : s.visible = true → s.OnScreen c.screen)
    (hx : x < c.screen.width) (hy : y < c.screen.height) (hc : c.pixel x y = color.word) :
    (c.compositeDirty s).pixel x y = (if s.visible then s.retouch x y color else color).word := by
  unfold compositeDirty
  rw [hf.dirty, Bool.and_true]
  cases hv : s.visible with
  | false => exact hc
  | true => exact compositeSurface_apply (hon hv) hv hf.holds hx hy hc

theorem foldl_compositeDirty_apply {ss : List Surface} (hf : ∀ s ∈ ss, s.Fresh)
    (hon : ∀ s ∈ ss, s.visible = true → s.OnScreen c.screen) (hx : x < c.screen.width) (hy : y < c.screen.height)
    (hc : c.pixel x y = color.word) :
    (ss.foldl compositeDirty c).pixel x y =
      ((ss.filter (·.visible)).foldl (fun color s => s.retouch x y color) color).word := by
  rw [foldl_filter]
  induction ss generalizing c color with
  | nil => exact hc
  | cons s ss ih =>
    have hs := (redrawn_compositeDirty c s).screen_eq
    have hstep := compositeDirty_apply (hf s mem_cons_self) (hon s mem_cons_self) hx hy hc
    exact ih (c := c.compositeDirty s) (fun r hr => hf r (mem_cons_of_mem s hr))
      (fun r hr => hs ▸ hon r (mem_cons_of_mem s hr)) (hs ▸ hx) (hs ▸ hy) hstep

end Compositor

/-! ### The copy to the framebuffer -/

theorem copyWords_row {src dst : Buffer} {srcOffset width pitch row x y : Nat} (hw : width ≤ pitch) (hx : x < width) :
    copyWords src dst srcOffset (row * pitch) width (y * pitch + x) =
      if y = row then src (srcOffset + x) else dst (y * pitch + x) := by
  unfold copyWords
  rcases Nat.lt_trichotomy y row with h | rfl | h
  · have := Nat.mul_le_mul_right pitch (Nat.succ_le_of_lt h)
    rw [Nat.succ_mul] at this
    rw [if_neg (by omega), if_neg (by omega)]
  · rw [if_pos (by omega), if_pos rfl, Nat.add_sub_cancel_left]
  · have := Nat.mul_le_mul_right pitch (Nat.succ_le_of_lt h)
    rw [Nat.succ_mul] at this
    rw [if_neg (by omega), if_neg (by omega)]

theorem foldl_copyWords_apply {src dst : Buffer} {width pitch x : Nat} (hw : width ≤ pitch) (hx : x < width)
    (rows y : Nat) :
    (List.range rows).foldl (fun dst y => copyWords src dst (y * width) (y * pitch) width) dst (y * pitch + x) =
      if y < rows then src (y * width + x) else dst (y * pitch + x) := by
  induction rows with
  | zero => rfl
  | succ rows ih =>
    rw [range_succ, foldl_append, foldl_cons, foldl_nil, copyWords_row hw hx, ih]
    by_cases hy : y = rows
    · subst hy
      rw [if_pos rfl, if_pos (Nat.lt_succ_self y)]
    · rw [if_neg hy]
      by_cases hlt : y < rows
      · rw [if_pos hlt, if_pos (by omega)]
      · rw [if_neg hlt, if_neg (by omega)]

namespace Compositor

variable {c : Compositor} {x y : Nat}

theorem endFrame_fullRedraw (hfull : c.fullRedraw = true) (hx : x < c.screen.width) (hy : y < c.screen.height) :
    c.endFrame.framebuffer (y * c.screen.pitch + x) = c.pixel x y := by
  unfold endFrame
  rw [if_pos hfull]
  dsimp only
  rw [foldl_copyWords_apply c.screen.width_le hx, if_pos hy]
  rfl

theorem screen_endFrame (hfull : c.fullRedraw = true) : c.endFrame.screen = c.screen := by
  unfold endFrame
  rw [if_pos hfull]

theorem endFrame_idle (hfull : c.fullRedraw = false) (hd : c.damageRects = []) : c.endFrame = c := by
  unfold endFrame
  cases c
  cases hfull
  cases hd
  rfl

end Compositor

/-! ### The picture on the screen -/

/-- On the screen, the composition of the surfaces is the picture. -/
def GraphicsServer.ComposesTo (g : GraphicsServer) (screen : Screen) (picture : Picture) : Prop :=
  ∀ x < screen.width, ∀ y < screen.height, g.composition x y = picture x y

instance (g : GraphicsServer) (screen : Screen) (picture : Picture) : Decidable (g.ComposesTo screen picture) :=
  inferInstanceAs (Decidable (∀ x < screen.width, ∀ y < screen.height, _))

namespace Display

/-- No frame has been drawn yet. -/
structure Unseen (d : Display) : Prop where
  fullRedraw : d.compositor.fullRedraw = true
  fresh : ∀ s ∈ d.server.surfaces, s.Fresh

/-- A frame has been drawn, and the picture is on the screen. -/
structure Frozen (d : Display) (screen : Screen) (picture : Picture) : Prop where
  screen_eq : d.compositor.screen = screen
  fullRedraw : d.compositor.fullRedraw = false
  damageRects : d.compositor.damageRects = []
  framebuffer : ∀ x < screen.width, ∀ y < screen.height,
    d.compositor.framebuffer (y * screen.pitch + x) = (picture x y).word

def OnScreen (d : Display) : Prop := ∀ s ∈ d.server.surfaces, s.visible = true → s.OnScreen d.compositor.screen

def Shows (d : Display) : Prop :=
  ∀ x < d.compositor.screen.width, ∀ y < d.compositor.screen.height,
    d.compositor.framebuffer (y * d.compositor.screen.pitch + x) = (d.server.composition x y).word

instance (d : Display) : Decidable d.OnScreen := inferInstanceAs (Decidable (∀ s ∈ d.server.surfaces, _ → _))

instance (d : Display) : Decidable d.Shows :=
  inferInstanceAs (Decidable (∀ x < d.compositor.screen.width, ∀ y < d.compositor.screen.height, _))

variable {d : Display} {screen : Screen} {picture : Picture}

theorem Unseen.compositeFrame (h : d.Unseen) (hon : d.OnScreen) :
    d.compositeFrame.Frozen d.compositor.screen d.server.drawing := by
  have hb : d.compositor.beginFrame = { d.compositor with backBuffer := fun _ => 0xFF000000 } := if_pos h.fullRedraw
  have hmem : ∀ {s}, s ∈ d.server.drawOrder → s ∈ d.server.surfaces := mem_mergeSort.1
  obtain ⟨buffer, hd⟩ :=
    Compositor.redrawn_foldl Compositor.redrawn_compositeDirty d.compositor.beginFrame d.server.drawOrder
  have hp : ∀ x < d.compositor.screen.width, ∀ y < d.compositor.screen.height,
      (d.server.drawOrder.foldl Compositor.compositeDirty d.compositor.beginFrame).pixel x y =
        (d.server.drawing x y).word := by
    rw [hb]
    intro x hx y hy
    exact Compositor.foldl_compositeDirty_apply (fun s hs => h.fresh s (hmem hs)) (fun s hs => hon s (hmem hs)) hx hy
      Color.word_black.symm
  have hf : d.compositeFrame.compositor =
      (d.server.drawOrder.foldl Compositor.compositeDirty d.compositor.beginFrame).endFrame := rfl
  rw [hd, hb] at hp hf
  have hsc := Compositor.screen_endFrame (c := { d.compositor with backBuffer := buffer }) h.fullRedraw
  constructor
  · rw [hf]
    exact hsc
  · rfl
  · rfl
  · intro x hx y hy
    rw [hf, ← hp x hx y hy]
    exact Compositor.endFrame_fullRedraw (c := { d.compositor with backBuffer := buffer }) h.fullRedraw hx hy

theorem Frozen.compositeFrame (h : d.Frozen screen picture) : d.compositeFrame.Frozen screen picture := by
  have hb : d.compositor.beginFrame = d.compositor := by
    unfold Compositor.beginFrame
    rw [h.fullRedraw]
    rfl
  obtain ⟨buffer, hd⟩ :=
    Compositor.redrawn_foldl Compositor.redrawn_compositeDirty d.compositor.beginFrame d.server.drawOrder
  have hf : d.compositeFrame.compositor =
      (d.server.drawOrder.foldl Compositor.compositeDirty d.compositor.beginFrame).endFrame := rfl
  have hidle := Compositor.endFrame_idle (c := { d.compositor with backBuffer := buffer }) h.fullRedraw h.damageRects
  rw [hd, hb, hidle] at hf
  constructor
  · rw [hf]
    exact h.screen_eq
  · rw [hf]
    exact h.fullRedraw
  · rw [hf]
    exact h.damageRects
  · rw [hf]
    exact h.framebuffer

theorem Frozen.shows_iff (h : d.Frozen screen picture) : d.Shows ↔ d.server.ComposesTo screen picture := by
  unfold Shows
  rw [h.screen_eq]
  refine forall₂_congr fun x hx => forall₂_congr fun y hy => ?_
  rw [h.framebuffer x hx y hy]
  constructor
  · intro hword
    exact (Color.word_injective hword).symm
  · intro hc
    rw [hc]

end Display

/-! ### Surfaces between frames -/

namespace Surface

/-- Only pixels have changed. -/
structure Repainted (s s' : Surface) : Prop where
  width_eq : s'.width = s.width
  height_eq : s'.height = s.height
  dirty_eq : s'.dirty = s.dirty
  dirtyRects_eq : s'.dirtyRects = s.dirtyRects

theorem Repainted.refl (s : Surface) : Repainted s s := ⟨rfl, rfl, rfl, rfl⟩

theorem Repainted.trans {s s' s'' : Surface} (h : Repainted s s') (h' : Repainted s' s'') : Repainted s s'' :=
  ⟨h'.width_eq.trans h.width_eq, h'.height_eq.trans h.height_eq, h'.dirty_eq.trans h.dirty_eq,
    h'.dirtyRects_eq.trans h.dirtyRects_eq⟩

theorem repainted_foldl {α : Type} {f : Surface → α → Surface} (hf : ∀ s a, Repainted s (f s a)) (s : Surface)
    (as : List α) : Repainted s (as.foldl f s) := by
  induction as generalizing s with
  | nil => exact .refl s
  | cons a as ih => exact (hf s a).trans (ih (f s a))

theorem repainted_foldlM {α : Type} {f : Surface → α → Option Surface} (hf : ∀ s a, ∀ s' ∈ f s a, Repainted s s')
    {s s' : Surface} {as : List α} (h : as.foldlM f s = some s') : Repainted s s' := by
  induction as generalizing s with
  | nil =>
    cases h
    exact .refl _
  | cons a as ih =>
    obtain ⟨t, ht, hrest⟩ := Option.bind_eq_some_iff.1 h
    exact (hf s a t ht).trans (ih hrest)

theorem repainted_fillPixel (px py color : BitVec 32) (s : Surface) : Repainted s (s.fillPixel px py color) := by
  unfold fillPixel
  split
  · dsimp only
    split
    · exact ⟨rfl, rfl, rfl, rfl⟩
    · exact .refl s
  · exact .refl s

theorem repainted_copyRow {x y width row : BitVec 32} {data : List Byte} {s s' : Surface}
    (h : s.copyRow x y width data row = some s') : Repainted s s' := by
  unfold copyRow at h
  dsimp only at h
  split at h
  · cases h
    exact ⟨rfl, rfl, rfl, rfl⟩
  · cases h

namespace Fresh

variable {s s' : Surface}

theorem of_same (h : s.Fresh) (hw : s'.width = s.width) (hh : s'.height = s.height)
    (hre : s'.dirtyRects = s.dirtyRects) (hd : s'.dirty = true) : s'.Fresh where
  dirty := hd
  holds rect hrect := by
    obtain ⟨hri, hb⟩ := h.holds rect (hre ▸ hrect)
    exact ⟨hw ▸ hri, hh ▸ hb⟩

theorem updatePixels (h : s.Fresh) {data : List Byte} (hs : s.updatePixels data = .ok s') : s'.Fresh := by
  unfold Surface.updatePixels at hs
  split at hs
  · cases hs
  · cases hs
    exact h.of_same rfl rfl rfl rfl

theorem fillRect (h : s.Fresh) (x y w k color : BitVec 32) : (s.fillRect x y w k color).Fresh := by
  have hfill := repainted_foldl (fun (s : Surface) dy => repainted_foldl (fun (s : Surface) dx =>
    repainted_fillPixel (x + BitVec.ofNat 32 dx) (y + BitVec.ofNat 32 dy) color s) s (range w.toNat)) s
    (range k.toNat)
  exact h.of_same hfill.width_eq hfill.height_eq hfill.dirtyRects_eq rfl

theorem updateRegion (h : s.Fresh) {x y width height : BitVec 32} {data : List Byte}
    (hs : s.updateRegion x y width height data = some (.ok s')) : s'.Fresh := by
  unfold Surface.updateRegion at hs
  split at hs
  · cases hs
  rename_i hb
  split at hs
  · cases hs
  obtain ⟨t, ht, heq⟩ := Option.map_eq_some_iff.1 hs
  cases heq
  have hcopy := repainted_foldlM (fun s row s' h => repainted_copyRow h) ht
  have hf : t.Fresh := h.of_same hcopy.width_eq hcopy.height_eq hcopy.dirtyRects_eq (hcopy.dirty_eq.trans h.dirty)
  refine ⟨rfl, fun rect hrect => ?_⟩
  rcases mem_append.1 hrect with hold | hnew
  · exact ⟨(hf.holds rect hold).right_le, (hf.holds rect hold).bottom_le⟩
  · cases mem_singleton.1 hnew
    rw [not_or, BitVec.not_lt, BitVec.not_lt, ← hcopy.width_eq, ← hcopy.height_eq] at hb
    exact ⟨hb.1, hb.2⟩

end Fresh

theorem fresh_new {id : BitVec 64} {width height : BitVec 32} {s : Surface} (hs : Surface.new id width height = .ok s) :
    s.Fresh := by
  unfold Surface.new at hs
  split at hs
  · cases hs
  split at hs
  · cases hs
  cases hs
  exact ⟨rfl, fun rect hrect => absurd hrect not_mem_nil⟩

end Surface

namespace GraphicsServer

variable {g : GraphicsServer} {P : Surface → Prop}

section

variable (h : ∀ s ∈ g.surfaces, P s)
include h

theorem forall_setSurface {s : Surface} (hs : P s) (id : BitVec 64) :
    ∀ r ∈ (g.setSurface id s).surfaces, P r := by
  unfold setSurface
  split
  · intro r hr
    rcases mem_or_eq_of_mem_set hr with hr | rfl
    · exact h r hr
    · exact hs
  · exact h

theorem of_getSurface {id : BitVec 64} {s : Surface} (hs : g.getSurface id = some s) : P s :=
  h s (mem_of_find?_eq_some hs)

theorem forall_modifySurface (id : BitVec 64) {f : Surface → Surface}
    (hf : ∀ s, P s → P (f s)) : ∀ s ∈ (g.modifySurface id f).surfaces, P s := by
  unfold modifySurface
  cases hs : g.getSurface id with
  | none => exact h
  | some s => exact forall_setSurface h (hf s (of_getSurface h hs)) id

end

theorem fresh_updateSurface {g' : GraphicsServer} {id : BitVec 64} {data : List Byte} (h : ∀ s ∈ g.surfaces, s.Fresh)
    (hg : g.updateSurface id data = .ok g') : ∀ s ∈ g'.surfaces, s.Fresh := by
  unfold updateSurface at hg
  cases hs : g.getSurface id with
  | none =>
    rw [hs] at hg
    cases hg
  | some s =>
    rw [hs] at hg
    dsimp only at hg
    cases hp : s.updatePixels data with
    | error e =>
      rw [hp] at hg
      cases hg
    | ok s' =>
      rw [hp] at hg
      cases hg
      have hf := (of_getSurface h hs).updatePixels hp
      refine forall_setSurface h ?_ id
      exact hf.of_same rfl rfl rfl rfl

theorem fresh_presentSurface {g' : GraphicsServer} {id : BitVec 64} (h : ∀ s ∈ g.surfaces, s.Fresh)
    (hg : g.presentSurface id = .ok g') : ∀ s ∈ g'.surfaces, s.Fresh := by
  unfold presentSurface at hg
  cases hs : g.getSurface id with
  | none =>
    rw [hs] at hg
    cases hg
  | some s =>
    rw [hs] at hg
    cases hg
    have hf := of_getSurface h hs
    refine forall_setSurface h ?_ id
    exact hf.of_same rfl rfl rfl hf.dirty

theorem pairwise_drawOrder (g : GraphicsServer) : g.drawOrder.Pairwise fun a b => decide (a.zOrder ≤ b.zOrder) := by
  refine pairwise_mergeSort (fun a b c hab hbc => ?_) (fun a b => ?_) g.surfaces
  · rw [decide_eq_true_eq] at hab hbc ⊢
    exact Int.le_trans hab hbc
  · simp [Bool.or_eq_true, decide_eq_true_eq]
    omega

theorem composition_compositeFrame (g : GraphicsServer) : g.compositeFrame.composition = g.composition := by
  let drawn : Surface → Surface := fun s => if s.visible && s.dirty then s.clearDirty else s
  have hd : ∀ s, drawn s = s.clearDirty ∨ drawn s = s := fun s => ite_eq_or_eq _ _ _
  have hv : ∀ s, (drawn s).visible = s.visible := by
    intro s
    rcases hd s with h | h
    · rw [h]
      rfl
    · rw [h]
  have hzO : ∀ s, (drawn s).zOrder = s.zOrder := by
    intro s
    rcases hd s with h | h
    · rw [h]
      rfl
    · rw [h]
  have hp : ∀ s x y c, (drawn s).paint x y c = s.paint x y c := by
    intro s x y c
    rcases hd s with h | h
    · rw [h]
      rfl
    · rw [h]
  have ho : g.compositeFrame.drawOrder = g.drawOrder.map drawn := by
    refine mergeSort_of_pairwise (pairwise_map.2 (g.pairwise_drawOrder.imp fun hab => ?_))
    rw [hzO, hzO]
    exact hab
  funext x y
  unfold composition
  rw [ho, filter_map, foldl_map]
  simp only [Function.comp_def, hv, hp]

end GraphicsServer

namespace Display

variable {d : Display} {screen : Screen} {picture : Picture} {call : DisplayCall}

theorem compositor_exec (hcall : call ≠ .compositeFrame) : (d.exec call).compositor = d.compositor := by
  cases call with
  | updateSurface _ _ | presentSurface _ =>
    unfold exec
    dsimp only
    split
    · rfl
    · rfl
  | compositeFrame => exact absurd rfl hcall
  | _ => rfl

theorem fresh_exec (h : ∀ s ∈ d.server.surfaces, s.Fresh) (hcall : call ≠ .compositeFrame) :
    ∀ s ∈ (d.exec call).server.surfaces, s.Fresh := by
  cases call with
  | createSurface width height =>
    unfold exec GraphicsServer.createSurface
    dsimp only
    split
    · exact h
    · rename_i surface hnew
      intro s hs
      rcases mem_append.1 hs with hold | hlast
      · exact h s hold
      · cases mem_singleton.1 hlast
        exact Surface.fresh_new hnew
  | destroySurface id => exact fun s hs => h s (mem_of_mem_filter hs)
  | updateSurface id data =>
    unfold exec
    dsimp only
    split
    · rename_i g hg
      exact GraphicsServer.fresh_updateSurface h hg
    · exact h
  | updateRegion id x y width height data =>
    refine GraphicsServer.forall_modifySurface h id fun s hs => ?_
    split
    · rename_i s' hr
      exact hs.updateRegion hr
    · exact hs
  | clear id _ | setPosition id _ _ | setZOrder id _ | setVisible id _ =>
    exact GraphicsServer.forall_modifySurface h id fun s hs => hs.of_same rfl rfl rfl rfl
  | fillRect id x y w k color => exact GraphicsServer.forall_modifySurface h id fun s hs => hs.fillRect x y w k color
  | presentSurface id =>
    unfold exec
    dsimp only
    split
    · rename_i g hg
      exact GraphicsServer.fresh_presentSurface h hg
    · exact h
  | compositeFrame => exact absurd rfl hcall

theorem Unseen.exec (h : d.Unseen) (hcall : call ≠ .compositeFrame) : (d.exec call).Unseen where
  fullRedraw := by
    rw [compositor_exec hcall]
    exact h.fullRedraw
  fresh := fresh_exec h.fresh hcall

theorem Frozen.exec (h : d.Frozen screen picture) (call : DisplayCall) : (d.exec call).Frozen screen picture := by
  by_cases hcall : call = .compositeFrame
  · rw [hcall]
    exact h.compositeFrame
  · obtain ⟨hs, hfull, hd, hf⟩ := h
    rw [← compositor_exec hcall] at hs hfull hd hf
    exact ⟨hs, hfull, hd, hf⟩

/-! ### Runs -/

def FramesOnScreen (d : Display) (call : DisplayCall) : Prop := call = .compositeFrame → d.OnScreen

def FramesShow (d : Display) (call : DisplayCall) : Prop := call = .compositeFrame → (d.exec call).Shows

instance (d : Display) (call : DisplayCall) : Decidable (d.FramesOnScreen call) :=
  inferInstanceAs (Decidable (_ → _))

instance (d : Display) (call : DisplayCall) : Decidable (d.FramesShow call) := inferInstanceAs (Decidable (_ → _))

def frames (d : Display) : List DisplayCall → List GraphicsServer
  | [] => []
  | .compositeFrame :: calls => d.server :: frames d.compositeFrame calls
  | call :: calls => frames (d.exec call) calls

theorem frames_cons (d : Display) {call : DisplayCall} (hcall : call ≠ .compositeFrame) (calls : List DisplayCall) :
    d.frames (call :: calls) = (d.exec call).frames calls := by
  cases call with
  | compositeFrame => exact absurd rfl hcall
  | _ => rfl

theorem frames_frame (d : Display) (calls : List DisplayCall) :
    d.frames (.compositeFrame :: calls) = d.server :: d.compositeFrame.frames calls := rfl

theorem Frozen.compositeFrame_shows_iff (h : d.compositeFrame.Frozen screen picture) :
    d.compositeFrame.Shows ↔ d.server.ComposesTo screen picture := by
  have hc : d.compositeFrame.server.composition = d.server.composition := d.server.composition_compositeFrame
  rw [h.shows_iff, GraphicsServer.ComposesTo, hc]
  rfl

theorem meets_framesShow_frame (h : d.compositeFrame.Frozen screen picture) {calls : List DisplayCall}
    (hrest : Meets exec FramesShow d.compositeFrame calls ↔
      ∀ g ∈ d.compositeFrame.frames calls, g.ComposesTo screen picture) :
    Meets exec FramesShow d (.compositeFrame :: calls) ↔
      ∀ g ∈ d.frames (.compositeFrame :: calls), g.ComposesTo screen picture := by
  rw [frames_frame, forall_mem_cons]
  exact and_congr ((forall_prop_of_true rfl).trans h.compositeFrame_shows_iff) hrest

theorem framesShow_iff_of_frozen (h : d.Frozen screen picture) (calls : List DisplayCall) :
    Meets exec FramesShow d calls ↔ ∀ g ∈ d.frames calls, g.ComposesTo screen picture := by
  induction calls generalizing d with
  | nil => exact iff_of_true trivial fun g hg => absurd hg not_mem_nil
  | cons call calls ih =>
    by_cases hcall : call = .compositeFrame
    · subst hcall
      exact meets_framesShow_frame h.compositeFrame (ih h.compositeFrame)
    · rw [frames_cons d hcall]
      exact (and_iff_right fun h => absurd h hcall).trans (ih (h.exec call))

theorem framesShow_iff_of_unseen (h : d.Unseen) {calls : List DisplayCall} (hon : Meets exec FramesOnScreen d calls) :
    Meets exec FramesShow d calls ↔
      ∀ first ∈ (d.frames calls).head?, ∀ g ∈ d.frames calls, g.ComposesTo d.compositor.screen first.drawing := by
  induction calls generalizing d with
  | nil => exact iff_of_true trivial fun first hfi => absurd hfi (Option.not_mem_none first)
  | cons call calls ih =>
    by_cases hcall : call = .compositeFrame
    · subst hcall
      have hfr := h.compositeFrame (hon.1 rfl)
      have hm := meets_framesShow_frame hfr (framesShow_iff_of_frozen hfr calls)
      refine hm.trans ⟨fun hall first hfi => ?_, fun hall => hall d.server rfl⟩
      cases hfi
      exact hall
    · rw [frames_cons d hcall, ← compositor_exec hcall]
      exact (and_iff_right fun h => absurd h hcall).trans (ih (h.exec hcall) hon.2)

theorem unseen_new (screen : Screen) (framebuffer : Buffer) : (new screen framebuffer).Unseen :=
  ⟨rfl, fun _ hs => absurd hs not_mem_nil⟩

/-- The screen shows the composition after every frame if and only if all compositions are what the first frame drew. -/
theorem frames_show_composition_iff (screen : Screen) (framebuffer : Buffer) {calls : List DisplayCall}
    (hon : Meets exec FramesOnScreen (new screen framebuffer) calls) :
    Meets exec FramesShow (new screen framebuffer) calls ↔
      ∀ first ∈ ((new screen framebuffer).frames calls).head?, ∀ g ∈ (new screen framebuffer).frames calls,
        g.ComposesTo screen first.drawing :=
  framesShow_iff_of_unseen (unseen_new screen framebuffer) hon

def onePixel : Screen where
  width := 1
  height := 1
  pitch := 1
  width_lt := by decide
  height_lt := by decide
  width_le := by decide

theorem frames_show_composition_iff_onePixel :
    Meets exec FramesShow (new onePixel fun _ => 0)
      [.createSurface 1 1, .updateSurface 1 [255, 0, 0, 255], .compositeFrame, .setZOrder 1 5, .compositeFrame] :=
  (frames_show_composition_iff onePixel _ (by decide +kernel)).2 (by decide +kernel)

/-- A surface that is changed after the first frame: the screen stays black. -/
theorem changed_surface_not_shown :
    Meets exec FramesOnScreen (new onePixel fun _ => 0)
        [.createSurface 1 1, .compositeFrame, .updateSurface 1 [255, 0, 0, 255], .compositeFrame] ∧
      ¬ Meets exec FramesShow (new onePixel fun _ => 0)
        [.createSurface 1 1, .compositeFrame, .updateSurface 1 [255, 0, 0, 255], .compositeFrame] := by
  decide +kernel

end Display

end AstralOS.Graphics
