import AstralOS.Graphics.Compositor

/-!
# What the screen should show

The composition of surfaces as a painter makes it, pixel by pixel: start from black and put the visible surfaces over each
other from the lowest to the highest.  Colours are three bytes and always opaque; `Texel.over` puts a pixel of a surface
with its alpha over a colour.  The words of the compositor are these colours (`Color.word`), and its blending in 32 bits is
`Texel.over` (`blendPixel_word`).
-/

namespace AstralOS.Graphics

open BitVec

@[ext] structure Color where
  r : Byte
  g : Byte
  b : Byte
  deriving DecidableEq

/-- A pixel of a surface. -/
structure Texel where
  r : Byte
  g : Byte
  b : Byte
  a : Byte
  deriving DecidableEq

namespace Color

def black : Color := ⟨0, 0, 0⟩

def word (c : Color) : BitVec 32 := opaqueWord (c.r.setWidth 32) (c.g.setWidth 32) (c.b.setWidth 32)

end Color

/-- A channel of a pixel with alpha `a` over another. -/
def mixChannel (a src dst : Byte) : Byte :=
  BitVec.ofNat 8 ((src.toNat * a.toNat + dst.toNat * (255 - a.toNat)) / 255)

def Texel.over (t : Texel) (c : Color) : Color :=
  ⟨mixChannel t.a t.r c.r, mixChannel t.a t.g c.g, mixChannel t.a t.b c.b⟩

namespace Surface

def texel (s : Surface) (offset : Nat) : Texel :=
  let byte := fun i => (s.pixels[offset + i]?).getD 0
  match s.format with
  | .rgba8888 => ⟨byte 0, byte 1, byte 2, byte 3⟩
  | .bgra8888 => ⟨byte 2, byte 1, byte 0, byte 3⟩
  | .rgb888 => ⟨byte 0, byte 1, byte 2, 255⟩

def Covers (s : Surface) (x y : Nat) : Prop :=
  (s.x.toInt ≤ x ∧ (x : Int) < s.x.toInt + s.width.toNat) ∧ s.y.toInt ≤ y ∧ (y : Int) < s.y.toInt + s.height.toNat

instance (s : Surface) (x y : Nat) : Decidable (s.Covers x y) := inferInstanceAs (Decidable (_ ∧ _))

def texelAt (s : Surface) (x y : Nat) : Texel :=
  s.texel (((y - s.y.toInt).toNat * s.width.toNat + (x - s.x.toInt).toNat) * s.format.bytesPerPixel)

def paint (s : Surface) (x y : Nat) (c : Color) : Color := if s.Covers x y then (s.texelAt x y).over c else c

end Surface

abbrev Picture := Nat → Nat → Color

def GraphicsServer.composition (g : GraphicsServer) : Picture := fun x y =>
  (g.drawOrder.filter (·.visible)).foldl (fun c s => s.paint x y c) .black

/-! ### Words and colours -/

theorem toNat_opaqueWord {r g b : BitVec 32} (hr : r.toNat < 256) (hg : g.toNat < 256) (hb : b.toNat < 256) :
    (opaqueWord r g b).toNat = ((255 * 256 + r.toNat) * 256 + g.toNat) * 256 + b.toNat := by
  have hff : ((0xFF : BitVec 32) <<< 24).toNat = 255 <<< 8 <<< 8 <<< 8 := by decide
  have hr' : (r <<< 16).toNat = r.toNat <<< 8 <<< 8 := by
    rw [toNat_shiftLeft, ← Nat.shiftLeft_add, Nat.mod_eq_of_lt]
    omega
  have hg' : (g <<< 8).toNat = g.toNat <<< 8 := by
    rw [toNat_shiftLeft, Nat.mod_eq_of_lt]
    omega
  unfold opaqueWord
  rw [toNat_or, toNat_or, toNat_or, hff, hr', hg', ← Nat.shiftLeft_or_distrib,
    ← Nat.shiftLeft_or_distrib, ← Nat.shiftLeft_or_distrib, ← Nat.shiftLeft_add_eq_or_of_lt hb,
    ← Nat.shiftLeft_add_eq_or_of_lt hg, ← Nat.shiftLeft_add_eq_or_of_lt hr]
  simp only [Nat.shiftLeft_eq]

theorem toNat_setWidth_byte (b : Byte) : (b.setWidth 32).toNat = b.toNat :=
  toNat_setWidth_of_le (by decide)

theorem Color.toNat_word (c : Color) :
    c.word.toNat = ((255 * 256 + c.r.toNat) * 256 + c.g.toNat) * 256 + c.b.toNat := by
  have hlt : ∀ b : Byte, (b.setWidth 32).toNat < 256 := by
    intro b
    exact b.isLt
  unfold word
  rw [toNat_opaqueWord (hlt _) (hlt _) (hlt _), toNat_setWidth_byte, toNat_setWidth_byte, toNat_setWidth_byte]

theorem Color.word_injective {c d : Color} (h : c.word = d.word) : c = d := by
  have hn := congrArg BitVec.toNat h
  rw [c.toNat_word, d.toNat_word] at hn
  exact Color.ext (eq_of_toNat_eq (by omega)) (eq_of_toNat_eq (by omega))
    (eq_of_toNat_eq (by omega))

theorem Color.word_black : Color.black.word = 0xFF000000 := by decide

theorem toNat_and_ff (x : BitVec 32) : (x &&& 0xFF).toNat = x.toNat % 256 := by
  exact Nat.and_two_pow_sub_one_eq_mod _ 8

theorem Color.channels (c : Color) :
    (c.word >>> 16) &&& 0xFF = c.r.setWidth 32 ∧ (c.word >>> 8) &&& 0xFF = c.g.setWidth 32 ∧
      c.word &&& 0xFF = c.b.setWidth 32 := by
  have hw := c.toNat_word
  refine ⟨eq_of_toNat_eq ?_, eq_of_toNat_eq ?_, eq_of_toNat_eq ?_⟩
  · rw [toNat_and_ff, toNat_ushiftRight, Nat.shiftRight_eq_div_pow, hw, toNat_setWidth_byte]
    omega
  · rw [toNat_and_ff, toNat_ushiftRight, Nat.shiftRight_eq_div_pow, hw, toNat_setWidth_byte]
    omega
  · rw [toNat_and_ff, hw, toNat_setWidth_byte]
    omega

/-! ### Blending -/

theorem mix_le (a src dst : Byte) : src.toNat * a.toNat + dst.toNat * (255 - a.toNat) ≤ 255 * 255 := by
  have hsrc := Nat.mul_le_mul_right a.toNat (Nat.le_of_lt_succ src.isLt)
  have hdst := Nat.mul_le_mul_right (255 - a.toNat) (Nat.le_of_lt_succ dst.isLt)
  omega

theorem mixChannel_word (a src dst : Byte) :
    (src.setWidth 32 * a.setWidth 32 + dst.setWidth 32 * (255 - a.setWidth 32)) / 255 =
      (mixChannel a src dst).setWidth 32 := by
  have hle := mix_le a src dst
  have hinv : (255 - a.setWidth 32 : BitVec 32).toNat = 255 - a.toNat := by
    change (2 ^ 32 - a.toNat + 255) % 2 ^ 32 = _
    omega
  apply eq_of_toNat_eq
  rw [toNat_udiv, toNat_add, toNat_mul, toNat_mul, hinv, toNat_setWidth_byte,
    toNat_setWidth_byte, toNat_setWidth_byte, toNat_setWidth_byte, mixChannel, toNat_ofNat]
  change _ / 255 = _
  omega

theorem mixChannel_zero (src dst : Byte) : mixChannel 0 src dst = dst := by
  apply eq_of_toNat_eq
  change (src.toNat * 0 + dst.toNat * 255) / 255 % 256 = _
  omega

theorem mixChannel_full (src dst : Byte) : mixChannel 255 src dst = src := by
  apply eq_of_toNat_eq
  change (src.toNat * 255 + dst.toNat * 0) / 255 % 256 = _
  omega

theorem setWidth_byte_eq {a k : Byte} : a.setWidth 32 = k.setWidth 32 ↔ a = k := by
  constructor
  · intro h
    apply eq_of_toNat_eq
    have := congrArg BitVec.toNat h
    rwa [toNat_setWidth_byte, toNat_setWidth_byte] at this
  · rintro rfl
    rfl

theorem blendPixel_word (t : Texel) (c : Color) :
    blendPixel (t.r.setWidth 32) (t.g.setWidth 32) (t.b.setWidth 32) (t.a.setWidth 32) c.word = (t.over c).word := by
  obtain ⟨hr, hg, hb⟩ := c.channels
  unfold blendPixel
  by_cases hfull : t.a = 255
  · unfold Texel.over
    rw [hfull, mixChannel_full, mixChannel_full, mixChannel_full]
    rfl
  by_cases hzero : t.a = 0
  · rw [if_neg (by rw [hzero]; decide), if_pos (by rw [hzero]; rfl)]
    unfold Texel.over
    rw [hzero, mixChannel_zero, mixChannel_zero, mixChannel_zero]
  · have hfull' : t.a.setWidth 32 ≠ 255 := fun h => hfull (setWidth_byte_eq.1 h)
    have hzero' : t.a.setWidth 32 ≠ 0 := fun h => hzero (setWidth_byte_eq.1 h)
    rw [if_neg hfull', if_neg hzero']
    dsimp only
    rw [hr, hg, hb, mixChannel_word, mixChannel_word, mixChannel_word]
    rfl

theorem opaqueWord_word {t : Texel} (h : t.a = 255) (c : Color) :
    opaqueWord (t.r.setWidth 32) (t.g.setWidth 32) (t.b.setWidth 32) = (t.over c).word := by
  unfold Texel.over
  rw [h, mixChannel_full, mixChannel_full, mixChannel_full]
  rfl

theorem blitAlpha_eq (r g b a dst : BitVec 32) : Surface.blitAlpha r g b a dst = blendPixel r g b a dst := by
  unfold Surface.blitAlpha
  by_cases hzero : a = 0
  · subst hzero
    rfl
  by_cases hfull : a = 255
  · subst hfull
    rfl
  · rw [if_neg hzero, if_neg hfull]

namespace Surface

variable (s : Surface) (offset : Nat) (c : Color)

theorem regionColor_word : s.regionColor offset c.word = ((s.texel offset).over c).word := by
  unfold regionColor texel
  cases s.format with
  | rgba8888 | bgra8888 => exact blendPixel_word ⟨_, _, _, _⟩ c
  | rgb888 => exact opaqueWord_word (t := ⟨_, _, _, 255⟩) rfl c

theorem blitColor_word : s.blitColor offset c.word = ((s.texel offset).over c).word := by
  rw [← regionColor_word]
  unfold blitColor regionColor
  cases s.format with
  | rgba8888 | bgra8888 => exact blitAlpha_eq ..
  | rgb888 => rfl

end Surface

end AstralOS.Graphics
