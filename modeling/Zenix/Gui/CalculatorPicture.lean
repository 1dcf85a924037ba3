import Zenix.Apps.CalculatorText
import Zenix.Apps.CalculatorWindow
import Zenix.Drivers.VgaRect
import Zenix.Gui.Frame

/-!
# The picture of the calculator (kernel/apps/calculator/calculator_app.c, kernel/gui/color.c)

`calculator_draw` fills the window and draws the display and the buttons over it. The colours
come from a palette; the factor that darkens the shadows is a parameter, because it is
computed with floats.

Results:
1. `layer_calculatorDraw`: the layers of the calculator.
2. `calculatorCheckButton_iff`: a button is hit exactly where its rectangle is drawn.
3. `calculator_window`: in every run the window is on the screen, and what is drawn is in it.
4. `calculator_face`: what a click on the face of a button does, and what is displayed there.
-/

namespace Zenix
open ByteMemory Logged

/-! ## Colours -/

/-- `rgba_color_t`. -/
structure RgbaColor where
  r : Byte
  g : Byte
  b : Byte
  a : Byte

def COLOR_MD_RED : RgbaColor := ⟨244#8, 67#8, 54#8, 255#8⟩
def COLOR_MD_GREEN : RgbaColor := ⟨76#8, 175#8, 80#8, 255#8⟩
def COLOR_MD_ORANGE : RgbaColor := ⟨255#8, 152#8, 0#8, 255#8⟩
def COLOR_MD_GRAY_50 : RgbaColor := ⟨250#8, 250#8, 250#8, 255#8⟩
def COLOR_MD_GRAY_100 : RgbaColor := ⟨245#8, 245#8, 245#8, 255#8⟩
def COLOR_MD_GRAY_300 : RgbaColor := ⟨224#8, 224#8, 224#8, 255#8⟩
def COLOR_MD_GRAY_400 : RgbaColor := ⟨189#8, 189#8, 189#8, 255#8⟩
def COLOR_MD_GRAY_900 : RgbaColor := ⟨33#8, 33#8, 33#8, 255#8⟩
def COLOR_WHITE : RgbaColor := ⟨255#8, 255#8, 255#8, 255#8⟩
def COLOR_BLACK : RgbaColor := ⟨0#8, 0#8, 0#8, 255#8⟩

/-- "It's grayscale". -/
def grayToVga (intensity : Nat) : Byte :=
  if intensity < 32 then 0x00#8
  else if intensity < 96 then 0x08#8
  else if intensity < 160 then 0x07#8
  else if intensity < 224 then 0x38#8
  else 0x3F#8

/-- "Color mapping". -/
def hueToVga (r g b : Nat) : Byte :=
  let r5 := r * 5 / 255
  let g5 := g * 5 / 255
  let b5 := b * 5 / 255
  if 3 < r5 ∧ g5 < 2 ∧ b5 < 2 then 0x0C#8
  else if 3 < g5 ∧ r5 < 2 ∧ b5 < 2 then 0x02#8
  else if 3 < b5 ∧ r5 < 2 ∧ g5 < 2 then 0x09#8
  else if 3 < r5 ∧ 3 < g5 ∧ b5 < 2 then 0x0E#8
  else if 3 < r5 ∧ 3 < b5 ∧ g5 < 2 then 0x0D#8
  else if 3 < g5 ∧ 3 < b5 ∧ r5 < 2 then 0x0B#8
  -- "Default to closest match"
  else if r + g + b < 128 then 0x08#8
  else if r + g + b < 384 then 0x07#8
  else 0x38#8

def rgbaToVga (color : RgbaColor) : Byte :=
  let r := color.r.toNat
  let g := color.g.toNat
  let b := color.b.toNat
  if color.a.toNat < 128 then 0xFF#8
  else if r = 0 ∧ g = 0 ∧ b = 0 then 0x00#8
  else if 250 ≤ r ∧ 250 ≤ g ∧ 250 ≤ b then 0x3F#8
  else if 200 < r ∧ g < 120 ∧ b < 60 then 0x0C#8
  else if 100 < r ∧ r < 150 ∧ g < 60 ∧ 60 < b then 0x05#8
  else
    -- "Grayscale detection"
    let maxDiff := if g < r then r - g else g - r
    let diff2 := if b < r then r - b else b - r
    if maxDiff < 30 ∧ diff2 < 30 then grayToVga ((r + g + b) / 3) else hueToVga r g b

/-- `scale x` is `(uint8_t)(x * factor)`. -/
def rgbaDarken (scale : Byte → Byte) (color : RgbaColor) : RgbaColor :=
  ⟨scale color.r, scale color.g, scale color.b, color.a⟩

/-! ## Drawing -/

/-- The label and the colour of a button. -/
structure ButtonLook where
  button : Button
  label : List Byte
  color : RgbaColor

def buttonColors : List RgbaColor :=
  [COLOR_MD_GRAY_100, COLOR_MD_GRAY_100, COLOR_MD_GRAY_100, COLOR_MD_ORANGE,
    COLOR_MD_GRAY_100, COLOR_MD_GRAY_100, COLOR_MD_GRAY_100, COLOR_MD_ORANGE,
    COLOR_MD_GRAY_100, COLOR_MD_GRAY_100, COLOR_MD_GRAY_100, COLOR_MD_ORANGE,
    COLOR_MD_GRAY_100, COLOR_MD_GRAY_100, COLOR_MD_ORANGE, COLOR_MD_RED, COLOR_MD_GREEN]

/-- The rows of `buttons`. -/
def buttonLooks : List ButtonLook :=
  List.zipWith (fun b look => ⟨b, [look.1], look.2⟩) buttons (buttonLabels.zip buttonColors)

section Functions
variable {F : Type} (screenWidth : Word) (scale : Byte → Byte)
  (c : Calculator (CalculatorEntry F))

def vgaColor (color : RgbaColor) : Word := (rgbaToVga color).setWidth 32

def calculatorDrawButton (btn : ButtonLook) : Logged PixelCall Unit := do
  let x := c.x + btn.button.x
  let y := c.y + btn.button.y
  vgaFillRect (x + 2#32) (y + 2#32) btn.button.w btn.button.h (vgaColor (rgbaDarken scale btn.color))
  vgaFillRect x y btn.button.w btn.button.h (vgaColor btn.color)
  vgaDrawRect x y btn.button.w btn.button.h (vgaColor COLOR_MD_GRAY_400)
  -- "Center text"
  let textW := BitVec.ofNat 32 (8 * (btn.label.takeWhile fun ch => ch ≠ 0#8).length)
  let textX := x + (btn.button.w - textW) / 2#32
  let textY := y + 10#32
  let _ ← vgaDrawString screenWidth textX textY btn.label (vgaColor COLOR_MD_GRAY_900)

def calculatorDrawDisplay : Logged PixelCall Unit := do
  vgaFillRect (c.x + 10#32) (c.y + 10#32) 175#32 40#32 (vgaColor COLOR_WHITE)
  vgaDrawRect (c.x + 10#32) (c.y + 10#32) 175#32 40#32 (vgaColor COLOR_MD_GRAY_300)
  -- "Title bar for dragging (subtle)"
  vgaFillRect c.x c.y c.width 8#32 (vgaColor COLOR_MD_GRAY_100)
  -- "Close button (X)"
  vgaFillRect (c.x + c.width - 10#32) (c.y + 1#32) 8#32 6#32 (vgaColor COLOR_MD_RED)
  let _ ← vgaDrawString screenWidth (c.x + 15#32) (c.y + 25#32) c.entry.text (vgaColor COLOR_BLACK)

def calculatorDraw : Logged PixelCall Unit := do
  vgaFillRect c.x c.y c.width c.height (vgaColor COLOR_MD_GRAY_50)
  calculatorDrawDisplay screenWidth c
  buttonLooks.forM fun btn => calculatorDrawButton screenWidth scale c btn

end Functions

/-! ## Layers -/

section Layers
variable {F : Type} (screenWidth : Word) (scale : Byte → Byte)
  (c : Calculator (CalculatorEntry F))

/-- A button without its shadow, with the upper left corner at a point. -/
def faceLayer (x y : Word) (btn : ButtonLook) : Layer (Word × Word) Word :=
  Layer.stack
    [rectLayer x y btn.button.w btn.button.h (vgaColor btn.color),
      Layer.flat (fun p => OnOutline x y btn.button.w btn.button.h p.1 p.2)
        (vgaColor COLOR_MD_GRAY_400),
      textLayer screenWidth (x + (btn.button.w - 8#32) / 2#32) (y + 10#32) btn.label
        (vgaColor COLOR_MD_GRAY_900)]

def buttonLayer (x y : Word) (btn : ButtonLook) : Layer (Word × Word) Word :=
  (faceLayer screenWidth x y btn).overlay
    (rectLayer (x + 2#32) (y + 2#32) btn.button.w btn.button.h (vgaColor (rgbaDarken scale btn.color)))

def displayLayer : Layer (Word × Word) Word :=
  Layer.stack
    [rectLayer (c.x + 10#32) (c.y + 10#32) 175#32 40#32 (vgaColor COLOR_WHITE),
      Layer.flat (fun p => OnOutline (c.x + 10#32) (c.y + 10#32) 175#32 40#32 p.1 p.2)
        (vgaColor COLOR_MD_GRAY_300),
      rectLayer c.x c.y c.width 8#32 (vgaColor COLOR_MD_GRAY_100),
      rectLayer (c.x + c.width - 10#32) (c.y + 1#32) 8#32 6#32 (vgaColor COLOR_MD_RED),
      textLayer screenWidth (c.x + 15#32) (c.y + 25#32) c.entry.text (vgaColor COLOR_BLACK)]

def buttonsLayer : Layer (Word × Word) Word :=
  Layer.stack (buttonLooks.map fun btn =>
    buttonLayer screenWidth scale (c.x + btn.button.x) (c.y + btn.button.y) btn)

/-- Every label is one character. -/
theorem buttonLooks_label : ∀ btn ∈ buttonLooks, btn.label.length = 1 ∧ 0#8 ∉ btn.label := by decide

theorem layer_calculatorDrawButton {btn : ButtonLook} (hbtn : btn ∈ buttonLooks) :
    layer (calculatorDrawButton screenWidth scale c btn) =
      buttonLayer screenWidth scale (c.x + btn.button.x) (c.y + btn.button.y) btn := by
  obtain ⟨hlength, hnul⟩ := buttonLooks_label btn hbtn
  have htext : (btn.label.takeWhile fun ch => ch ≠ 0#8) = btn.label :=
    List.takeWhile_eq_self_iff.mpr fun ch hch => decide_eq_true fun heq => hnul (heq ▸ hch)
  unfold calculatorDrawButton buttonLayer faceLayer
  dsimp only
  rw [htext, hlength]
  simp only [layer_bind, layer_pure, layer_vgaFillRect, layer_vgaDrawRect,
    layer_vgaDrawString hnul, Layer.stack, Layer.empty_overlay, Layer.overlay_assoc, rectLayer,
    textLayer]

/-- The calculator: its window, the display and the buttons. -/
theorem layer_calculatorDraw :
    layer (calculatorDraw screenWidth scale c) =
      Layer.stack [rectLayer c.x c.y c.width c.height (vgaColor COLOR_MD_GRAY_50),
        displayLayer screenWidth c, buttonsLayer screenWidth scale c] := by
  have hnul : 0#8 ∉ c.entry.text := cstring_nul _ _
  have hdisplay : layer (calculatorDrawDisplay screenWidth c) = displayLayer screenWidth c := by
    unfold calculatorDrawDisplay displayLayer
    simp only [layer_bind, layer_pure, layer_vgaFillRect, layer_vgaDrawRect,
      layer_vgaDrawString hnul, Layer.stack, Layer.empty_overlay, rectLayer, textLayer]
  have hbuttons : layer (buttonLooks.forM fun btn => calculatorDrawButton screenWidth scale c btn) =
      buttonsLayer screenWidth scale c := by
    rw [layer_forM]
    exact congrArg Layer.stack (List.map_congr_left fun btn hbtn =>
      layer_calculatorDrawButton screenWidth scale c hbtn)
  unfold calculatorDraw
  simp only [layer_bind, hdisplay, hbuttons, layer_vgaFillRect, Layer.stack, Layer.empty_overlay,
    Layer.overlay_assoc, rectLayer]

end Layers

/-! ## Places -/

section Places
variable {x y a b w h px py : Word}

/-- A rectangle at an offset. -/
theorem inRect_offset (ha : a.toNat + w.toNat < 2 ^ 32) (hb : b.toNat + h.toNat < 2 ^ 32) :
    InRect (x + a) (y + b) w h px py ↔ InSpan a w (px - x) ∧ InSpan b h (py - y) := by
  rw [InRect, ← BitVec.sub_sub, ← BitVec.sub_sub, sub_lt_of_fit ha, sub_lt_of_fit hb]

/-- A rectangle at an offset lies in a larger one. -/
theorem inRect_of_offset {w' h' : Word} (hw : a.toNat + w.toNat ≤ w'.toNat)
    (hh : b.toNat + h.toNat ≤ h'.toNat) (hin : InRect (x + a) (y + b) w h px py) :
    InRect x y w' h' px py := by
  have hwide := w'.isLt
  have hhigh := h'.isLt
  obtain ⟨hx, hy⟩ := (inRect_offset (by omega) (by omega)).mp hin
  exact ⟨BitVec.lt_def.mpr (Nat.lt_of_lt_of_le hx.2 hw), BitVec.lt_def.mpr (Nat.lt_of_lt_of_le hy.2 hh)⟩

theorem sub_self_lt (x : Word) (hw : w ≠ 0#32) : x - x < w := by
  rw [BitVec.sub_self, BitVec.lt_def]
  exact Nat.pos_of_ne_zero fun hzero => hw (BitVec.eq_of_toNat_eq hzero)

theorem last_lt (x : Word) (hw : w ≠ 0#32) : x + w - 1#32 - x < w := by
  have hpos : 0 < w.toNat := Nat.pos_of_ne_zero fun hzero => hw (BitVec.eq_of_toNat_eq hzero)
  have hlast : x + w - 1#32 - x = w - 1#32 := by
    rw [BitVec.sub_sub, BitVec.add_comm 1#32, ← BitVec.sub_sub, BitVec.add_comm x,
      BitVec.add_sub_cancel]
  have hone : 1#32 ≤ w := hpos
  rw [hlast, BitVec.lt_def, BitVec.toNat_sub_of_le hone]
  exact Nat.sub_lt hpos Nat.one_pos

/-- The outline is part of the rectangle. -/
theorem OnOutline.inRect (hw : w ≠ 0#32) (hh : h ≠ 0#32) (hon : OnOutline x y w h px py) :
    InRect x y w h px py := by
  rcases hon with ⟨hx, rfl | rfl⟩ | ⟨hy, rfl | rfl⟩
  · exact ⟨hx, sub_self_lt _ hh⟩
  · exact ⟨hx, last_lt _ hh⟩
  · exact ⟨sub_self_lt _ hw, hy⟩
  · exact ⟨last_lt _ hw, hy⟩

/-- A text is part of the rectangle of its characters. -/
theorem InText.inRect {screenWidth : Word} {str : List Byte}
    (hw : charSide screenWidth * str.length ≤ w.toNat) (hh : charSide screenWidth ≤ h.toNat)
    (hin : InText screenWidth x y str px py) : InRect x y w h px py := by
  obtain ⟨i, hi, _, hdx, hdy, _⟩ := hin
  have hend := Nat.mul_le_mul_left (charSide screenWidth) (List.mem_range.mp hi)
  have hwide := w.isLt
  have hside := charScale_le screenWidth
  rw [Nat.mul_succ] at hend
  have hsub : px - x - BitVec.ofNat 32 (charSide screenWidth * i) <
      BitVec.ofNat 32 (charSide screenWidth) := by
    rw [BitVec.sub_sub, BitVec.lt_def, toNat_ofNat_of_lt (by omega)]
    exact hdx
  rw [sub_lt_of_fit (by rw [toNat_ofNat_of_lt (by omega), toNat_ofNat_of_lt (by omega)]; omega),
    InSpan, toNat_ofNat_of_lt (by omega), toNat_ofNat_of_lt (by omega)] at hsub
  exact ⟨BitVec.lt_def.mpr (by omega), BitVec.lt_def.mpr (Nat.lt_of_lt_of_le hdy hh)⟩

/-- The signed comparisons of the mouse, for an interval of small numbers. -/
theorem inSpan_signed {n p : Word} (hfit : a.toNat + n.toNat < 2 ^ 31) :
    (a.sle p = true ∧ p.slt (a + n) = true) ↔ InSpan a n p := by
  have hend : (a + n).toNat = a.toNat + n.toNat := toNat_add_of_lt (by omega)
  rw [BitVec.sle_iff_toInt_le, BitVec.slt_iff_toInt_lt, toInt_small (p := a) (by omega),
    toInt_small (p := a + n) (by omega), hend, InSpan]
  constructor
  · rintro ⟨hlo, hhi⟩
    have hp : p.toInt = p.toNat :=
      BitVec.toInt_eq_toNat_of_lt (BitVec.toInt_pos_iff.mp (by omega))
    omega
  · rintro ⟨hlo, hhi⟩
    rw [toInt_small (p := p) (by omega)]
    omega

end Places

/-! ## The buttons -/

/-- The face of `a` is outside what is drawn of `b`. -/
def Button.Clear (a b : Button) : Prop :=
  a.x.toNat + a.w.toNat ≤ b.x.toNat ∨ b.x.toNat + b.w.toNat + 2 ≤ a.x.toNat ∨
    a.y.toNat + a.h.toNat ≤ b.y.toNat ∨ b.y.toNat + b.h.toNat + 2 ≤ a.y.toNat

instance (a b : Button) : Decidable (a.Clear b) := by
  unfold Button.Clear
  infer_instance

/-- The sizes of the table. A label of one character has room on the face. -/
structure Button.Fits (b : Button) : Prop where
  left : b.x.toNat + b.w.toNat ≤ 185
  bottom : b.y.toNat + b.h.toNat ≤ 230
  top : 60 ≤ b.y.toNat
  label : 40 ≤ b.w.toNat ∧ 30 ≤ b.h.toNat

theorem buttons_fit : ∀ b ∈ buttons, b.Fits := by
  have hall : ∀ b ∈ buttons, b.x.toNat + b.w.toNat ≤ 185 ∧ b.y.toNat + b.h.toNat ≤ 230 ∧
      60 ≤ b.y.toNat ∧ 40 ≤ b.w.toNat ∧ 30 ≤ b.h.toNat := by decide
  intro b hb
  obtain ⟨hleft, hbottom, htop, hlabel⟩ := hall b hb
  exact ⟨hleft, hbottom, htop, hlabel⟩

theorem buttons_clear : buttons.Pairwise fun a b => a.Clear b ∧ b.Clear a := by decide

theorem buttonLooks_button : buttonLooks.map ButtonLook.button = buttons := rfl

section Buttons
variable {F : Type} {screenWidth : Word} {scale : Byte → Byte} {c : Calculator (CalculatorEntry F)}
  {x y mx my px py : Word}

theorem Button.Clear.apart {a b : Button} (h : a.Clear b) {u v : Word} (hu : InSpan a.x a.w u)
    (hv : InSpan a.y a.h v) :
    ¬ (b.x.toNat ≤ u.toNat ∧ u.toNat < b.x.toNat + b.w.toNat + 2 ∧
      b.y.toNat ≤ v.toNat ∧ v.toNat < b.y.toNat + b.h.toNat + 2) := by
  rintro ⟨hx, hx', hy, hy'⟩
  obtain ⟨hux, hux'⟩ := hu
  obtain ⟨hvy, hvy'⟩ := hv
  rcases h with h | h | h | h <;> omega

/-- The test of `calculator_check_button` for one button. -/
theorem hit_iff {δ : Type} (c : Calculator δ) {b : Button} (h : b.Fits) :
    (b.x.sle (mx - c.x) && (mx - c.x).slt (b.x + b.w) && b.y.sle (my - c.y) &&
      (my - c.y).slt (b.y + b.h)) = true ↔ InRect (c.x + b.x) (c.y + b.y) b.w b.h mx my := by
  have hw := h.left
  have hh := h.bottom
  rw [inRect_offset (by omega) (by omega), ← inSpan_signed (by omega), ← inSpan_signed (by omega)]
  simp only [Bool.and_eq_true, and_assoc]

/-- A button is hit exactly where it is drawn. -/
theorem calculatorCheckButton_iff {δ : Type} (c : Calculator δ) {i : Nat} {b : Button}
    (hb : buttons[i]? = some b) :
    calculatorCheckButton c mx my = some i ↔ InRect (c.x + b.x) (c.y + b.y) b.w b.h mx my := by
  obtain ⟨hi, rfl⟩ := List.getElem?_eq_some_iff.mp hb
  have hfits : ∀ (j : Nat) (hj : j < buttons.length), buttons[j].Fits :=
    fun j hj => buttons_fit _ (List.getElem_mem hj)
  unfold calculatorCheckButton
  dsimp only
  rw [List.findIdx?_eq_some_iff_getElem]
  constructor
  · rintro ⟨_, hit, _⟩
    exact (hit_iff c (hfits i hi)).mp hit
  · intro hin
    refine ⟨hi, (hit_iff c (hfits i hi)).mpr hin, fun j hj hit => ?_⟩
    have hjlt : j < buttons.length := Nat.lt_trans hj hi
    have hclear := (List.pairwise_iff_getElem.mp buttons_clear j i hjlt hi hj).2
    have hother := (hit_iff c (hfits j hjlt)).mp hit
    have hfi := hfits i hi
    have hfj := hfits j hjlt
    obtain ⟨hx, hy⟩ := (inRect_offset (by have := hfi.left; omega) (by have := hfi.bottom; omega)).mp hin
    obtain ⟨hox, hoy⟩ :=
      (inRect_offset (by have := hfj.left; omega) (by have := hfj.bottom; omega)).mp hother
    exact hclear.apart hx hy ⟨hox.1, Nat.lt_of_lt_of_le hox.2 (Nat.le_add_right _ 2), hoy.1,
      Nat.lt_of_lt_of_le hoy.2 (Nat.le_add_right _ 2)⟩

/-- The face is in the rectangle of the button. -/
theorem faceLayer_inside {btn : ButtonLook} (hfits : btn.button.Fits) (hlabel : btn.label.length = 1) :
    (faceLayer screenWidth x y btn).Inside fun p =>
      InRect x y btn.button.w btn.button.h p.1 p.2 := by
  obtain ⟨hwide, hhigh⟩ := hfits.label
  have hleft := hfits.left
  have hw : btn.button.w ≠ 0#32 := fun hzero => by rw [hzero] at hwide; cases hwide
  have hh : btn.button.h ≠ 0#32 := fun hzero => by rw [hzero] at hhigh; cases hhigh
  have hside : charSide screenWidth ≤ 16 := Nat.mul_le_mul_left 8 (charScale_le screenWidth)
  refine Layer.inside_stack fun layer hlayer => ?_
  simp only [List.mem_cons, List.not_mem_nil, or_false] at hlayer
  rcases hlayer with rfl | rfl | rfl
  · exact Layer.inside_flat fun _ hin => hin
  · exact Layer.inside_flat fun _ hon => hon.inRect hw hh
  · refine Layer.inside_flat fun _ htext => ?_
    have hlabel' : charSide screenWidth * btn.label.length ≤ (16#32).toNat := by
      rw [hlabel, Nat.mul_one]
      exact hside
    have hletter : 8#32 ≤ btn.button.w := Nat.le_trans (by decide) hwide
    have hcenter : ((btn.button.w - 8#32) / 2#32).toNat = (btn.button.w.toNat - 8) / 2 := by
      rw [BitVec.toNat_udiv, BitVec.toNat_sub_of_le hletter]
      rfl
    refine inRect_of_offset ?_ ?_ (htext.inRect hlabel' (h := 16#32) hside)
    · rw [hcenter]
      show (btn.button.w.toNat - 8) / 2 + 16 ≤ btn.button.w.toNat
      omega
    · exact Nat.le_trans (by decide : 10 + 16 ≤ 30) hhigh

/-- A button with its shadow. -/
theorem buttonLayer_inside {btn : ButtonLook} (hfits : btn.button.Fits)
    (hlabel : btn.label.length = 1) :
    (buttonLayer screenWidth scale x y btn).Inside fun p =>
      InRect x y (btn.button.w + 2#32) (btn.button.h + 2#32) p.1 p.2 := by
  have hleft := hfits.left
  have hbottom := hfits.bottom
  have hw : (btn.button.w + 2#32).toNat = btn.button.w.toNat + 2 := toNat_add_ofNat (by omega)
  have hh : (btn.button.h + 2#32).toNat = btn.button.h.toNat + 2 := toNat_add_ofNat (by omega)
  refine Layer.Inside.overlay ((faceLayer_inside hfits hlabel).mono fun p hp => ?_)
    (Layer.inside_flat fun p hp => inRect_of_offset ?_ ?_ hp)
  · exact ⟨BitVec.lt_def.mpr (by rw [hw]; exact Nat.lt_of_lt_of_le hp.1 (Nat.le_add_right _ 2)),
      BitVec.lt_def.mpr (by rw [hh]; exact Nat.lt_of_lt_of_le hp.2 (Nat.le_add_right _ 2))⟩
  · rw [hw, Nat.add_comm]
    rfl
  · rw [hh, Nat.add_comm]
    rfl

/-- On the face of a button nothing else is seen. -/
theorem layer_calculatorDraw_face {i : Nat} {btn : ButtonLook} (hbtn : buttonLooks[i]? = some btn)
    (hin : InRect (c.x + btn.button.x) (c.y + btn.button.y) btn.button.w btn.button.h px py) :
    ∃ color, faceLayer screenWidth (c.x + btn.button.x) (c.y + btn.button.y) btn (px, py) =
        some color ∧
      layer (calculatorDraw screenWidth scale c) (px, py) = some color := by
  obtain ⟨hi, hget⟩ := List.getElem?_eq_some_iff.mp hbtn
  have hmem : ∀ k ∈ buttonLooks, k.button.Fits ∧ k.label.length = 1 := fun k hk =>
    ⟨buttons_fit _ (buttonLooks_button ▸ List.mem_map_of_mem hk), (buttonLooks_label k hk).1⟩
  have hself : btn ∈ buttonLooks := hget ▸ List.getElem_mem hi
  obtain ⟨hfits, _⟩ := hmem btn hself
  have hright := hfits.left
  have hbottom := hfits.bottom
  obtain ⟨hx, hy⟩ := (inRect_offset (by omega) (by omega)).mp hin
  -- the face has a colour everywhere
  have hface : faceLayer screenWidth (c.x + btn.button.x) (c.y + btn.button.y) btn (px, py) ≠ none :=
    fun hnone => Layer.flat_eq_none_iff.mp
      (Layer.stack_eq_none_iff.mp hnone _ List.mem_cons_self) hin
  obtain ⟨color, hcolor⟩ := Option.ne_none_iff_exists'.mp hface
  refine ⟨color, hcolor, ?_⟩
  have hbutton : buttonsLayer screenWidth scale c (px, py) = some color := by
    have hpairs : buttonLooks.Pairwise fun a b => a.button.Clear b.button ∧ b.button.Clear a.button := by
      have hmap := buttons_clear
      rwa [← buttonLooks_button, List.pairwise_map] at hmap
    have hsplit : buttonLooks = buttonLooks.take i ++ btn :: buttonLooks.drop (i + 1) := by
      rw [← hget, ← List.drop_eq_getElem_cons hi, List.take_append_drop]
    rw [hsplit, List.pairwise_append, List.pairwise_cons] at hpairs
    rw [buttonsLayer, hsplit, List.map_append, List.map_cons]
    refine Layer.stack_eq_some_iff.mpr
      ⟨_, _, _, rfl, Layer.overlay_of_some hcolor, fun upper hupper => ?_⟩
    obtain ⟨k, hk, rfl⟩ := List.mem_map.mp hupper
    have hkmem : k ∈ buttonLooks := List.mem_of_mem_drop hk
    obtain ⟨hkfits, hklabel⟩ := hmem k hkmem
    have hkright := hkfits.left
    have hkbottom := hkfits.bottom
    have hkw : (k.button.w + 2#32).toNat = k.button.w.toNat + 2 := toNat_add_ofNat (by omega)
    have hkh : (k.button.h + 2#32).toNat = k.button.h.toNat + 2 := toNat_add_ofNat (by omega)
    refine (buttonLayer_inside hkfits hklabel).eq_none fun hother => ?_
    obtain ⟨hox, hoy⟩ := (inRect_offset (by rw [hkw]; omega) (by rw [hkh]; omega)).mp hother
    rw [InSpan, hkw] at hox
    rw [InSpan, hkh] at hoy
    exact (hpairs.2.1.1 k hk).1.apart hx hy ⟨hox.1, hox.2, hoy.1, hoy.2⟩
  rw [layer_calculatorDraw]
  exact Layer.stack_eq_some_iff.mpr
    ⟨[_, _], _, [], rfl, hbutton, fun _ h => absurd h List.not_mem_nil⟩

/-- What is drawn is in the window, as far as the text of the display has room. -/
theorem layer_calculatorDraw_inside (hwidth : c.width = 195#32) (hheight : c.height = 240#32)
    {w : Word} (hw : 195 ≤ w.toNat)
    (htext : 15 + charSide screenWidth * c.entry.text.length ≤ w.toNat) :
    (layer (calculatorDraw screenWidth scale c)).Inside fun p =>
      InRect c.x c.y w 240#32 p.1 p.2 := by
  have hside : charSide screenWidth ≤ 16 := Nat.mul_le_mul_left 8 (charScale_le screenWidth)
  have hlimit := w.isLt
  -- a rectangle at the corner is one at the offset zero
  have hcorner : ∀ {width height : Word}, width.toNat ≤ 195 → height.toNat ≤ 240 →
      ∀ p : Word × Word, InRect c.x c.y width height p.1 p.2 → InRect c.x c.y w 240#32 p.1 p.2 :=
    fun hwide hhigh p hp => ⟨BitVec.lt_def.mpr (Nat.lt_of_lt_of_le hp.1 (hwide.trans hw)),
      BitVec.lt_def.mpr (Nat.lt_of_lt_of_le hp.2 hhigh)⟩
  have hoffset : ∀ {a b width height : Word}, a.toNat + width.toNat ≤ 195 →
      b.toNat + height.toNat ≤ 240 → ∀ p : Word × Word,
        InRect (c.x + a) (c.y + b) width height p.1 p.2 → InRect c.x c.y w 240#32 p.1 p.2 :=
    fun hwide hhigh p hp => inRect_of_offset (hwide.trans hw) hhigh hp
  rw [layer_calculatorDraw]
  refine Layer.inside_stack fun part hpart => ?_
  simp only [List.mem_cons, List.not_mem_nil, or_false] at hpart
  rcases hpart with rfl | rfl | rfl
  · rw [hwidth, hheight]
    exact Layer.inside_flat (hcorner (Nat.le_refl 195) (Nat.le_refl 240))
  · refine Layer.inside_stack fun part hpart => ?_
    have hclose : c.x + 195#32 - 10#32 = c.x + 185#32 := by
      rw [show (195#32 : Word) = 185#32 + 10#32 from rfl, ← BitVec.add_assoc, BitVec.add_sub_cancel]
    simp only [List.mem_cons, List.not_mem_nil, or_false, hwidth, hclose] at hpart
    rcases hpart with rfl | rfl | rfl | rfl | rfl
    · exact Layer.inside_flat (hoffset (by decide) (by decide))
    · exact Layer.inside_flat fun p hp =>
        hoffset (by decide) (by decide) p (hp.inRect (by decide) (by decide))
    · exact Layer.inside_flat (hcorner (by decide) (by decide))
    · exact Layer.inside_flat (hoffset (by decide) (by decide))
    · have hroom : (BitVec.ofNat 32 (charSide screenWidth * c.entry.text.length)).toNat =
          charSide screenWidth * c.entry.text.length := toNat_ofNat_of_lt (by omega)
      refine Layer.inside_flat fun p hp => inRect_of_offset ?_ ?_
        (hp.inRect (Nat.le_of_eq hroom.symm) (h := 16#32) hside)
      · rw [hroom]
        exact htext
      · decide
  · refine Layer.inside_stack fun part hpart => ?_
    obtain ⟨btn, hbtn, rfl⟩ := List.mem_map.mp hpart
    have hfits := buttons_fit _ (buttonLooks_button ▸ List.mem_map_of_mem hbtn)
    have hright := hfits.left
    have hbottom := hfits.bottom
    have hbw : (btn.button.w + 2#32).toNat = btn.button.w.toNat + 2 := toNat_add_ofNat (by omega)
    have hbh : (btn.button.h + 2#32).toNat = btn.button.h.toNat + 2 := toNat_add_ofNat (by omega)
    exact (buttonLayer_inside hfits (buttonLooks_label btn hbtn).1).mono
      (hoffset (by rw [hbw]; omega) (by rw [hbh]; omega))

end Buttons

/-! ## The window -/

section Window
variable {F : Type} {screen : Screen} {s : CalculatorApp (CalculatorEntry F)}

theorem charSide_narrow {w : Word} (h : w < 800#32) : charSide w = 8 := by
  rw [charSide, charScale, if_neg (BitVec.not_le.mpr h)]

/-- In every run of the calculator an open window is on the screen above the last 24 rows. On
a screen of less than 800 columns, or with at most 11 characters in the display, what is drawn
is in the window; otherwise the text goes on for at most 60 points to the right of it. -/
theorem calculator_window (hscreen : screen.HasCalculator)
    (h : (calculatorSystem screen).Reachable s) (hactive : s.active = true) (scale : Byte → Byte) :
    (s.calculator.x.toNat + 195 ≤ screen.width.toNat ∧
      s.calculator.y.toNat + 264 ≤ screen.height.toNat) ∧
    (screen.width < 800#32 ∨ s.calculator.entry.text.length ≤ 11 →
      (layer (calculatorDraw screen.width scale s.calculator)).Inside fun p =>
        InRect s.calculator.x s.calculator.y 195#32 240#32 p.1 p.2) ∧
    (layer (calculatorDraw screen.width scale s.calculator)).Inside fun p =>
      InRect s.calculator.x s.calculator.y 255#32 240#32 p.1 p.2 := by
  obtain ⟨hopen, hbrief⟩ := calculator_open hscreen h hactive
  have hlength := hbrief.2
  have hside : charSide screen.width ≤ 16 := Nat.mul_le_mul_left 8 (charScale_le screen.width)
  refine ⟨⟨hopen.right, hopen.bottom⟩, fun hroom => ?_, ?_⟩
  · refine layer_calculatorDraw_inside hopen.width hopen.height (Nat.le_refl 195) ?_
    show 15 + charSide screen.width * s.calculator.entry.text.length ≤ 195
    rcases hroom with hnarrow | hshort
    · rw [charSide_narrow hnarrow]
      omega
    · exact (Nat.add_le_add_left (Nat.mul_le_mul hside hshort) 15).trans (by decide)
  · exact layer_calculatorDraw_inside hopen.width hopen.height (by decide)
      ((Nat.add_le_add_left (Nat.mul_le_mul hside hlength) 15).trans (by decide))

/-- The calculator as it opens. -/
def openedCalculator : CalculatorApp (CalculatorEntry ℚ) :=
  callCalculator smallScreen.screen
    (calculatorStatics ⟨fun _ => 0#8, 0, 0, 0, 0#8, false⟩) (.start exactDoubles)

theorem smallScreen_hasCalculator : smallScreen.screen.HasCalculator :=
  ⟨⟨by decide, by decide⟩, by decide, by decide⟩

theorem openedCalculator_reachable :
    (calculatorSystem smallScreen.screen).Reachable openedCalculator :=
  .step (.init ⟨_, rfl⟩) rfl

/-- The calculator that has been opened is drawn in its window. -/
theorem calculator_window_opened :
    (layer (calculatorDraw smallScreen.screen.width id openedCalculator.calculator)).Inside fun p =>
      InRect openedCalculator.calculator.x openedCalculator.calculator.y 195#32 240#32 p.1 p.2 :=
  (calculator_window smallScreen_hasCalculator openedCalculator_reachable rfl id).2.1
    (.inl (by decide))

end Window

/-! ## Clicks -/

section Clicks
variable {F : Type} {v : Vga} {n : Nat} {s : CalculatorApp (CalculatorEntry F)} {px py : Word}

theorem add_sub_toNat {x p : Word} {k : Nat} (h : (p - x).toNat = k) (hfit : x.toNat + k < 2 ^ 32) :
    p.toNat = x.toNat + k := by
  have hback : p = x + (p - x) := by rw [BitVec.add_comm, BitVec.sub_add_cancel]
  rw [hback, toNat_add_of_lt (by rw [h]; exact hfit), h]

theorem sle_false_of_lt {p q : Word} (hp : p.toNat < 2 ^ 31) (hlt : q.toNat < p.toNat) :
    p.sle q = false := by
  rw [Bool.eq_false_iff, Ne, BitVec.sle_iff_toInt_le, toInt_small hp, toInt_small (by omega)]
  omega

/-- The rows above the taskbar. -/
theorem taskbar_above {screen : Screen} (hbar : 28 ≤ screen.height.toNat)
    (h : py.toNat + 28 < screen.height.toNat) : taskbarLayer screen (px, py) = none := by
  have hheight := screen.height.isLt
  have hrect : ∀ {k : Nat} {n : Word}, k + n.toNat < 28 → k < 28 →
      ¬ py - (screen.height - 28#32 + BitVec.ofNat 32 k) < n := by
    intro k n hfit hk hin
    have hrow := taskbarRow_toNat hbar hk
    have hle := ((sub_lt_of_fit (by omega)).mp hin).1
    omega
  have hside : charSide screen.width ≤ 16 := Nat.mul_le_mul_left 8 (charScale_le screen.width)
  refine taskbarLayer_eq_none ?_ (hrect (k := 4) (n := 16#32) (by decide) (by decide)) ?_
  · have hrows := hrect (k := 0) (n := 24#32) (by decide) (by decide)
    rwa [BitVec.add_zero] at hrows
  · rintro x str ⟨i, _, _, _, hdy, _⟩
    exact hrect (k := 8) (n := 16#32) (by decide) (by decide)
      (BitVec.lt_def.mpr (Nat.lt_of_lt_of_le hdy hside))

/-- A press on a button of an open calculator that is not dragged. -/
theorem calculatorUpdate_button {δ : Type} {screen : Screen} {keypad : Keypad δ} {mouse : MouseState}
    {s : CalculatorApp δ} (h : s.Open screen) (hdown : leftButton mouse.buttons = true)
    (hup : leftButton s.lastButtons = false)
    (hclose : onCloseBox s.calculator (screenX screen mouse.x) (screenY screen mouse.y) = false)
    (htitle : onTitleBar s.calculator (screenX screen mouse.x) (screenY screen mouse.y) = false)
    {i : Nat} (hbutton : calculatorCheckButton s.calculator (screenX screen mouse.x)
      (screenY screen mouse.y) = some i) :
    calculatorUpdate screen keypad mouse s =
      { s with
        calculator := { s.calculator with entry := keypad.handleButton i s.calculator.entry }
        lastButtons := mouse.buttons } := by
  have hstill : ¬ s.calculator.dragging = true := fun hdragging => by
    rw [h.button hdragging] at hup
    cases hup
  unfold calculatorUpdate calculatorClick
  simp only [h.running, hdown, hup, hclose, htitle, hbutton, Bool.true_eq_false, if_false,
    Bool.not_false, Bool.not_true, Bool.and_false, Bool.and_true, Bool.false_eq_true, if_true, hstill]

/-- The rows of the buttons are below the title bar and the close box. -/
theorem below_titleBar {δ : Type} {c : Calculator δ} {my : Word} (mx : Word)
    (hfit : c.y.toNat + 240 < 2 ^ 31) (hlo : 60 ≤ (my - c.y).toNat)
    (hhi : (my - c.y).toNat < 230) : onCloseBox c mx my = false ∧ onTitleBar c mx my = false := by
  have hmy : my.toNat = c.y.toNat + (my - c.y).toNat := add_sub_toNat rfl (by omega)
  have hclose : (c.y + 7#32).toNat = c.y.toNat + 7 := toNat_add_ofNat (by omega)
  have htitle : (c.y + 8#32).toNat = c.y.toNat + 8 := toNat_add_ofNat (by omega)
  constructor
  · rw [onCloseBox, sle_false_of_lt (q := c.y + 7#32) (by omega) (by omega), Bool.and_false]
  · rw [onTitleBar, sle_false_of_lt (q := c.y + 8#32) (by omega) (by omega), Bool.and_false]

/-- In every run, when the mouse is pressed at a point of the screen: the button that
`calculator_check_button` finds is the one whose face has been drawn around the point. The
press is handed to this button and changes nothing else, and what the frames before have left
on the display there, unless the cursor covers it, is the face of the button. -/
theorem calculator_face (hv : v.Ready n) (hbuffers : v.Buffers) (hlarge : v.screen.Large)
    (hscreen : v.screen.HasCalculator) (h : (calculatorSystem v.screen).Reachable s)
    (hactive : s.active = true) {i : Nat} {btn : ButtonLook} (hbtn : buttonLooks[i]? = some btn)
    (ops : DoubleOps F) {mouse : MouseState}
    (hdown : leftButton mouse.buttons = true) (hup : leftButton s.lastButtons = false)
    (hx : px = screenX v.screen mouse.x) (hy : py = screenY v.screen mouse.y) :
    let c := s.calculator
    let x := c.x + btn.button.x
    let y := c.y + btn.button.y
    (calculatorCheckButton c px py = some i ↔ InRect x y btn.button.w btn.button.h px py) ∧
    (InRect x y btn.button.w btn.button.h px py →
      callCalculator v.screen s (.update ops mouse) =
        { s with
          calculator := { c with entry := (calculatorHandleButton ops i c.entry).value }
          lastButtons := mouse.buttons } ∧
      ∀ (scale : Byte → Byte) (scenes : List Scene) (scene : Scene) (m : Mem),
        scene.calculator = calculatorDraw v.width scale c →
        cursorLayer v.screen scene.mouse (px, py) = none →
        ∃ color, faceLayer v.width x y btn (px, py) = some color ∧
          (vgaGetPixel v.shown px py (showFrames v (scenes ++ [scene]) m)).toNat =
            color.toNat % 2 ^ (8 * n)) := by
  intro c x y
  obtain ⟨hopen, _⟩ := calculator_open hscreen h hactive
  have hbutton : buttons[i]? = some btn.button := by
    rw [← buttonLooks_button, List.getElem?_map, hbtn, Option.map_some]
  have hcheck : calculatorCheckButton c px py = some i ↔
      InRect x y btn.button.w btn.button.h px py := calculatorCheckButton_iff c hbutton
  refine ⟨hcheck, fun hin => ?_⟩
  have hfits := buttons_fit _ (List.mem_of_getElem? hbutton)
  have hleft := hfits.left
  have hbottom := hfits.bottom
  have htop := hfits.top
  have hright : c.x.toNat + 195 ≤ v.screen.width.toNat := hopen.right
  have hbelow : c.y.toNat + 264 ≤ v.screen.height.toNat := hopen.bottom
  have hwidth := hscreen.width.2
  have hheight := hscreen.height.2
  obtain ⟨⟨_, hu⟩, hv', hv''⟩ := (inRect_offset (by omega) (by omega)).mp hin
  have hpx : px.toNat = c.x.toNat + (px - c.x).toNat := add_sub_toNat rfl (by omega)
  have hpy : py.toNat = c.y.toNat + (py - c.y).toNat := add_sub_toNat rfl (by omega)
  have hrows : c.y.toNat + 240 < 2 ^ 31 := by omega
  constructor
  · obtain ⟨hclose, htitle⟩ :=
      below_titleBar px hrows (by omega : 60 ≤ (py - c.y).toNat) (by omega)
    rw [callCalculator, updateCalculatorApp, if_pos hactive]
    subst hx hy
    exact calculatorUpdate_button hopen hdown hup hclose htitle (hcheck.mpr hin)
  · intro scale scenes scene m hdraw hcursor
    obtain ⟨color, hface, hcolor⟩ := @layer_calculatorDraw_face _ v.width scale c _ _ _ _ hbtn hin
    refine ⟨color, hface, ?_⟩
    have hon : v.OnScreen px py :=
      ⟨BitVec.lt_def.mpr (show px.toNat < v.screen.width.toNat by omega),
        BitVec.lt_def.mpr (show py.toNat < v.screen.height.toNat by omega)⟩
    have hscene : sceneLayer v.screen scene (px, py) = some color := by
      refine Layer.stack_eq_some_iff.mpr ⟨[_, _], layer scene.calculator, [_, _], rfl, ?_, ?_⟩
      · rw [hdraw]
        exact hcolor
      · intro upper hupper
        simp only [List.mem_cons, List.not_mem_nil, or_false] at hupper
        rcases hupper with rfl | rfl
        · exact taskbar_above (Nat.le_trans (by decide) hscreen.height.1) (by omega)
        · exact hcursor
    exact shown_scene hv hbuffers hlarge hon scenes hscene m

/-- The first button is "7". -/
def sevenLook : ButtonLook := ⟨⟨10#32, 60#32, 40#32, 30#32⟩, [0x37#8], COLOR_MD_GRAY_100⟩

/-- A press on it, in the calculator that has been opened. -/
theorem calculator_face_seven :
    calculatorCheckButton openedCalculator.calculator 75#32 95#32 = some 0 ∧
      (callCalculator smallScreen.screen openedCalculator
        (.update exactDoubles ⟨75#32, 95#32, 1#8⟩)).calculator.entry.display 0 = 0x37#8 := by
  have hin : InRect (60#32 + 10#32) (30#32 + 60#32) 40#32 30#32 75#32 95#32 := by decide
  obtain ⟨hcheck, hpress⟩ := calculator_face smallScreen_ready (.inl rfl) smallScreen_large
    smallScreen_hasCalculator openedCalculator_reachable rfl
    (rfl : buttonLooks[0]? = some sevenLook) exactDoubles
    (rfl : leftButton (MouseState.mk 75#32 95#32 1#8).buttons = true) rfl
    (rfl : 75#32 = screenX smallScreen.screen 75#32) (rfl : 95#32 = screenY smallScreen.screen 95#32)
  refine ⟨hcheck.mpr hin, ?_⟩
  rw [(hpress hin).1]
  rfl

end Clicks

end Zenix
