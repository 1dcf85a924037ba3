import Zenix.Drivers.VgaDraw
import Zenix.Gui.TopWindow

/-!
# Where is a window drawn? (kernel/gui/gui.c)

`gui_draw_window` draws the shadow, the body and the outline of a window from its size. The
title bar is 24 rows high, the close box is 10 points wide and 20 points from the right
edge, and the title is as long as its text: nothing is cut at the edge of the window.

Results:
1. `guiCreateWindow_title`: which titles a window can have.
2. `contains_iff_filled`: the body is where the window contains a point.
3. `guiDrawWindow_parts`: every pixel that is set belongs to one of the parts.
4. `draw_window_region`: which pixels outside the window can change.
-/

namespace Zenix
open ByteMemory Logged

variable {δ : Type}

def ACCENT_COLOR : Byte := 0x0C#8
def TEXT_COLOR : Byte := 0x00#8

def guiDrawWindow (screenWidth : Word) (g : Gui) (looks : Int → WindowLook) (id : Int) :
    Logged PixelCall Unit :=
  if id < 0 ∨ g.windowCount ≤ id ∨ (g.windows id).visible = false then pure ()
  else do
    let win := g.windows id
    let look := looks id
    -- "Subtle shadow"
    vgaFillRect (win.x + 3#32) (win.y + 3#32) win.width win.height (SHADOW_COLOR.setWidth 32)
    -- "Window body"
    vgaFillRect win.x win.y win.width win.height (look.color.setWidth 32)
    vgaDrawRect win.x win.y win.width win.height (SHADOW_COLOR.setWidth 32)
    -- "Title bar"
    vgaFillRect (win.x + 1#32) (win.y + 1#32) (win.width - 2#32) 24#32 0x38#32
    let _ ← vgaDrawString screenWidth (win.x + 10#32) (win.y + 10#32) (cstring look.title 64)
      (TEXT_COLOR.setWidth 32)
    -- "Close button"
    vgaFillRect (win.x + win.width - 20#32) (win.y + 7#32) 10#32 10#32 (ACCENT_COLOR.setWidth 32)

/-! ## Titles -/

/-- A window is created with the first 63 characters of its title. -/
theorem guiCreateWindow_title {x y width height : Word} {title : Nat → Byte} {text : List Byte}
    (htitle : StringFrom title 0 text) {color : Byte} {g : Gui} {looks : Int → WindowLook}
    (hroom : g.windowCount < MAX_WINDOWS) :
    StringFrom ((guiCreateWindow x y width height title color g looks).2.2 g.windowCount).title 0
      (text.take 63) := by
  obtain ⟨dest, hloop, hstring⟩ := copyLoop_string (fun _ => true) 63 htitle
    (looks g.windowCount).title
  have hall : text.takeWhile (fun _ => true) = text := List.takeWhile_eq_self_iff.mpr fun _ _ => rfl
  rw [hall] at hloop hstring
  rw [guiCreateWindow, if_neg (Int.not_le.mpr hroom)]
  dsimp only
  rw [hloop, Function.update_self]
  exact hstring

theorem cstring_title {title : Nat → Byte} {text : List Byte} (htitle : StringFrom title 0 text)
    (hlength : text.length ≤ 63) : cstring title 64 = text := by
  refine takeWhile_terminated (Nat.lt_succ_of_le hlength) htitle.noNul (fun i hi => ?_) ?_
  · rw [← htitle.chars i hi, Nat.zero_add]
  · rw [← htitle.stop, Nat.zero_add]

/-! ## The parts of a window -/

section Parts
variable (win : Window) (screenWidth : Word) (text : List Byte) (px py : Word)

/-- The rectangle of the window and its shadow. -/
def InFrame : Prop :=
  (win.x.toNat ≤ px.toNat ∧ px.toNat < win.x.toNat + win.width.toNat + 3) ∧
    win.y.toNat ≤ py.toNat ∧ py.toNat < win.y.toNat + win.height.toNat + 3

def InTitleBar : Prop := InRect (win.x + 1#32) (win.y + 1#32) (win.width - 2#32) 24#32 px py

/-- The characters of the title, side by side. -/
def InTitle : Prop :=
  InRect (win.x + 10#32) (win.y + 10#32) (BitVec.ofNat 32 (charSide screenWidth * text.length))
    (BitVec.ofNat 32 (charSide screenWidth)) px py

def InCloseBox : Prop := InRect (win.x + win.width - 20#32) (win.y + 7#32) 10#32 10#32 px py

def InOutline : Prop := OnOutline win.x win.y win.width win.height px py

/-- Where a pixel can change: in the window and its shadow, in the text of the title, and
when the window is small in the parts of a fixed size. -/
def Drawn : Prop :=
  InFrame win px py ∨ InTitle win screenWidth text px py ∨
    (win.width.toNat < 20 ∨ win.height.toNat < 22) ∧
      (InTitleBar win px py ∨ InCloseBox win px py ∨ InOutline win px py)

end Parts

section Draw
variable {screenWidth : Word} {g : Gui} {looks : Int → WindowLook} {id : Int} {text : List Byte}

/-- A point of the screen is in the body of the window when the body is drawn on it. -/
theorem contains_iff_filled {win : Window} {color : Word} {p : PixelCall} (hp : p.color = color) :
    win.Contains p.x p.y ↔ p ∈ (vgaFillRect win.x win.y win.width win.height color).log := by
  rw [mem_vgaFillRect]
  exact (and_iff_left hp).symm

/-- Every call is for a point of one of the parts. -/
theorem guiDrawWindow_parts (htitle : StringFrom (looks id).title 0 text)
    (hlength : text.length ≤ 63) :
    (guiDrawWindow screenWidth g looks id).All fun p =>
      InRect ((g.windows id).x + 3#32) ((g.windows id).y + 3#32) (g.windows id).width
          (g.windows id).height p.x p.y ∨
        (g.windows id).Contains p.x p.y ∨ InOutline (g.windows id) p.x p.y ∨
        InTitleBar (g.windows id) p.x p.y ∨ InTitle (g.windows id) screenWidth text p.x p.y ∨
        InCloseBox (g.windows id) p.x p.y := by
  have hfit : charSide screenWidth * text.length < 2 ^ 32 :=
    Nat.lt_of_le_of_lt (Nat.mul_le_mul (Nat.mul_le_mul_left 8 (charScale_le screenWidth)) hlength)
      (by decide)
  unfold guiDrawWindow
  split
  · exact all_pure _
  · dsimp only
    rw [cstring_title htitle hlength]
    refine All.bind (fun p hp => ?_) (All.bind (fun p hp => ?_) (All.bind (fun p hp => ?_)
      (All.bind (fun p hp => ?_) (All.bind (fun p hp => ?_) fun p hp => ?_))))
    · exact .inl (mem_vgaFillRect.mp hp).1
    · exact .inr (.inl (mem_vgaFillRect.mp hp).1)
    · exact .inr (.inr (.inl (mem_vgaDrawRect.mp hp).1))
    · exact .inr (.inr (.inr (.inl (mem_vgaFillRect.mp hp).1)))
    · exact .inr (.inr (.inr (.inr (.inl (vgaDrawString_all htitle.noNul hfit p hp)))))
    · exact .inr (.inr (.inr (.inr (.inr (mem_vgaFillRect.mp hp).1))))

end Draw

/-! ## Containment -/

section Containment
variable {win : Window} {px py : Word}

/-- A side of the window and its shadow. -/
theorem side_of_sub_lt {start size a n p : Word} (hp : p - a < n) (hstart : start.toNat ≤ a.toNat)
    (hend : a.toNat + n.toNat ≤ start.toNat + size.toNat + 3)
    (hover : start.toNat + size.toNat + 3 < 2 ^ 32) :
    start.toNat ≤ p.toNat ∧ p.toNat < start.toNat + size.toNat + 3 := by
  obtain ⟨i, hi, rfl⟩ := sub_lt_iff.mp hp
  rw [toNat_add_ofNat (by omega)]
  omega

theorem inFrame_of_inRect (hoverX : win.x.toNat + win.width.toNat + 3 < 2 ^ 32)
    (hoverY : win.y.toNat + win.height.toNat + 3 < 2 ^ 32) {x y w h : Word}
    (hrect : InRect x y w h px py) (hx : win.x.toNat ≤ x.toNat) (hy : win.y.toNat ≤ y.toNat)
    (hw : x.toNat + w.toNat ≤ win.x.toNat + win.width.toNat + 3)
    (hh : y.toNat + h.toNat ≤ win.y.toNat + win.height.toNat + 3) : InFrame win px py :=
  ⟨side_of_sub_lt hrect.1 hx hw hoverX, side_of_sub_lt hrect.2 hy hh hoverY⟩

section Large
variable (hoverX : win.x.toNat + win.width.toNat + 3 < 2 ^ 32)
  (hoverY : win.y.toNat + win.height.toNat + 3 < 2 ^ 32)
include hoverX hoverY

theorem inFrame_of_shadow
    (h : InRect (win.x + 3#32) (win.y + 3#32) win.width win.height px py) : InFrame win px py := by
  have hx : (win.x + 3#32).toNat = win.x.toNat + 3 := toNat_add_ofNat (by omega)
  have hy : (win.y + 3#32).toNat = win.y.toNat + 3 := toNat_add_ofNat (by omega)
  exact inFrame_of_inRect hoverX hoverY h (by omega) (by omega) (by omega) (by omega)

theorem inFrame_of_contains (h : win.Contains px py) : InFrame win px py :=
  inFrame_of_inRect hoverX hoverY h (Nat.le_refl _) (Nat.le_refl _) (by omega) (by omega)

variable (hwidth : 20 ≤ win.width.toNat) (hheight : 22 ≤ win.height.toNat)
include hwidth hheight

theorem inFrame_of_titleBar (h : InTitleBar win px py) : InFrame win px py := by
  have hx : (win.x + 1#32).toNat = win.x.toNat + 1 := toNat_add_ofNat (by omega)
  have hy : (win.y + 1#32).toNat = win.y.toNat + 1 := toNat_add_ofNat (by omega)
  have hw : (win.width - 2#32).toNat = win.width.toNat - 2 :=
    BitVec.toNat_sub_of_le (by rw [BitVec.le_def]; exact Nat.le_trans (by decide) hwidth)
  have hrows : (24#32).toNat = 24 := rfl
  exact inFrame_of_inRect hoverX hoverY h (by omega) (by omega) (by omega) (by omega)

theorem inFrame_of_closeBox (h : InCloseBox win px py) : InFrame win px py := by
  have hright : (win.x + win.width).toNat = win.x.toNat + win.width.toNat :=
    toNat_add_of_lt (by omega)
  have hx : (win.x + win.width - 20#32).toNat = win.x.toNat + win.width.toNat - 20 := by
    rw [← hright]
    exact BitVec.toNat_sub_of_le (by rw [BitVec.le_def, hright]; exact Nat.le_trans hwidth (by omega))
  have hy : (win.y + 7#32).toNat = win.y.toNat + 7 := toNat_add_ofNat (by omega)
  have hside : (10#32).toNat = 10 := rfl
  exact inFrame_of_inRect hoverX hoverY h (by omega) (by omega) (by omega) (by omega)

theorem inFrame_of_outline (h : InOutline win px py) : InFrame win px py := by
  have hedge : ∀ {start size p : Word}, start.toNat + size.toNat + 3 < 2 ^ 32 → 0 < size.toNat →
      p = start ∨ p = start + size - 1#32 →
      start.toNat ≤ p.toNat ∧ p.toNat < start.toNat + size.toNat + 3 := by
    intro start size p hover hpos hp
    have hend : (start + size).toNat = start.toNat + size.toNat := toNat_add_of_lt (by omega)
    have hlast : (start + size - 1#32).toNat = start.toNat + size.toNat - 1 := by
      rw [← hend]
      exact BitVec.toNat_sub_of_le (by rw [BitVec.le_def, hend]; exact Nat.le_trans hpos (by omega))
    rcases hp with rfl | rfl
    · omega
    · omega
  have hinside : ∀ {start size p : Word}, start.toNat + size.toNat + 3 < 2 ^ 32 →
      p - start < size → start.toNat ≤ p.toNat ∧ p.toNat < start.toNat + size.toNat + 3 :=
    fun hover hp => side_of_sub_lt hp (Nat.le_refl _) (by omega) hover
  rcases h with ⟨hx, hy⟩ | ⟨hy, hx⟩
  · exact ⟨hinside hoverX hx, hedge hoverY (by omega) hy⟩
  · exact ⟨hedge hoverX (by omega) hx, hinside hoverY hy⟩

end Large

/-- A part of a fixed size is inside the window when that is large enough. -/
theorem drawn_of_fixed {screenWidth : Word} {text : List Byte}
    (h : InTitleBar win px py ∨ InCloseBox win px py ∨ InOutline win px py)
    (hframe : 20 ≤ win.width.toNat → 22 ≤ win.height.toNat → InFrame win px py) :
    Drawn win screenWidth text px py := by
  by_cases hlarge : 20 ≤ win.width.toNat ∧ 22 ≤ win.height.toNat
  · exact .inl (hframe hlarge.1 hlarge.2)
  · rw [not_and_or, Nat.not_le, Nat.not_le] at hlarge
    exact .inr (.inr ⟨hlarge, h⟩)

end Containment

/-! ## The property -/

/-- Outside the window and its shadow `gui_draw_window` sets pixels for the title, whose
text is not cut, and in windows that are too small for them for the title bar, the close
box and the outline. No other pixel changes. -/
theorem draw_window_region {screenWidth : Word} {g : Gui} {looks : Int → WindowLook} {id : Int}
    {text : List Byte}
    (hoverX : (g.windows id).x.toNat + (g.windows id).width.toNat + 3 < 2 ^ 32)
    (hoverY : (g.windows id).y.toNat + (g.windows id).height.toNat + 3 < 2 ^ 32)
    (htitle : StringFrom (looks id).title 0 text) (hlength : text.length ≤ 63) :
    ((guiDrawWindow screenWidth g looks id).All fun p =>
      Drawn (g.windows id) screenWidth text p.x p.y) ∧
      ∀ v n, Vga.Ready v n → v.width = screenWidth → ∀ px py m,
        ¬ Drawn (g.windows id) screenWidth text px py →
        vgaGetPixel v px py (drawOn v (guiDrawWindow screenWidth g looks id) m) =
          vgaGetPixel v px py m := by
  have hall : (guiDrawWindow screenWidth g looks id).All fun p =>
      Drawn (g.windows id) screenWidth text p.x p.y := by
    intro p hp
    rcases guiDrawWindow_parts htitle hlength p hp with h | h | h | h | h | h
    · exact .inl (inFrame_of_shadow hoverX hoverY h)
    · exact .inl (inFrame_of_contains hoverX hoverY h)
    · exact drawn_of_fixed (.inr (.inr h)) fun hwidth hheight =>
        inFrame_of_outline hoverX hoverY hwidth hheight h
    · exact drawn_of_fixed (.inl h) fun hwidth hheight =>
        inFrame_of_titleBar hoverX hoverY hwidth hheight h
    · exact .inr (.inl h)
    · exact drawn_of_fixed (.inr (.inl h)) fun hwidth hheight =>
        inFrame_of_closeBox hoverX hoverY hwidth hheight h
  refine ⟨hall, fun v n hv _ px py m hout => vgaGetPixel_drawOn_other hv fun p hp hsame => hout ?_⟩
  rw [hsame.1, hsame.2]
  exact hall p hp

/-! ## Pixels outside -/

/-- A window of the size at the point (100, 100). -/
def windowOfSize (width height : Word) : Gui :=
  ⟨fun _ => ⟨100#32, 100#32, width, height, true, false⟩, 1, -1, 0#32, 0#32⟩

def titled (text : List Byte) : Int → WindowLook := fun _ =>
  ⟨0x3F#8, SHADOW_COLOR, fun i => text.getD i 0#8⟩

/-- A screen of 640 x 480 pixels of one byte. -/
def smallScreen : Vga := ⟨⟨640#32, 480#32, 640#32, 8#32, 0#32⟩, 640#32, 480#32, 0#32, 1#32⟩

theorem smallScreen_ready : smallScreen.Ready 1 :=
  ⟨by decide, rfl, by decide, rfl, by decide, by decide⟩

/-- A point to the right of a window that is large enough, and of its title of two letters,
which reaches over the edge. -/
theorem draw_window_region_large :
    vgaGetPixel smallScreen 126#32 112#32
        (drawOn smallScreen
          (guiDrawWindow 640#32 (windowOfSize 20#32 22#32) (titled [0x4D#8, 0x4D#8]) 0)
          fun _ => 0xFF#8) =
      vgaGetPixel smallScreen 126#32 112#32 fun _ => 0xFF#8 := by
  have hoverX : ((windowOfSize 20#32 22#32).windows 0).x.toNat +
      ((windowOfSize 20#32 22#32).windows 0).width.toNat + 3 < 2 ^ 32 := by decide
  have htitle : 0#8 ∉ [0x4D#8, 0x4D#8] := by decide
  refine (draw_window_region hoverX (by decide) (stringFrom_getD htitle) (by decide)).2 smallScreen 1
    smallScreen_ready rfl _ _ _ ?_
  unfold Drawn InFrame InTitle InTitleBar InCloseBox InOutline InRect OnOutline
  decide

/-- A pixel of a white screen whose last call has another colour. -/
theorem white_changes {α : Type} {d : Logged PixelCall α} {px py : Word} {p : PixelCall}
    (hon : smallScreen.OnScreen px py)
    (hlast : d.log.reverse.find? (fun p => p.x = px ∧ p.y = py) = some p)
    (hcolor : p.color.toNat % 256 ≠ 255) :
    vgaGetPixel smallScreen px py (drawOn smallScreen d fun _ => 0xFF#8) ≠
      vgaGetPixel smallScreen px py fun _ => 0xFF#8 := by
  intro heq
  have hwhite : (vgaGetPixel smallScreen px py fun _ => 0xFF#8).toNat = 255 :=
    vgaGetPixel_toNat smallScreen_ready hon _
  have hdrawn := vgaGetPixel_drawOn (m := fun _ => 0xFF#8) smallScreen_ready hon d
  rw [hlast, heq, hwhite] at hdrawn
  exact hcolor hdrawn.symm

/-- Pixels that change outside the window: by a title of two letters, by the close box of a
window that is 19 points wide, and by the title bar of one that is 21 points high. -/
theorem drawn_outside :
    (¬ InFrame ((windowOfSize 20#32 22#32).windows 0) 124#32 110#32 ∧
        vgaGetPixel smallScreen 124#32 110#32 (drawOn smallScreen
            (guiDrawWindow 640#32 (windowOfSize 20#32 22#32) (titled [0x4D#8, 0x4D#8]) 0)
            fun _ => 0xFF#8) ≠
          vgaGetPixel smallScreen 124#32 110#32 fun _ => 0xFF#8) ∧
      (¬ InFrame ((windowOfSize 19#32 22#32).windows 0) 99#32 107#32 ∧
        vgaGetPixel smallScreen 99#32 107#32 (drawOn smallScreen
            (guiDrawWindow 640#32 (windowOfSize 19#32 22#32) (titled []) 0) fun _ => 0xFF#8) ≠
          vgaGetPixel smallScreen 99#32 107#32 fun _ => 0xFF#8) ∧
      (¬ InFrame ((windowOfSize 20#32 21#32).windows 0) 101#32 124#32 ∧
        vgaGetPixel smallScreen 101#32 124#32 (drawOn smallScreen
            (guiDrawWindow 640#32 (windowOfSize 20#32 21#32) (titled []) 0) fun _ => 0xFF#8) ≠
          vgaGetPixel smallScreen 101#32 124#32 fun _ => 0xFF#8) := by
  refine ⟨⟨by unfold InFrame; decide, ?_⟩, ⟨by unfold InFrame; decide, ?_⟩,
    by unfold InFrame; decide, ?_⟩
  · exact white_changes (p := ⟨124#32, 110#32, 0x00#32⟩) ⟨by decide, by decide⟩ (by decide +kernel)
      (by decide)
  · exact white_changes (p := ⟨99#32, 107#32, 0x0C#32⟩) ⟨by decide, by decide⟩ (by decide +kernel)
      (by decide)
  · exact white_changes (p := ⟨101#32, 124#32, 0x38#32⟩) ⟨by decide, by decide⟩ (by decide +kernel)
      (by decide)

end Zenix
