import Zenix.Drivers.VgaText
import Zenix.Gui.DragWindow
import Zenix.Gui.DrawWindow

/-!
# The picture of a frame (kernel/gui/gui.c)

`gui_update` draws the desktop, the visible windows in their order, the calculator, the
taskbar and the mouse cursor, and then shows the picture. The taskbar starts 28 rows above
the end of the screen and is 24 rows high, so that nothing clears the last four rows. What the
calculator draws is a parameter of the frame.

Results:
1. `cursor_bounds`: the cursor is on the screen, whatever the position of the mouse.
2. `layer_drawFrame`: a frame is made of five layers.
3. `gui_frame`: what is displayed after a frame.
4. `frames_last_rows`: what a run of frames leaves in the last four rows.
-/

namespace Zenix
open ByteMemory Logged

def BG_COLOR : Byte := 0x09#8
def TASKBAR_COLOR : Byte := 0x00#8

/-- "Apps" and "12:34 PM". -/
def appsText : List Byte := [0x41#8, 0x70#8, 0x70#8, 0x73#8]
def clockText : List Byte := [0x31#8, 0x32#8, 0x3A#8, 0x33#8, 0x34#8, 0x20#8, 0x50#8, 0x4D#8]

/-! ## The functions -/

section Functions
variable (screen : Screen)

def guiDrawDesktop : Logged PixelCall Unit :=
  vgaFillRect 0#32 0#32 screen.width (screen.height - 28#32) (BG_COLOR.setWidth 32)

def guiDrawTaskbar : Logged PixelCall Unit := do
  let taskbarY := screen.height - 28#32
  -- "Modern flat taskbar"
  vgaFillRect 0#32 taskbarY screen.width 24#32 (TASKBAR_COLOR.setWidth 32)
  -- "App launcher button (left)"
  vgaFillRect 4#32 (taskbarY + 4#32) 50#32 16#32 (ACCENT_COLOR.setWidth 32)
  let _ ← vgaDrawString screen.width 10#32 (taskbarY + 8#32) appsText 0x3F#32
  -- "System info (right)"
  let _ ← vgaDrawString screen.width (screen.width - 70#32) (taskbarY + 8#32) clockText 0x3F#32

/-- A coordinate of the cursor, kept `margin` points away from the end of the screen. -/
def cursorAxis (size margin p : Word) : Word :=
  let p := if p.slt 0#32 then 0#32 else p
  if (size - margin).sle p then size - (margin + 1#32) else p

/-- The division is signed, unlike the one for clicks. -/
def cursorX (mouse : MouseState) : Word :=
  cursorAxis screen.width 10#32 ((mouse.x * screen.width).sdiv 640#32)

def cursorY (mouse : MouseState) : Word :=
  cursorAxis screen.height 14#32 ((mouse.y * screen.height).sdiv 480#32)

/-- `gui_draw_cursor`; what `last_mouse` is set to is never read. -/
def guiDrawCursor (mouse : MouseState) : Logged PixelCall Unit := do
  let mx := cursorX screen mouse
  let my := cursorY screen mouse
  -- "Shadow"
  (List.range 11).forM fun i =>
    setPixel (mx + 1#32) (my + BitVec.ofNat 32 i + 1#32) (SHADOW_COLOR.setWidth 32)
  -- "White cursor"
  (List.range 11).forM fun i => setPixel mx (my + BitVec.ofNat 32 i) 0x3F#32
  vgaDrawLine mx my (mx + 6#32) (my + 6#32) 0x3F#32

end Functions

/-- What a frame shows. The calculator draws nothing when it is not active. -/
structure Scene where
  mouse : MouseState
  gui : Gui
  looks : Int → WindowLook
  calculator : Logged PixelCall Unit

def Vga.screen (v : Vga) : Screen := ⟨v.width, v.height⟩

/-- The calls of `gui_update` that draw. -/
def drawFrame (screen : Screen) (s : Scene) : Logged PixelCall Unit := do
  guiDrawDesktop screen
  (List.range s.gui.windowCount.toNat).forM fun (i : Nat) =>
    if (s.gui.windows i).visible = true then guiDrawWindow screen.width s.gui s.looks i else pure ()
  -- "Calculator still draws itself"
  s.calculator
  guiDrawTaskbar screen
  guiDrawCursor screen s.mouse

/-- The memory after a frame is drawn and shown. -/
def guiFrame (v : Vga) (s : Scene) (m : Mem) : Mem :=
  vgaSwapBuffers v (drawOn v (drawFrame v.screen s) m)

/-! ## The layers -/

def rectLayer (x y w h color : Word) : Layer (Word × Word) Word :=
  Layer.flat (fun p => InRect x y w h p.1 p.2) color

def textLayer (screenWidth x y : Word) (str : List Byte) (color : Word) : Layer (Word × Word) Word :=
  Layer.flat (fun p => InText screenWidth x y str p.1 p.2) color

def desktopLayer (screen : Screen) : Layer (Word × Word) Word :=
  rectLayer 0#32 0#32 screen.width (screen.height - 28#32) (BG_COLOR.setWidth 32)

def windowLayer (screenWidth : Word) (win : Window) (look : WindowLook) :
    Layer (Word × Word) Word :=
  Layer.stack
    [rectLayer (win.x + 3#32) (win.y + 3#32) win.width win.height (SHADOW_COLOR.setWidth 32),
      rectLayer win.x win.y win.width win.height (look.color.setWidth 32),
      Layer.flat (fun p => OnOutline win.x win.y win.width win.height p.1 p.2)
        (SHADOW_COLOR.setWidth 32),
      rectLayer (win.x + 1#32) (win.y + 1#32) (win.width - 2#32) 24#32 0x38#32,
      textLayer screenWidth (win.x + 10#32) (win.y + 10#32) (cstring look.title 64)
        (TEXT_COLOR.setWidth 32),
      rectLayer (win.x + win.width - 20#32) (win.y + 7#32) 10#32 10#32 (ACCENT_COLOR.setWidth 32)]

/-- The windows, those with the greater index on top. -/
def windowsLayer (screenWidth : Word) (g : Gui) (looks : Int → WindowLook) :
    Layer (Word × Word) Word :=
  Layer.stack ((List.range g.windowCount.toNat).map fun (i : Nat) =>
    if (g.windows i).visible = true then windowLayer screenWidth (g.windows i) (looks i)
    else Layer.empty)

def taskbarLayer (screen : Screen) : Layer (Word × Word) Word :=
  let taskbarY := screen.height - 28#32
  Layer.stack
    [rectLayer 0#32 taskbarY screen.width 24#32 (TASKBAR_COLOR.setWidth 32),
      rectLayer 4#32 (taskbarY + 4#32) 50#32 16#32 (ACCENT_COLOR.setWidth 32),
      textLayer screen.width 10#32 (taskbarY + 8#32) appsText 0x3F#32,
      textLayer screen.width (screen.width - 70#32) (taskbarY + 8#32) clockText 0x3F#32]

def cursorLayer (screen : Screen) (mouse : MouseState) : Layer (Word × Word) Word :=
  let mx := cursorX screen mouse
  let my := cursorY screen mouse
  Layer.stack
    [rectLayer (mx + 1#32) (my + 1#32) 1#32 11#32 (SHADOW_COLOR.setWidth 32),
      rectLayer mx my 1#32 11#32 0x3F#32,
      Layer.flat (fun p => OnDiagonal mx my 6 p.1 p.2) 0x3F#32]

def sceneLayer (screen : Screen) (s : Scene) : Layer (Word × Word) Word :=
  Layer.stack [desktopLayer screen, windowsLayer screen.width s.gui s.looks, layer s.calculator,
    taskbarLayer screen, cursorLayer screen s.mouse]

/-- The screens on which the cursor has room. Below 2^24 the floats of `vga_draw_line` are
the exact numbers that the line is drawn with here. -/
structure Screen.Large (screen : Screen) : Prop where
  width : 11 ≤ screen.width.toNat ∧ screen.width.toNat < 2 ^ 24
  height : 15 ≤ screen.height.toNat ∧ screen.height.toNat < 2 ^ 24

section Cursor
variable {screen : Screen}

theorem cursorAxis_bounds {size margin p : Word} (hmargin : margin.toNat < size.toNat)
    (hsize : size.toNat < 2 ^ 31) : (cursorAxis size margin p).toNat + margin.toNat < size.toNat := by
  have hend : (size - margin).toNat = size.toNat - margin.toNat :=
    BitVec.toNat_sub_of_le (BitVec.le_def.mpr (Nat.le_of_lt hmargin))
  have hnext : (margin + 1#32).toNat = margin.toNat + 1 :=
    toNat_add_of_lt (by rw [BitVec.toNat_ofNat]; omega)
  have hlast : (size - (margin + 1#32)).toNat = size.toNat - (margin.toNat + 1) := by
    rw [← hnext]
    exact BitVec.toNat_sub_of_le (BitVec.le_def.mpr (by rw [hnext]; exact hmargin))
  have hpos : 0 ≤ (if p.slt 0#32 then 0#32 else p).toInt := by
    rw [keepPositive_toInt]
    exact Int.le_max_left _ _
  unfold cursorAxis
  dsimp only
  generalize (if p.slt 0#32 then 0#32 else p) = q at hpos ⊢
  split
  next =>
    rw [hlast]
    omega
  next hbefore =>
    rw [BitVec.sle_iff_toInt_le, toInt_small (by omega), hend, not_le] at hbefore
    have hnat : q.toInt = q.toNat := BitVec.toInt_eq_toNat_of_lt (BitVec.toInt_pos_iff.mp hpos)
    omega

/-- The cursor is on the screen, whatever the position of the mouse is. -/
theorem cursor_bounds (h : screen.Large) (mouse : MouseState) :
    (cursorX screen mouse).toNat + 11 ≤ screen.width.toNat ∧
      (cursorY screen mouse).toNat + 15 ≤ screen.height.toNat :=
  ⟨cursorAxis_bounds h.width.1 (h.width.2.trans (by decide)),
    cursorAxis_bounds h.height.1 (h.height.2.trans (by decide))⟩

theorem sub_lt_one_iff {a p : Word} : p - a < 1#32 ↔ p = a := by
  rw [sub_lt_iff]
  constructor
  · rintro ⟨i, hi, rfl⟩
    rw [Nat.lt_one_iff.mp hi]
    exact BitVec.add_zero a
  · rintro rfl
    exact ⟨0, Nat.one_pos, (BitVec.add_zero p).symm⟩

/-- A column of points. -/
theorem layer_column (x y color : Word) {n : Nat} (hn : n < 2 ^ 32) (f : Nat → Word)
    (hf : ∀ i, f i = y + BitVec.ofNat 32 i) :
    layer ((List.range n).forM fun i => setPixel x (f i) color) =
      rectLayer x y 1#32 (BitVec.ofNat 32 n) color := by
  refine layer_eq_flat fun p => ?_
  rw [InRect, sub_lt_one_iff, sub_lt_iff, toNat_ofNat_of_lt hn]
  simp only [log_forM, List.mem_flatMap, List.mem_range, mem_setPixel, hf]
  constructor
  · rintro ⟨i, hi, rfl⟩
    exact ⟨⟨rfl, i, hi, rfl⟩, rfl⟩
  · obtain ⟨px, py, c⟩ := p
    rintro ⟨⟨rfl, i, hi, rfl⟩, rfl⟩
    exact ⟨i, hi, rfl⟩

theorem layer_guiDrawCursor (h : screen.Large) (mouse : MouseState) :
    layer (guiDrawCursor screen mouse) = cursorLayer screen mouse := by
  obtain ⟨hx, hy⟩ := cursor_bounds h mouse
  have hwidth := h.width.2
  have hheight := h.height.2
  have hline := layer_diagonal (cursorX screen mouse) (cursorY screen mouse) 0x3F#32
    (by decide : 0 < 6) (by decide) (by omega) (by omega)
  have hshadow := layer_column (cursorX screen mouse + 1#32) (cursorY screen mouse + 1#32)
    (SHADOW_COLOR.setWidth 32) (by decide : 11 < 2 ^ 32)
    (fun i => cursorY screen mouse + BitVec.ofNat 32 i + 1#32)
    fun i => by rw [BitVec.add_assoc, BitVec.add_comm (BitVec.ofNat 32 i), ← BitVec.add_assoc]
  have hwhite := layer_column (cursorX screen mouse) (cursorY screen mouse) 0x3F#32
    (by decide : 11 < 2 ^ 32) (fun i => cursorY screen mouse + BitVec.ofNat 32 i) fun _ => rfl
  unfold guiDrawCursor cursorLayer
  simp only [layer_bind, hshadow, hwhite]
  rw [Layer.stack, Layer.stack, Layer.stack, Layer.stack, Layer.empty_overlay, ← hline]

end Cursor

/-! ## The picture -/

section Frame
variable {screen : Screen}

theorem layer_guiDrawWindow {g : Gui} {looks : Int → WindowLook} {i : Nat}
    (hi : i < g.windowCount.toNat) (hvisible : (g.windows i).visible = true) :
    layer (guiDrawWindow screen.width g looks i) = windowLayer screen.width (g.windows i) (looks i) := by
  have hrange : ¬ ((i : Int) < 0 ∨ g.windowCount ≤ i ∨ (g.windows i).visible = false) := by
    rintro (hneg | hout | hhidden)
    · omega
    · omega
    · rw [hvisible] at hhidden
      cases hhidden
  unfold guiDrawWindow windowLayer
  rw [if_neg hrange]
  simp only [layer_bind, layer_vgaFillRect, layer_vgaDrawRect, layer_vgaDrawString (cstring_nul _ _),
    Layer.stack, Layer.empty_overlay, rectLayer, textLayer]

theorem layer_drawFrame (h : screen.Large) (s : Scene) :
    layer (drawFrame screen s) = sceneLayer screen s := by
  have hwindows : layer ((List.range s.gui.windowCount.toNat).forM fun (i : Nat) =>
      if (s.gui.windows i).visible = true then guiDrawWindow screen.width s.gui s.looks i
      else pure ()) = windowsLayer screen.width s.gui s.looks := by
    rw [layer_forM]
    refine congrArg Layer.stack (List.map_congr_left fun i hi => ?_)
    split
    next hvisible => exact layer_guiDrawWindow (List.mem_range.mp hi) hvisible
    next => exact layer_pure ()
  have htaskbar : layer (guiDrawTaskbar screen) = taskbarLayer screen := by
    unfold guiDrawTaskbar taskbarLayer
    simp only [layer_bind, layer_pure, layer_vgaFillRect,
      layer_vgaDrawString (by decide : 0#8 ∉ appsText),
      layer_vgaDrawString (by decide : 0#8 ∉ clockText), Layer.stack, Layer.empty_overlay, rectLayer,
      textLayer]
  have hdesktop : layer (guiDrawDesktop screen) = desktopLayer screen := layer_vgaFillRect ..
  unfold drawFrame sceneLayer
  simp only [layer_bind, hdesktop, hwindows, htaskbar, layer_guiDrawCursor h, Layer.stack,
    Layer.empty_overlay, Layer.overlay_assoc]

theorem sub_toNat_of_le {a p : Word} (h : a.toNat ≤ p.toNat) : (p - a).toNat = p.toNat - a.toNat :=
  BitVec.toNat_sub_of_le (BitVec.le_def.mpr h)

/-- The first row of the taskbar. -/
theorem taskbarY_toNat (hbar : 28 ≤ screen.height.toNat) :
    (screen.height - 28#32).toNat = screen.height.toNat - 28 := sub_toNat_of_le hbar

/-- The desktop and the taskbar fill all rows but the last four. -/
theorem scene_covers (s : Scene) {px py : Word} (hx : px < screen.width)
    (hy : py.toNat + 4 < screen.height.toNat) : ∃ c, sceneLayer screen s (px, py) = some c := by
  by_contra hnone
  have hall := Layer.stack_eq_none_iff.mp (Option.eq_none_iff_forall_ne_some.mpr fun c hc =>
    hnone ⟨c, hc⟩ : sceneLayer screen s (px, py) = none)
  have hdesktop := Layer.flat_eq_none_iff.mp (hall _ List.mem_cons_self)
  have htaskbar := Layer.flat_eq_none_iff.mp (Layer.stack_eq_none_iff.mp
    (hall (taskbarLayer screen) (by simp)) _ List.mem_cons_self)
  have hleft : px - 0#32 < screen.width := by rwa [BitVec.sub_zero]
  by_cases habove : py.toNat < (screen.height - 28#32).toNat
  · exact hdesktop ⟨hleft, by rw [BitVec.sub_zero]; exact habove⟩
  · have hwrap := BitVec.toNat_sub screen.height 28#32
    have hbits : (28#32).toNat = 28 := rfl
    have htop : (screen.height - 28#32).toNat = screen.height.toNat - 28 :=
      taskbarY_toNat (by omega)
    have hrow : (py - (screen.height - 28#32)).toNat = py.toNat - (screen.height.toNat - 28) := by
      rw [sub_toNat_of_le (Nat.le_of_not_lt habove), htop]
    refine htaskbar ⟨hleft, ?_⟩
    show (py - (screen.height - 28#32)).toNat < 24
    omega

theorem not_in_rows {a n p : Word} (h : a.toNat + n.toNat ≤ p.toNat) : ¬ p - a < n := by
  rw [BitVec.not_lt, BitVec.le_def, sub_toNat_of_le ((Nat.le_add_right _ _).trans h)]
  exact Nat.le_sub_of_add_le' h

/-- The rows of a text. -/
theorem not_inText {screenWidth x y px py : Word} {str : List Byte} (h : y.toNat + 16 ≤ py.toNat) :
    ¬ InText screenWidth x y str px py := by
  rintro ⟨i, _, _, _, hrow, _⟩
  have hside : charSide screenWidth ≤ 16 := Nat.mul_le_mul_left 8 (charScale_le screenWidth)
  rw [sub_toNat_of_le ((Nat.le_add_right _ _).trans h)] at hrow
  omega

theorem taskbarRow_toNat (hbar : 28 ≤ screen.height.toNat) {k : Nat} (hk : k < 28) :
    (screen.height - 28#32 + BitVec.ofNat 32 k).toNat = screen.height.toNat - 28 + k := by
  have htop := taskbarY_toNat hbar
  have hheight := screen.height.isLt
  rw [toNat_add_ofNat (by omega), htop]

/-- A row that meets neither the bar, nor its button, nor the texts. -/
theorem taskbarLayer_eq_none {px py : Word} (hrows : ¬ py - (screen.height - 28#32) < 24#32)
    (hbutton : ¬ py - (screen.height - 28#32 + 4#32) < 16#32)
    (htext : ∀ x str, ¬ InText screen.width x (screen.height - 28#32 + 8#32) str px py) :
    taskbarLayer screen (px, py) = none := by
  refine Layer.stack_eq_none_iff.mpr fun part hpart => ?_
  simp only [List.mem_cons, List.not_mem_nil, or_false] at hpart
  rcases hpart with rfl | rfl | rfl | rfl
  · exact Layer.flat_eq_none_iff.mpr fun h => hrows h.2
  · exact Layer.flat_eq_none_iff.mpr fun h => hbutton h.2
  · exact Layer.flat_eq_none_iff.mpr (htext _ _)
  · exact Layer.flat_eq_none_iff.mpr (htext _ _)

theorem taskbar_last_rows (hbar : 28 ≤ screen.height.toNat) {px py : Word}
    (hlast : screen.height.toNat ≤ py.toNat + 4) : taskbarLayer screen (px, py) = none := by
  have htop := taskbarY_toNat hbar
  have hbutton := taskbarRow_toNat hbar (by decide : 4 < 28)
  have htext := taskbarRow_toNat hbar (by decide : 8 < 28)
  refine taskbarLayer_eq_none (not_in_rows ?_) (not_in_rows ?_) fun x str => not_inText ?_
  · show (screen.height - 28#32).toNat + 24 ≤ py.toNat
    omega
  · show (screen.height - 28#32 + 4#32).toNat + 16 ≤ py.toNat
    omega
  · show (screen.height - 28#32 + 8#32).toNat + 16 ≤ py.toNat
    omega

/-- The end of the shadow is the only part of the cursor in the last four rows. -/
theorem cursor_last_rows (h : screen.Large) (mouse : MouseState) {px py : Word}
    (hy : py < screen.height) (hlast : screen.height.toNat ≤ py.toNat + 4) :
    cursorLayer screen mouse (px, py) =
      if px = cursorX screen mouse + 1#32 ∧ py = cursorY screen mouse + 11#32 then
        some (SHADOW_COLOR.setWidth 32)
      else none := by
  obtain ⟨hx, hbottom⟩ := cursor_bounds h mouse
  have hheight := h.height.2
  have hcolumn : rectLayer (cursorX screen mouse) (cursorY screen mouse) 1#32 11#32 0x3F#32 (px, py) =
      none := by
    refine Layer.flat_eq_none_iff.mpr fun hin => not_in_rows ?_ hin.2
    show (cursorY screen mouse).toNat + 11 ≤ py.toNat
    omega
  have hdiagonal : Layer.flat (fun p : Word × Word =>
      OnDiagonal (cursorX screen mouse) (cursorY screen mouse) 6 p.1 p.2) 0x3F#32 (px, py) = none := by
    refine Layer.flat_eq_none_iff.mpr ?_
    rintro ⟨i, hi, _, hrow : py = _⟩
    have hle := List.mem_range.mp hi
    rw [hrow, toNat_add_ofNat (by omega)] at hlast
    omega
  have hshadow : InRect (cursorX screen mouse + 1#32) (cursorY screen mouse + 1#32) 1#32 11#32 px py ↔
      px = cursorX screen mouse + 1#32 ∧ py = cursorY screen mouse + 11#32 := by
    have htop : (cursorY screen mouse + 1#32).toNat = (cursorY screen mouse).toNat + 1 :=
      toNat_add_ofNat (by omega)
    have hend : (cursorY screen mouse + 11#32).toNat = (cursorY screen mouse).toNat + 11 :=
      toNat_add_ofNat (by omega)
    refine and_congr sub_lt_one_iff ?_
    rw [BitVec.lt_def, sub_toNat_of_le (by omega), htop, ← BitVec.toNat_inj, hend]
    have hrows : (11#32).toNat = 11 := rfl
    have hlow : py.toNat < screen.height.toNat := hy
    omega
  unfold cursorLayer
  simp only [Layer.stack, Layer.overlay, Layer.empty, hcolumn, hdiagonal, Option.none_or]
  exact if_congr hshadow rfl rfl

/-- In the last four rows there is nothing of the desktop and the taskbar, and of the cursor
only the end of its shadow. -/
theorem scene_last_rows (h : screen.Large) (hbar : 28 ≤ screen.height.toNat) {s : Scene}
    {px py : Word} (hy : py < screen.height) (hlast : screen.height.toNat ≤ py.toNat + 4)
    (hwindows : windowsLayer screen.width s.gui s.looks (px, py) = none)
    (hcalculator : layer s.calculator (px, py) = none) :
    sceneLayer screen s (px, py) =
      if px = cursorX screen s.mouse + 1#32 ∧ py = cursorY screen s.mouse + 11#32 then
        some (SHADOW_COLOR.setWidth 32)
      else none := by
  have hdesktop : desktopLayer screen (px, py) = none := by
    refine Layer.flat_eq_none_iff.mpr fun hin => not_in_rows ?_ hin.2
    have htop := taskbarY_toNat hbar
    show 0 + (screen.height - 28#32).toNat ≤ py.toNat
    omega
  have htaskbar : taskbarLayer screen (px, py) = none := taskbar_last_rows hbar hlast
  rw [← cursor_last_rows h s.mouse hy hlast, sceneLayer]
  simp only [Layer.stack, Layer.overlay, Layer.empty, hdesktop, hwindows, hcalculator, htaskbar,
    Option.none_or, Option.or_none]

end Frame

/-! ## Frames in a row -/

section Runs
variable {v : Vga} {n : Nat} {px py : Word}

/-- The memory after some frames. -/
def showFrames (v : Vga) (scenes : List Scene) (m : Mem) : Mem :=
  scenes.foldl (fun m s => guiFrame v s m) m

/-- Each frame is put over the picture that was there. -/
theorem frames_layer (hv : v.Ready n) (hbuffers : v.Buffers) (hlarge : v.screen.Large)
    (hon : v.OnScreen px py) (scenes : List Scene) (m : Mem) :
    (vgaGetPixel v px py (showFrames v scenes m)).toNat =
      ((Layer.stack (scenes.map (sceneLayer v.screen)) (px, py)).map
        fun c : Word => c.toNat % 2 ^ (8 * n)).getD (vgaGetPixel v px py m).toNat := by
  induction scenes generalizing m with
  | nil => rfl
  | cons s scenes ih =>
    have hframe : (vgaGetPixel v px py (guiFrame v s m)).toNat =
        ((sceneLayer v.screen s (px, py)).map fun c : Word => c.toNat % 2 ^ (8 * n)).getD
          (vgaGetPixel v px py m).toNat := by
      rw [guiFrame, back_swap hv hbuffers, vgaGetPixel_layer hv hon, layer_drawFrame hlarge]
    show (vgaGetPixel v px py (showFrames v scenes (guiFrame v s m))).toNat = _
    rw [ih, hframe, List.map_cons, Layer.stack, Layer.overlay]
    cases Layer.stack (scenes.map (sceneLayer v.screen)) (px, py) with
    | some c => rfl
    | none => rfl

theorem shown_frames (hv : v.Ready n) (hbuffers : v.Buffers) {scenes : List Scene}
    (hne : scenes ≠ []) (m : Mem) :
    vgaGetPixel v.shown px py (showFrames v scenes m) =
      vgaGetPixel v px py (showFrames v scenes m) := by
  obtain ⟨before, s, rfl⟩ := List.eq_nil_or_concat'  scenes |>.resolve_left hne
  rw [showFrames, List.foldl_concat, guiFrame, shown_swap hv hbuffers, back_swap hv hbuffers]

/-- What the last frame paints is shown. -/
theorem shown_scene (hv : v.Ready n) (hbuffers : v.Buffers) (hlarge : v.screen.Large)
    (hon : v.OnScreen px py) (scenes : List Scene) {s : Scene} {c : Word}
    (hc : sceneLayer v.screen s (px, py) = some c) (m : Mem) :
    (vgaGetPixel v.shown px py (showFrames v (scenes ++ [s]) m)).toNat =
      c.toNat % 2 ^ (8 * n) := by
  have htop : Layer.stack ((scenes ++ [s]).map (sceneLayer v.screen)) (px, py) = some c := by
    rw [List.map_append, List.map_singleton]
    exact Layer.stack_eq_some_iff.mpr
      ⟨_, sceneLayer v.screen s, [], rfl, hc, fun _ h => absurd h List.not_mem_nil⟩
  rw [shown_frames hv hbuffers (by simp), frames_layer hv hbuffers hlarge hon, htop]
  rfl

/-- Above the last four rows the display shows the last frame, whatever was there before:
the cursor, below it the taskbar, the calculator, the windows and the desktop. -/
theorem gui_frame (hv : v.Ready n) (hbuffers : v.Buffers) (hlarge : v.screen.Large)
    (scenes : List Scene) (s : Scene) (m : Mem) (hx : px < v.width)
    (hy : py.toNat + 4 < v.height.toNat) :
    ∃ c, sceneLayer v.screen s (px, py) = some c ∧
      (vgaGetPixel v.shown px py (showFrames v (scenes ++ [s]) m)).toNat =
        c.toNat % 2 ^ (8 * n) := by
  have hon : v.OnScreen px py := ⟨hx, BitVec.lt_def.mpr (by omega)⟩
  obtain ⟨c, hc⟩ : ∃ c, sceneLayer v.screen s (px, py) = some c := scene_covers s hx hy
  exact ⟨c, hc, shown_scene hv hbuffers hlarge hon scenes hc m⟩

/-- A desktop without windows. -/
def emptyScene (x y : Word) : Scene :=
  ⟨⟨x, y, 0#8⟩, ⟨fun _ => ⟨0#32, 0#32, 0#32, 0#32, false, false⟩, 0, -1, 0#32, 0#32⟩, titled [], pure ()⟩

/-- Two windows, the second over a part of the first. -/
def overlappingScene : Scene :=
  ⟨⟨320#32, 240#32, 0#8⟩,
    ⟨fun i => if i = 0 then ⟨100#32, 100#32, 200#32, 150#32, true, false⟩
      else ⟨150#32, 130#32, 200#32, 150#32, true, false⟩, 2, 1, 0#32, 0#32⟩,
    fun i => ⟨if i = 0 then 0x3F#8 else 0x2A#8, SHADOW_COLOR, fun _ => 0#8⟩, pure ()⟩

theorem smallScreen_large : smallScreen.screen.Large := ⟨by decide, by decide⟩

/-- A point of both windows, after the frame of an empty desktop. -/
theorem gui_frame_overlap :
    (vgaGetPixel smallScreen.shown 200#32 200#32
      (showFrames smallScreen ([emptyScene 200#32 200#32] ++ [overlappingScene])
        fun _ => 0xFF#8)).toNat = 0x2A := by
  obtain ⟨c, hc, hshown⟩ := @gui_frame smallScreen 1 200#32 200#32 smallScreen_ready (.inl rfl)
    smallScreen_large [emptyScene 200#32 200#32] overlappingScene (fun _ => 0xFF#8) (by decide)
    (by decide)
  have htop : sceneLayer smallScreen.screen overlappingScene (200#32, 200#32) = some 0x2A#32 := by
    decide +kernel
  rw [hshown, Option.some.inj (hc.symm.trans htop)]
  rfl

/-- Where no window and no calculator is drawn, frames change nothing in the last four rows
but the points below a cursor at the bottom of the screen. Their colour stays when the
cursor has moved. -/
theorem frames_last_rows (hv : v.Ready n) (hbuffers : v.Buffers) (hlarge : v.screen.Large)
    (hbar : 28 ≤ v.height.toNat) {scenes : List Scene} (hne : scenes ≠ []) (m : Mem)
    (hon : v.OnScreen px py) (hlast : v.height.toNat ≤ py.toNat + 4)
    (hwindows : ∀ s ∈ scenes, windowsLayer v.width s.gui s.looks (px, py) = none)
    (hcalculator : ∀ s ∈ scenes, layer s.calculator (px, py) = none) :
    (vgaGetPixel v.shown px py (showFrames v scenes m)).toNat =
      if ∃ s ∈ scenes, px = cursorX v.screen s.mouse + 1#32 ∧ py = cursorY v.screen s.mouse + 11#32
      then 8
      else (vgaGetPixel v px py m).toNat := by
  have hrow : ∀ s ∈ scenes, sceneLayer v.screen s (px, py) =
      if px = cursorX v.screen s.mouse + 1#32 ∧ py = cursorY v.screen s.mouse + 11#32 then
        some (SHADOW_COLOR.setWidth 32)
      else none :=
    fun s hs => scene_last_rows hlarge hbar hon.2 hlast (hwindows s hs) (hcalculator s hs)
  have hcolor : ∀ layer ∈ scenes.map (sceneLayer v.screen), ∀ c : Word,
      layer (px, py) = some c → c = SHADOW_COLOR.setWidth 32 := by
    rintro layer hlayer c hc
    obtain ⟨s, hs, rfl⟩ := List.mem_map.mp hlayer
    rw [hrow s hs, Option.ite_none_right_eq_some, Option.some_inj] at hc
    exact hc.2.symm
  have hstack := Layer.stack_eq_some_iff_exists hcolor
  have hsome : (∃ layer ∈ scenes.map (sceneLayer v.screen),
      layer (px, py) = some (SHADOW_COLOR.setWidth 32)) ↔
        ∃ s ∈ scenes, px = cursorX v.screen s.mouse + 1#32 ∧
          py = cursorY v.screen s.mouse + 11#32 := by
    simp only [List.mem_map, exists_exists_and_eq_and]
    refine exists_congr fun s => and_congr_right fun hs => ?_
    rw [hrow s hs, Option.ite_none_right_eq_some]
    exact and_iff_left rfl
  rw [shown_frames hv hbuffers hne, frames_layer hv hbuffers hlarge hon]
  split
  next hshadow =>
    have hbits : 2 ^ 8 ≤ 2 ^ (8 * n) :=
      Nat.pow_le_pow_right (by decide) (Nat.le_mul_of_pos_right 8 hv.bytes.1)
    rw [hstack.mpr (hsome.mpr hshadow)]
    exact Nat.mod_eq_of_lt (Nat.lt_of_lt_of_le (by decide) hbits)
  next hquiet =>
    have hnone : Layer.stack (scenes.map (sceneLayer v.screen)) (px, py) = none := by
      refine Layer.stack_eq_none_iff.mpr fun layer hlayer => ?_
      refine Option.eq_none_iff_forall_ne_some.mpr fun c hc => hquiet (hsome.mp ⟨layer, hlayer, ?_⟩)
      rw [hc, hcolor layer hlayer c hc]
    rw [hnone]
    rfl

/-- The cursor was at the bottom of the screen and is at the top again. -/
theorem frames_last_rows_trail :
    (vgaGetPixel smallScreen.shown 101#32 476#32
      (showFrames smallScreen [emptyScene 100#32 479#32, emptyScene 100#32 0#32]
        fun _ => 0xFF#8)).toNat = 8 := by
  refine (@frames_last_rows smallScreen 1 101#32 476#32 smallScreen_ready (.inl rfl)
    smallScreen_large (by decide) [emptyScene 100#32 479#32, emptyScene 100#32 0#32]
    (List.cons_ne_nil _ _) (fun _ => 0xFF#8) ⟨by decide, by decide⟩ (by decide) ?_ ?_).trans
    (if_pos ⟨emptyScene 100#32 479#32, List.mem_cons_self, by decide, by decide⟩)
  · intro s hs
    simp only [List.mem_cons, List.not_mem_nil, or_false] at hs
    rcases hs with rfl | rfl
    · rfl
    · rfl
  · intro s hs
    simp only [List.mem_cons, List.not_mem_nil, or_false] at hs
    rcases hs with rfl | rfl
    · rfl
    · rfl

end Runs

end Zenix
