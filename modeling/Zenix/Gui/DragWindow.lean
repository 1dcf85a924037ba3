import Zenix.Gui.Gui

/-!
# Does a dragged window stay on the desktop? (kernel/gui/gui.c)

`gui_handle_mouse_drag` moves the window with the mouse and takes its position back into
the screen, first at the left and the top and then at the right and the bottom. The test
at the bottom compares with the width of the screen. The position that it stores there is
taken from the height, and so is the test in `calculator_update` for the calculator.

Results:
1. `axis_toInt`: the position along one axis.
2. `drag_stays_iff`: exactly when the window stays on the desktop.
-/

namespace Zenix
open ByteMemory

/-- The sizes and positions that occur, with a window that is being dragged and fits. -/
structure Draggable (screen : Screen) (mx my : Word) (g : Gui) : Prop where
  width_lt : screen.width.toNat < 2 ^ 15
  height_lt : screen.height.toNat < 2 ^ 15
  taskbar : 28 < screen.height.toNat
  dragging : 0 ≤ g.draggingWindow
  fitsX : (g.windows g.draggingWindow).width.toNat ≤ screen.width.toNat
  fitsY : (g.windows g.draggingWindow).height.toNat ≤ screen.height.toNat - 28
  offsetX : -2 ^ 16 < g.dragOffsetX.toInt ∧ g.dragOffsetX.toInt < 2 ^ 16
  offsetY : -2 ^ 16 < g.dragOffsetY.toInt ∧ g.dragOffsetY.toInt < 2 ^ 16
  mouseX : mx.toNat < 640
  mouseY : my.toNat < 480

/-- The dragged window is above the taskbar and inside the screen, and the others are where
they were. -/
structure StaysOnDesktop (screen : Screen) (g t : Gui) : Prop where
  left : 0 ≤ (t.windows g.draggingWindow).x.toInt
  top : 0 ≤ (t.windows g.draggingWindow).y.toInt
  right : (t.windows g.draggingWindow).x.toInt + (t.windows g.draggingWindow).width.toNat ≤
    screen.width.toNat
  bottom : (t.windows g.draggingWindow).y.toInt + (t.windows g.draggingWindow).height.toNat ≤
    screen.height.toNat - 28
  others : ∀ i, i ≠ g.draggingWindow → t.windows i = g.windows i

/-- Where the mouse takes the top of the window, not above the screen. -/
def draggedTop (screen : Screen) (my : Word) (g : Gui) : Int :=
  max 0 ((my.toNat * screen.height.toNat / 480 : Nat) - g.dragOffsetY.toInt)

/-! ## One axis -/

section Axis
variable {p : Word}

theorem toInt_small (h : p.toNat < 2 ^ 31) : p.toInt = p.toNat :=
  BitVec.toInt_eq_toNat_of_lt (by omega)

/-- A position of the mouse on an axis of the screen. -/
theorem scaled_toNat {mouse size : Word} {n : Nat} (hn : 0 < n) (hmouse : mouse.toNat < n)
    (hsize : size.toNat < 2 ^ 15) (hfew : n ≤ 640) :
    (mouse * size / BitVec.ofNat 32 n).toNat = mouse.toNat * size.toNat / n := by
  have hproduct : mouse.toNat * size.toNat < 640 * 2 ^ 15 :=
    Nat.mul_lt_mul_of_le_of_lt (by omega) hsize (by decide)
  rw [BitVec.toNat_udiv, BitVec.toNat_mul, BitVec.toNat_ofNat, Nat.mod_eq_of_lt (by omega),
    Nat.mod_eq_of_lt (by omega)]

theorem keepPositive_toInt (p : Word) :
    (if p.slt 0#32 then 0#32 else p).toInt = max 0 p.toInt := by
  have hslt : p.slt 0#32 = true ↔ p.toInt < 0 := BitVec.slt_iff_toInt_lt
  by_cases hneg : p.toInt < 0
  · rw [if_pos (hslt.mpr hneg), Int.max_eq_left (Int.le_of_lt hneg)]
    rfl
  · rw [if_neg (mt hslt.mp hneg), Int.max_eq_right (Int.not_lt.mp hneg)]

/-- The position along an axis, when the test compares with `limit` and then stores
`corner`. -/
theorem axis_toInt (limit corner : Word) {offset size : Word} (hp : p.toNat < 2 ^ 15)
    (hoffset : -2 ^ 16 < offset.toInt ∧ offset.toInt < 2 ^ 16) (hsize : size.toNat < 2 ^ 15) :
    let start := if (p - offset).slt 0#32 then 0#32 else p - offset
    (if limit.slt (start + size) then corner else start).toInt =
      if limit.toInt < max 0 (p.toNat - offset.toInt) + size.toNat then corner.toInt
      else max 0 (p.toNat - offset.toInt) := by
  intro start
  have hpoint := toInt_small (p := p) (by omega)
  have hextent := toInt_small (p := size) (by omega)
  have hstart : start.toInt = max 0 (p.toNat - offset.toInt) := by
    rw [← hpoint, ← toInt_sub_small (by omega) (by omega)]
    exact keepPositive_toInt (p - offset)
  have hend : (start + size).toInt = max 0 (p.toNat - offset.toInt) + size.toNat := by
    rw [toInt_add_small (by omega) (by omega), hstart, hextent]
  have hslt : limit.slt (start + size) = true ↔
      limit.toInt < max 0 (p.toNat - offset.toInt) + size.toNat := by
    rw [BitVec.slt_iff_toInt_lt, hend]
  by_cases hover : limit.toInt < max 0 (p.toNat - offset.toInt) + size.toNat
  · rw [if_pos (hslt.mpr hover), if_pos hover]
  · rw [if_neg (mt hslt.mp hover), if_neg hover, hstart]

end Axis

/-! ## The property -/

section Drag
variable {screen : Screen} {mx my : Word} {g : Gui}

theorem Draggable.point (h : Draggable screen mx my g) :
    (screenX screen mx).toNat = mx.toNat * screen.width.toNat / 640 ∧
      (screenY screen my).toNat = my.toNat * screen.height.toNat / 480 ∧
      (screenX screen mx).toNat < 2 ^ 15 ∧ (screenY screen my).toNat < 2 ^ 15 := by
  have hx := scaled_toNat (n := 640) (by decide) h.mouseX h.width_lt (Nat.le_refl _)
  have hy := scaled_toNat (n := 480) (by decide) h.mouseY h.height_lt (by decide)
  have hxlt : mx.toNat * screen.width.toNat / 640 < 2 ^ 15 :=
    Nat.div_lt_of_lt_mul (Nat.mul_lt_mul_of_lt_of_le h.mouseX (Nat.le_of_lt h.width_lt) (by decide))
  have hylt : my.toNat * screen.height.toNat / 480 < 2 ^ 15 :=
    Nat.div_lt_of_lt_mul (Nat.mul_lt_mul_of_lt_of_le h.mouseY (Nat.le_of_lt h.height_lt) (by decide))
  exact ⟨hx, hy, hx ▸ hxlt, hy ▸ hylt⟩

theorem Draggable.sizes (h : Draggable screen mx my g) :
    screen.width.toInt = screen.width.toNat ∧
      (screen.width - 28#32).toInt = screen.width.toNat - 28 ∧
      (screen.width - (g.windows g.draggingWindow).width).toInt =
        screen.width.toNat - (g.windows g.draggingWindow).width.toNat ∧
      (screen.height - 28#32 - (g.windows g.draggingWindow).height).toInt =
        screen.height.toNat - 28 - (g.windows g.draggingWindow).height.toNat := by
  obtain ⟨hW, hH, hbar, _, hfitsX, hfitsY, _, _, _, _⟩ := h
  have hwidth := toInt_small (p := screen.width) (by omega)
  have hheight := toInt_small (p := screen.height) (by omega)
  have hw := toInt_small (p := (g.windows g.draggingWindow).width) (by omega)
  have hh := toInt_small (p := (g.windows g.draggingWindow).height) (by omega)
  have hbarSize : (28#32).toInt = 28 := rfl
  have hfloor : (screen.height - 28#32).toInt = screen.height.toNat - 28 := by
    rw [toInt_sub_small (by omega) (by omega), hheight, hbarSize]
  refine ⟨hwidth, ?_, ?_, ?_⟩
  · rw [toInt_sub_small (by omega) (by omega), hwidth, hbarSize]
  · rw [toInt_sub_small (by omega) (by omega), hwidth, hw]
  · rw [toInt_sub_small (by omega) (by omega), hfloor, hh]

/-- Where the drag puts the window. -/
theorem guiHandleMouseDrag_window (h : Draggable screen mx my g) :
    ∃ x y : Word,
      (guiHandleMouseDrag screen mx my g).windows = Function.update g.windows g.draggingWindow
        { g.windows g.draggingWindow with x := x, y := y } ∧
      0 ≤ x.toInt ∧
      x.toInt + (g.windows g.draggingWindow).width.toNat ≤ screen.width.toNat ∧
      y.toInt =
        if (screen.width.toNat : Int) - 28 <
            draggedTop screen my g + (g.windows g.draggingWindow).height.toNat then
          (screen.height.toNat : Int) - 28 - (g.windows g.draggingWindow).height.toNat
        else draggedTop screen my g := by
  obtain ⟨_, hpointY, hltX, hltY⟩ := h.point
  obtain ⟨hW, hW28, hcornerX, hcornerY⟩ := h.sizes
  have hwidth := Nat.lt_of_le_of_lt h.fitsX h.width_lt
  have hheight := Nat.lt_of_le_of_lt (Nat.le_trans h.fitsY (Nat.sub_le _ _)) h.height_lt
  have hx := axis_toInt screen.width (screen.width - (g.windows g.draggingWindow).width) hltX
    h.offsetX hwidth
  have hy := axis_toInt (screen.width - 28#32)
    (screen.height - 28#32 - (g.windows g.draggingWindow).height) hltY h.offsetY hheight
  have hfits := h.fitsX
  rw [hcornerX, hW] at hx
  rw [hcornerY, hW28, hpointY] at hy
  rw [guiHandleMouseDrag, if_neg (Int.not_lt.mpr h.dragging)]
  refine ⟨_, _, rfl, ?_, ?_, hy⟩
  · rw [hx]
    split
    · omega
    · exact Int.le_max_left _ _
  · rw [hx]
    split
    · omega
    · next hin => exact Int.not_lt.mp hin

/-- The dragged window stays on the desktop exactly when its bottom edge, where the mouse
takes it, is above the taskbar, or further down than the width of the screen allows. -/
theorem drag_stays_iff (h : Draggable screen mx my g) :
    StaysOnDesktop screen g (guiHandleMouseDrag screen mx my g) ↔
      draggedTop screen my g + (g.windows g.draggingWindow).height.toNat ≤
          screen.height.toNat - 28 ∨
        (screen.width.toNat : Int) - 28 <
          draggedTop screen my g + (g.windows g.draggingWindow).height.toNat := by
  obtain ⟨x, y, hwindows, hleft, hright, hy⟩ := guiHandleMouseDrag_window h
  have hdragged : (guiHandleMouseDrag screen mx my g).windows g.draggingWindow =
      { g.windows g.draggingWindow with x := x, y := y } := by
    rw [hwindows, Function.update_self]
  have htop : 0 ≤ draggedTop screen my g := Int.le_max_left _ _
  have htaskbar := h.taskbar
  have hfits := h.fitsY
  constructor
  · intro hstays
    have hbottom := hstays.bottom
    rw [hdragged] at hbottom
    change y.toInt + _ ≤ _ at hbottom
    rw [hy] at hbottom
    split at hbottom
    · next hover => exact .inr hover
    · exact .inl hbottom
  · intro hwhen
    -- the corner above the taskbar, or the place where the mouse takes the window
    have hplace : 0 ≤ y.toInt ∧
        y.toInt + (g.windows g.draggingWindow).height.toNat ≤ screen.height.toNat - 28 := by
      rw [hy]
      split
      · omega
      · next hin => exact ⟨htop, hwhen.resolve_right hin⟩
    exact ⟨by rw [hdragged]; exact hleft, by rw [hdragged]; exact hplace.1,
      by rw [hdragged]; exact hright, by rw [hdragged]; exact hplace.2,
      fun i hne => by rw [hwindows, Function.update_of_ne hne]⟩

end Drag

/-- A window of 100 x 100 points that is dragged with no offset. -/
def oneDragged : Gui where
  windows := fun _ => ⟨0#32, 0#32, 100#32, 100#32, true, true⟩
  windowCount := 1
  draggingWindow := 0
  dragOffsetX := 0#32
  dragOffsetY := 0#32

theorem oneDragged_draggable {my : Word} (hmy : my.toNat < 480) :
    Draggable ⟨640#32, 480#32⟩ 0#32 my oneDragged :=
  ⟨by decide, by decide, by decide, by decide, by decide, by decide, by decide, by decide,
    by decide, hmy⟩

/-- In the middle of the screen. -/
theorem drag_stays_middle :
    StaysOnDesktop ⟨640#32, 480#32⟩ oneDragged
      (guiHandleMouseDrag ⟨640#32, 480#32⟩ 0#32 200#32 oneDragged) :=
  (drag_stays_iff (oneDragged_draggable (by decide))).mpr (.inl (by decide))

/-- At the bottom of a screen of 640 x 480 the window covers the taskbar and reaches below
the screen. -/
theorem drag_below_screen :
    Draggable ⟨640#32, 480#32⟩ 0#32 479#32 oneDragged ∧
      ((guiHandleMouseDrag ⟨640#32, 480#32⟩ 0#32 479#32 oneDragged).windows 0).y = 479#32 ∧
      ¬ StaysOnDesktop ⟨640#32, 480#32⟩ oneDragged
        (guiHandleMouseDrag ⟨640#32, 480#32⟩ 0#32 479#32 oneDragged) :=
  ⟨oneDragged_draggable (by decide), by decide, fun h => absurd h.bottom (by decide)⟩

end Zenix
