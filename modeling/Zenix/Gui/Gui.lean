import Zenix.Apps.AppManager
import Zenix.Apps.Calculator

/-!
# The desktop (kernel/gui/gui.c)

What the mouse does: a click launches the calculator, or it acts on one of the windows,
and a window that it has grabbed is dragged. `Desktop` is the windows together with the
app manager and the calculator.
-/

namespace Zenix
open ByteMemory

/-- `window_t`, without what is only drawn. -/
structure Window where
  x : Word
  y : Word
  width : Word
  height : Word
  visible : Bool
  active : Bool

/-- The rest of `window_t`. -/
structure WindowLook where
  color : Byte
  borderColor : Byte
  title : Nat → Byte

/-- The statics of the file that a click reads or writes. -/
structure Gui where
  windows : Int → Window
  windowCount : Int
  draggingWindow : Int
  dragOffsetX : Word
  dragOffsetY : Word

structure Desktop (δ : Type) where
  apps : Apps
  calculator : CalculatorApp δ
  gui : Gui

def MAX_WINDOWS : Int := 16

def SHADOW_COLOR : Byte := 0x08#8

variable {δ : Type}

/-- `gui_init`: "Start calculator automatically", then "Initialize app manager". -/
def guiInit (keypad : Keypad δ) (d : Desktop δ) : Desktop δ where
  gui := { d.gui with
    windows := forEach MAX_WINDOWS (fun w => { w with visible := false, active := false })
      d.gui.windows }
  calculator := startCalculatorApp keypad d.calculator
  apps := appManagerInit d.apps

def guiCreateWindow (x y width height : Word) (title : Nat → Byte) (color : Byte) (g : Gui)
    (looks : Int → WindowLook) : Int × Gui × (Int → WindowLook) :=
  if MAX_WINDOWS ≤ g.windowCount then (-1, g, looks)
  else
    let id := g.windowCount
    let (text, _, i) := copyLoop title (fun _ => true) 63 0 0 (looks id).title
    (id,
      { g with
        windowCount := id + 1
        windows := Function.update g.windows id ⟨x, y, width, height, true, false⟩ },
      Function.update looks id ⟨color, SHADOW_COLOR, Function.update text i 0#8⟩)

def guiCloseWindow (id : Int) (g : Gui) : Gui :=
  if id < 0 ∨ g.windowCount ≤ id then g
  else { g with windows := Function.update g.windows id { g.windows id with visible := false } }

def onWindowClose (win : Window) (mx my : Word) : Bool :=
  (win.x + win.width - 20#32).sle mx && mx.sle (win.x + win.width - 10#32) &&
    (win.y + 7#32).sle my && my.sle (win.y + 17#32)

def onWindowTitle (win : Window) (mx my : Word) : Bool :=
  win.x.sle mx && mx.sle (win.x + win.width) && win.y.sle my && my.sle (win.y + 24#32)

/-- Make the window the active one and start dragging it. -/
def grabWindow (i : Int) (mx my : Word) (g : Gui) : Gui :=
  let windows := forEach g.windowCount (fun w => { w with active := false }) g.windows
  { g with
    windows := Function.update windows i { windows i with active := true }
    draggingWindow := i
    dragOffsetX := mx - (windows i).x
    dragOffsetY := my - (windows i).y }

/-- "Check windows": the windows below `n`, from the last one on. -/
def clickWindows (mx my : Word) (g : Gui) : Nat → Gui
  | 0 => g
  | n + 1 =>
    let win := g.windows n
    if win.visible = false then clickWindows mx my g n
    else if onWindowClose win mx my then guiCloseWindow n g
    else if onWindowTitle win mx my then grabWindow n mx my g
    else clickWindows mx my g n

/-- "Check taskbar launcher button". -/
def onLauncher (screen : Screen) (mx my : Word) : Bool :=
  let taskbarY := screen.height - 28#32
  (taskbarY + 4#32).sle my && my.sle (taskbarY + 20#32) && (4#32).sle mx && mx.sle 54#32

/-- `gui_handle_mouse_click`; `ticks` is what `timer_get_ticks` returns in
`process_create`. -/
def guiHandleMouseClick (screen : Screen) (sym : AppSymbols) (mx my ticks : Word) (d : Desktop δ) :
    Option (Desktop δ) :=
  let mx := screenX screen mx
  let my := screenY screen my
  if onLauncher screen mx my then
    (appLaunch sym .calculator ticks d.apps).map fun (_, apps) => { d with apps := apps }
  else some { d with gui := clickWindows mx my d.gui d.gui.windowCount.toNat }

def guiHandleMouseRelease (g : Gui) : Gui := { g with draggingWindow := -1 }

def guiHandleMouseDrag (screen : Screen) (mx my : Word) (g : Gui) : Gui :=
  if g.draggingWindow < 0 then g
  else
    let mx := screenX screen mx
    let my := screenY screen my
    let win := g.windows g.draggingWindow
    let newX := mx - g.dragOffsetX
    let newY := my - g.dragOffsetY
    let newX := if newX.slt 0#32 then 0#32 else newX
    let newY := if newY.slt 0#32 then 0#32 else newY
    let newX := if screen.width.slt (newX + win.width) then screen.width - win.width else newX
    let newY :=
      -- the screen's width, on the vertical axis
      if (screen.width - 28#32).slt (newY + win.height) then screen.height - 28#32 - win.height
      else newY
    { g with
      windows := Function.update g.windows g.draggingWindow { win with x := newX, y := newY } }

/-- "Handle mouse events" in `gui_update`. -/
def guiMouse (screen : Screen) (sym : AppSymbols) (mouse : MouseState) (lastButtons : Byte)
    (ticks : Word) (d : Desktop δ) : Option (Desktop δ) :=
  if leftButton mouse.buttons then
    if leftButton lastButtons = false then
      guiHandleMouseClick screen sym mouse.x mouse.y ticks d
    else if 0 ≤ d.gui.draggingWindow then
      some { d with gui := guiHandleMouseDrag screen mouse.x mouse.y d.gui }
    else some d
  else if leftButton lastButtons then some { d with gui := guiHandleMouseRelease d.gui }
  else some d

/-- `gui_update` on the desktop and its static `last_buttons`. Drawing is left out. The
calculator asks for the state of the mouse again. -/
def guiUpdate (screen : Screen) (sym : AppSymbols) (keypad : Keypad δ) (mouse mouse' : MouseState)
    (ticks : Word) (s : Desktop δ × Byte) : Option (Desktop δ × Byte) :=
  (guiMouse screen sym mouse s.2 ticks s.1).map fun d =>
    ({ d with
        apps := appManagerUpdate d.apps
        calculator :=
          if isCalculatorActive d.calculator then
            updateCalculatorApp screen keypad mouse' d.calculator
          else d.calculator },
      mouse.buttons)

end Zenix
