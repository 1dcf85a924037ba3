import Zenix.Drivers.Mouse
import Zenix.Lib.Memory

/-!
# The calculator (kernel/apps/calculator/calculator_app.c)

The window of the calculator: where it is, whether it runs, and what the mouse does to
it. Coordinates are 32-bit words; the comparisons are signed, as in the source. What is
displayed and computed is a parameter: `entry` stands for the fields `display` to
`new_number` of `calculator_t`, and `Keypad` for what happens to them.
-/

namespace Zenix
open ByteMemory

/-- `VGA_WIDTH` and `VGA_HEIGHT`. -/
structure Screen where
  width : Word
  height : Word

def leftButton (buttons : Byte) : Bool := buttons &&& MOUSE_LEFT_BTN != 0#8

/-- The entry of a new calculator, and what `calculator_handle_button` does to it. -/
structure Keypad (δ : Type) where
  init : δ
  handleButton : Nat → δ → δ

/-- `calculator_t`. -/
structure Calculator (δ : Type) where
  x : Word
  y : Word
  width : Word
  height : Word
  running : Bool
  dragging : Bool
  dragOffsetX : Word
  dragOffsetY : Word
  entry : δ

/-- The statics of the file: `g_calculator`, `g_calculator_active` and the
`last_buttons` of `calculator_update`. -/
structure CalculatorApp (δ : Type) where
  calculator : Calculator δ
  active : Bool
  lastButtons : Byte

/-- The rectangle of a `button_t`. -/
structure Button where
  x : Word
  y : Word
  w : Word
  h : Word

def buttons : List Button :=
  [⟨10#32, 60#32, 40#32, 30#32⟩, ⟨55#32, 60#32, 40#32, 30#32⟩, ⟨100#32, 60#32, 40#32, 30#32⟩,
    ⟨145#32, 60#32, 40#32, 30#32⟩,
    ⟨10#32, 95#32, 40#32, 30#32⟩, ⟨55#32, 95#32, 40#32, 30#32⟩, ⟨100#32, 95#32, 40#32, 30#32⟩,
    ⟨145#32, 95#32, 40#32, 30#32⟩,
    ⟨10#32, 130#32, 40#32, 30#32⟩, ⟨55#32, 130#32, 40#32, 30#32⟩, ⟨100#32, 130#32, 40#32, 30#32⟩,
    ⟨145#32, 130#32, 40#32, 30#32⟩,
    ⟨10#32, 165#32, 85#32, 30#32⟩, ⟨100#32, 165#32, 40#32, 30#32⟩, ⟨145#32, 165#32, 40#32, 30#32⟩,
    ⟨10#32, 200#32, 85#32, 30#32⟩, ⟨100#32, 200#32, 85#32, 30#32⟩]

variable {δ : Type}

/-- `calculator_check_button`; `none` is -1. -/
def calculatorCheckButton (c : Calculator δ) (mx my : Word) : Option Nat :=
  let mx := mx - c.x
  let my := my - c.y
  buttons.findIdx? fun btn =>
    btn.x.sle mx && mx.slt (btn.x + btn.w) && btn.y.sle my && my.slt (btn.y + btn.h)

def calculatorInit (keypad : Keypad δ) (x y : Word) : Calculator δ where
  x := x
  y := y
  width := 195#32
  height := 240#32
  running := true
  dragging := false
  dragOffsetX := 0#32
  dragOffsetY := 0#32
  entry := keypad.init

def calculatorClose (s : CalculatorApp δ) : CalculatorApp δ :=
  { s with calculator := { s.calculator with running := false }, active := false }

/-- "Check close button". -/
def onCloseBox (c : Calculator δ) (mx my : Word) : Bool :=
  (c.x + c.width - 10#32).sle mx && mx.sle (c.x + c.width - 2#32) &&
    (c.y + 1#32).sle my && my.sle (c.y + 7#32)

/-- "Check title bar for dragging". -/
def onTitleBar (c : Calculator δ) (mx my : Word) : Bool :=
  c.x.sle mx && mx.sle (c.x + c.width) && c.y.sle my && my.sle (c.y + 8#32)

/-- The part of "Handle mouse click" behind the close button. -/
def calculatorClick (keypad : Keypad δ) (mx my : Word) (c : Calculator δ) : Calculator δ :=
  if onTitleBar c mx my then
    { c with dragging := true, dragOffsetX := mx - c.x, dragOffsetY := my - c.y }
  else
    match calculatorCheckButton c mx my with
    | some btnId => { c with entry := keypad.handleButton btnId c.entry }
    | none => c

/-- "Handle dragging", "Keep on screen". -/
def calculatorDrag (screen : Screen) (mx my : Word) (c : Calculator δ) : Calculator δ :=
  let newX := mx - c.dragOffsetX
  let newY := my - c.dragOffsetY
  let newX := if newX.slt 0#32 then 0#32 else newX
  let newY := if newY.slt 0#32 then 0#32 else newY
  let newX := if screen.width.slt (newX + c.width) then screen.width - c.width else newX
  let newY :=
    if (screen.height - 24#32).slt (newY + c.height) then screen.height - 24#32 - c.height
    else newY
  { c with x := newX, y := newY }

/-- The place of the mouse on the screen. -/
def screenX (screen : Screen) (x : Word) : Word := x * screen.width / 640#32
def screenY (screen : Screen) (y : Word) : Word := y * screen.height / 480#32

/-- `calculator_update`, on `g_calculator`. Drawing is left out. -/
def calculatorUpdate (screen : Screen) (keypad : Keypad δ) (mouse : MouseState)
    (s : CalculatorApp δ) : CalculatorApp δ :=
  if s.calculator.running = false then s
  else
    let mx := screenX screen mouse.x
    let my := screenY screen mouse.y
    let down := leftButton mouse.buttons
    let wasDown := leftButton s.lastButtons
    if down && !wasDown && onCloseBox s.calculator mx my then
      { calculatorClose s with lastButtons := mouse.buttons }
    else
      let c := s.calculator
      let c := if down && !wasDown then calculatorClick keypad mx my c else c
      let c := if c.dragging && down then calculatorDrag screen mx my c else c
      let c := if !down && wasDown then { c with dragging := false } else c
      { s with calculator := c, lastButtons := mouse.buttons }

def startCalculatorApp (keypad : Keypad δ) (s : CalculatorApp δ) : CalculatorApp δ :=
  if s.active then s
  else { s with calculator := calculatorInit keypad 60#32 30#32, active := true }

def updateCalculatorApp (screen : Screen) (keypad : Keypad δ) (mouse : MouseState)
    (s : CalculatorApp δ) : CalculatorApp δ :=
  if s.active then calculatorUpdate screen keypad mouse s else s

def isCalculatorActive (s : CalculatorApp δ) : Bool := s.active

end Zenix
