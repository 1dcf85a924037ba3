import Zenix.Apps.AppProcesses
import Zenix.Gui.Gui

/-!
# Do the app manager and the calculator agree?

That the calculator is open is noted twice: as an active entry of the app manager, and
in `g_calculator_active`. `gui_init` sets the second and clears the first. After that
only a click on the close box changes the second, since `app_launch` stores
`start_calculator_app` in the entry but never calls it; and that click does not reach
the entry.

Results:
1. `guiStep_active`: what each event does to `g_calculator_active`.
2. `calculator_agreement_fails`: the two never agree after `gui_init`, and a calculator
   once closed stays closed.
-/

namespace Zenix
open ByteMemory

variable {δ : Type}

/-! ## Runs -/

inductive GuiEvent where
  | click (mx my ticks : Word)
  | calculator (mouse : MouseState)
  | close (appId : Int)
  | update

inductive GuiStep (screen : Screen) (sym : AppSymbols) (keypad : Keypad δ) :
    Desktop δ → GuiEvent → Desktop δ → Prop
  | click {d e : Desktop δ} {mx my ticks : Word} :
      guiHandleMouseClick screen sym mx my ticks d = some e →
      GuiStep screen sym keypad d (.click mx my ticks) e
  | calculator {d : Desktop δ} {mouse : MouseState} :
      GuiStep screen sym keypad d (.calculator mouse)
        { d with calculator := updateCalculatorApp screen keypad mouse d.calculator }
  | close {d : Desktop δ} {appId : Int} {apps : Apps} : appClose appId d.apps = some apps →
      GuiStep screen sym keypad d (.close appId) { d with apps := apps }
  | update {d : Desktop δ} :
      GuiStep screen sym keypad d .update { d with apps := appManagerUpdate d.apps }

/-- `gui_init` at any time after `process_init`, and then clicks, frames of the
calculator, and calls of `app_close` and `app_manager_update`. -/
def guiSystem (screen : Screen) (sym : AppSymbols) (keypad : Keypad δ) :
    TransitionSystem (Desktop δ) GuiEvent where
  init := fun d => ∃ d₀ : Desktop δ, tableSystem.Reachable d₀.apps.run ∧ d = guiInit keypad d₀
  step := GuiStep screen sym keypad

/-! ## The property -/

/-- The app manager has an active calculator. -/
def HasCalculator (s : Apps) : Prop :=
  ∃ i, 0 ≤ i ∧ i < MAX_APPS ∧ (s.apps i).active = true ∧ (s.apps i).type = .calculator

def Agrees (d : Desktop δ) : Prop :=
  HasCalculator d.apps ↔ isCalculatorActive d.calculator = true

/-- The left button goes down on the close box of the running calculator. -/
def PressesClose (screen : Screen) (mouse : MouseState) (s : CalculatorApp δ) : Prop :=
  s.calculator.running = true ∧ leftButton mouse.buttons = true ∧
    leftButton s.lastButtons = false ∧
    onCloseBox s.calculator (screenX screen mouse.x) (screenY screen mouse.y) = true

def ClicksClose (screen : Screen) (d : Desktop δ) : GuiEvent → Prop
  | .calculator mouse => PressesClose screen mouse d.calculator
  | _ => False

/-! ## What the events do -/

section Events
variable {screen : Screen} {sym : AppSymbols} {keypad : Keypad δ} {d e : Desktop δ}

theorem guiInit_hasCalculator (keypad : Keypad δ) (d : Desktop δ) :
    ¬ HasCalculator (guiInit keypad d).apps := by
  rintro ⟨i, hlo, hhi, hactive, _⟩
  rw [guiInit, appManagerInit_apps, if_pos ⟨hlo, hhi⟩] at hactive
  cases hactive

theorem guiInit_active (keypad : Keypad δ) (d : Desktop δ) :
    isCalculatorActive (guiInit keypad d).calculator = true := by
  rw [guiInit, isCalculatorActive, startCalculatorApp]
  split
  · next hactive => exact hactive
  · rfl

theorem guiInit_not_agrees (keypad : Keypad δ) (d : Desktop δ) : ¬ Agrees (guiInit keypad d) :=
  fun hagree => guiInit_hasCalculator keypad d (hagree.mpr (guiInit_active keypad d))

/-- A click reaches the app manager or the windows, and not the calculator. -/
theorem guiHandleMouseClick_calculator {mx my ticks : Word}
    (h : guiHandleMouseClick screen sym mx my ticks d = some e) : e.calculator = d.calculator := by
  rw [guiHandleMouseClick] at h
  split at h
  · obtain ⟨_, _, rfl⟩ := Option.map_eq_some_iff.mp h
    rfl
  · cases h
    rfl

/-- A frame of the calculator closes it exactly when its close box is clicked. -/
theorem calculatorUpdate_active (mouse : MouseState) (s : CalculatorApp δ) :
    (calculatorUpdate screen keypad mouse s).active = true ↔
      s.active = true ∧ ¬ PressesClose screen mouse s := by
  unfold calculatorUpdate
  split
  · next hrun =>
    exact (and_iff_left fun hpress => Bool.eq_false_iff.mp hrun hpress.1).symm
  · next hrun =>
    rw [Bool.not_eq_false] at hrun
    dsimp only
    split
    · next hclose =>
      simp only [Bool.and_eq_true, Bool.not_eq_true'] at hclose
      exact iff_of_false Bool.false_ne_true fun h => h.2 ⟨hrun, hclose.1.1, hclose.1.2, hclose.2⟩
    · next hclose =>
      simp only [Bool.and_eq_true, Bool.not_eq_true'] at hclose
      exact (and_iff_left fun hpress =>
        hclose ⟨⟨hpress.2.1, hpress.2.2.1⟩, hpress.2.2.2⟩).symm

/-- Only a click on the close box changes whether the calculator is active. -/
theorem guiStep_active {event : GuiEvent} (hst : GuiStep screen sym keypad d event e) :
    isCalculatorActive e.calculator = true ↔
      isCalculatorActive d.calculator = true ∧ ¬ ClicksClose screen d event := by
  cases hst with
  | click hcall =>
    rw [guiHandleMouseClick_calculator hcall]
    exact (and_iff_left not_false).symm
  | @calculator mouse =>
    change (updateCalculatorApp screen keypad mouse d.calculator).active = true ↔
      d.calculator.active = true ∧ ¬ PressesClose screen mouse d.calculator
    unfold updateCalculatorApp
    split
    · exact calculatorUpdate_active mouse d.calculator
    · next hoff => exact iff_of_false hoff fun h => hoff h.1
  | close hcall => exact (and_iff_left not_false).symm
  | update => exact (and_iff_left not_false).symm

/-- A closed calculator stays closed, whatever is clicked. -/
theorem run_closed {events : List GuiEvent}
    (hrun : (guiSystem screen sym keypad).Run d events e)
    (hclosed : isCalculatorActive d.calculator = false) : isCalculatorActive e.calculator = false := by
  refine hrun.invariant (P := fun d => isCalculatorActive d.calculator = false) hclosed ?_
  intro d event e hoff hst
  rw [Bool.eq_false_iff] at hoff ⊢
  exact fun hon => hoff ((guiStep_active hst).mp hon).1

end Events

/-- The calculator and the app manager disagree right after `gui_init`, so they agree
throughout no run. A click on the close box is the only event that changes whether the
calculator is active, and nothing opens it again. -/
theorem calculator_agreement_fails (screen : Screen) (sym : AppSymbols) (keypad : Keypad δ)
    (d₀ : Desktop δ) :
    ¬ (∀ events d, (guiSystem screen sym keypad).Run (guiInit keypad d₀) events d → Agrees d) ∧
      (∀ events d event e, (guiSystem screen sym keypad).Run (guiInit keypad d₀) events d →
        GuiStep screen sym keypad d event e →
        (isCalculatorActive e.calculator = true ↔
          isCalculatorActive d.calculator = true ∧ ¬ ClicksClose screen d event)) ∧
      ∀ events d events' e, (guiSystem screen sym keypad).Run (guiInit keypad d₀) events d →
        isCalculatorActive d.calculator = false →
        (guiSystem screen sym keypad).Run d events' e → isCalculatorActive e.calculator = false := by
  exact ⟨fun hagree => guiInit_not_agrees keypad d₀ (hagree [] (guiInit keypad d₀) .nil),
    fun _ _ _ _ _ hst => guiStep_active hst,
    fun _ _ _ _ _ hclosed hrun => run_closed hrun hclosed⟩

/-! ## The calculator is closed and launched -/

/-- A calculator that has not been started. -/
def noCalculator : CalculatorApp Unit where
  calculator := ⟨0#32, 0#32, 0#32, 0#32, false, false, 0#32, 0#32, ()⟩
  active := false
  lastButtons := 0#8

def noKeys : Keypad Unit := ⟨(), fun _ _ => ()⟩

def noWindows : Gui := ⟨fun _ => ⟨0#32, 0#32, 0#32, 0#32, false, false⟩, 0, -1, 0#32, 0#32⟩

/-- After `gui_init` on a screen of 640 x 480, a click on the close box of the calculator
and one on the launcher: the app manager has an active calculator, whose process has been
created, and no calculator is open. -/
theorem closed_calculator_not_reopened : ∃ d₀ d₁ d₂ : Desktop Unit,
    tableSystem.Reachable d₀.apps.run ∧
    ¬ Agrees (guiInit noKeys d₀) ∧
    GuiStep ⟨640#32, 480#32⟩ someSymbols noKeys (guiInit noKeys d₀)
      (.calculator ⟨250#32, 34#32, MOUSE_LEFT_BTN⟩) d₁ ∧
    isCalculatorActive d₁.calculator = false ∧
    GuiStep ⟨640#32, 480#32⟩ someSymbols noKeys d₁ (.click 10#32 460#32 0#32) d₂ ∧
    HasCalculator d₂.apps ∧ isCalculatorActive d₂.calculator = false ∧ ¬ Agrees d₂ := by
  obtain ⟨run, hrun⟩ := boot_idleAlone
  let d₀ : Desktop Unit := ⟨⟨run, fun _ => noApp, 0⟩, noCalculator, noWindows⟩
  have hidle := appManagerInit_idle (s := d₀.apps) someSymbols hrun
  obtain ⟨q, t, hcall, _, hadd, _⟩ := hidle.launch (by decide)
  have hactive := hadd.active
  have htype := hadd.type
  rw [hidle.count] at hactive htype
  have hhas : HasCalculator t := ⟨0, by decide, by decide, hactive, htype⟩
  let d₁ : Desktop Unit := { guiInit noKeys d₀ with
    calculator := updateCalculatorApp ⟨640#32, 480#32⟩ noKeys ⟨250#32, 34#32, MOUSE_LEFT_BTN⟩
      (guiInit noKeys d₀).calculator }
  have hclosed : isCalculatorActive d₁.calculator = false :=
    show isCalculatorActive (updateCalculatorApp ⟨640#32, 480#32⟩ noKeys
      ⟨250#32, 34#32, MOUSE_LEFT_BTN⟩ (startCalculatorApp noKeys noCalculator)) = false by decide
  have hlaunch : guiHandleMouseClick ⟨640#32, 480#32⟩ someSymbols 10#32 460#32 0#32 d₁ =
      some { d₁ with apps := t } := by
    rw [guiHandleMouseClick, if_pos (by decide)]
    exact congrArg (Option.map _) hcall
  refine ⟨d₀, d₁, { d₁ with apps := t }, hrun.reachable, guiInit_not_agrees noKeys d₀, .calculator,
    hclosed, .click hlaunch, hhas, hclosed, fun hagree => ?_⟩
  exact Bool.eq_false_iff.mp hclosed (hagree.mp hhas)

end Zenix
