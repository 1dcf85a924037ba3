import Zenix.Apps.CalculatorDisplay
import Zenix.Gui.DragWindow

/-!
# The window of the calculator (kernel/apps/calculator/calculator_app.c)

`start_calculator_app` opens the window at (60, 30). Each call of `update_calculator_app`
may press a button, close the window or drag it.

Results:
1. `dragAxis_le`: a dragged window stays on the screen, wherever the mouse is.
2. `calculatorUpdate_cases`: what a call does.
3. `calculator_open`: what holds of the window in every run while it is open.
-/

namespace Zenix
open ByteMemory Logged

/-- The calls of the GUI, each with what the doubles do. -/
inductive CalculatorCall (F : Type) where
  | start (ops : DoubleOps F)
  | update (ops : DoubleOps F) (mouse : MouseState)

/-- The statics of the file before the first call. -/
def calculatorStatics {F : Type} (entry : CalculatorEntry F) : CalculatorApp (CalculatorEntry F) :=
  ⟨⟨0#32, 0#32, 0#32, 0#32, false, false, 0#32, 0#32, entry⟩, false, 0#8⟩

def callCalculator {F : Type} (screen : Screen) (s : CalculatorApp (CalculatorEntry F)) :
    CalculatorCall F → CalculatorApp (CalculatorEntry F)
  | .start ops => startCalculatorApp (displayKeypad ops s.calculator.entry) s
  | .update ops mouse => updateCalculatorApp screen (displayKeypad ops s.calculator.entry) mouse s

def calculatorSystem {F : Type} (screen : Screen) :
    TransitionSystem (CalculatorApp (CalculatorEntry F)) (CalculatorCall F) where
  init := fun s => ∃ entry, s = calculatorStatics entry
  step := fun s call t => t = callCalculator screen s call

/-! ## Dragging -/

section Drag
variable {p offset size limit : Word}

/-- The window ends before the limit, or is moved there. -/
theorem dragAxis_le (hp : p.toNat < 2 ^ 24) (hoffset : offset.toNat < 2 ^ 8)
    (hsize : size.toNat < 2 ^ 8) (hfit : size.toNat ≤ limit.toNat) (hlimit : limit.toNat < 2 ^ 31) :
    let start := if (p - offset).slt 0#32 then 0#32 else p - offset
    (if limit.slt (start + size) then limit - size else start).toNat + size.toNat ≤ limit.toNat := by
  intro start
  have hpint := toInt_small (p := p) (by omega)
  have hoint := toInt_small (p := offset) (by omega)
  have hstart : start.toInt = max 0 ((p.toNat : Int) - offset.toNat) := by
    rw [← hpint, ← hoint, ← toInt_sub_small (by omega) (by omega)]
    exact keepPositive_toInt (p - offset)
  have hnat : start.toInt = start.toNat := by
    refine BitVec.toInt_eq_toNat_of_lt (BitVec.toInt_pos_iff.mp ?_)
    rw [hstart]
    exact Int.le_max_left _ _
  have hend : (start + size).toNat = start.toNat + size.toNat := toNat_add_of_lt (by omega)
  have hover : limit.slt (start + size) = true ↔ limit.toNat < start.toNat + size.toNat := by
    rw [BitVec.slt_iff_toInt_lt, toInt_small hlimit, toInt_small (by omega), hend]
    omega
  by_cases hlt : limit.toNat < start.toNat + size.toNat
  · rw [if_pos (hover.mpr hlt), BitVec.toNat_sub_of_le hfit, Nat.sub_add_cancel hfit]
  · rw [if_neg (mt hover.mp hlt)]
    exact Nat.not_lt.mp hlt

/-- The place of the mouse is a quotient. -/
theorem screenX_lt (screen : Screen) (x : Word) : (screenX screen x).toNat < 2 ^ 24 := by
  have hlt := (x * screen.width).isLt
  rw [screenX, BitVec.toNat_udiv]
  exact Nat.div_lt_of_lt_mul (Nat.lt_of_lt_of_le hlt (by decide))

theorem screenY_lt (screen : Screen) (y : Word) : (screenY screen y).toNat < 2 ^ 24 := by
  have hlt := (y * screen.height).isLt
  rw [screenY, BitVec.toNat_udiv]
  exact Nat.div_lt_of_lt_mul (Nat.lt_of_lt_of_le hlt (by decide))

/-- The distance between a point and the start of an interval that it lies in. -/
theorem grab_le {a n m : Word} (hfit : a.toNat + n.toNat < 2 ^ 31) (hlo : a.sle m = true)
    (hhi : m.sle (a + n) = true) : (m - a).toNat ≤ n.toNat := by
  have hend : (a + n).toNat = a.toNat + n.toNat := toNat_add_of_lt (by omega)
  rw [BitVec.sle_iff_toInt_le, toInt_small (p := a) (by omega)] at hlo
  rw [BitVec.sle_iff_toInt_le, toInt_small (p := a + n) (by omega), hend] at hhi
  have hm : m.toInt = m.toNat :=
    BitVec.toInt_eq_toNat_of_lt (BitVec.toInt_pos_iff.mp (by omega))
  rw [BitVec.toNat_sub_of_le (BitVec.le_def.mpr (by omega))]
  omega

end Drag

/-! ## The display -/

section Text
variable {F : Type} {c : CalculatorEntry F} {ops : DoubleOps F}

/-- What holds of the entry between two presses: the display has room for 15 characters. -/
def CalculatorEntry.Brief (c : CalculatorEntry F) : Prop := c.Holds ∧ c.text.length ≤ 15

theorem CalculatorEntry.Entered.brief (h : c.Entered) : c.Brief := by
  refine ⟨h.holds, ?_⟩
  obtain ⟨text, hshows, hentry⟩ := h
  rw [hshows.text_eq]
  exact hentry.length_le

theorem clearEntry_brief (ops : DoubleOps F) (c : CalculatorEntry F) :
    (clearEntry ops c).value.Brief := by
  refine ⟨(clearEntry_holds ops c).2, ?_⟩
  have hone : (clearEntry ops c).Meets InDisplay fun c' => c'.text.length = 1 :=
    storeSingleton_meets (by decide) fun _ hstring => by
      refine (congrArg List.length (CalculatorEntry.Shows.text_eq ?_) : _ = [0x30#8].length)
      exact ⟨hstring, rfl, by decide, by decide⟩
  rw [hone.2]
  decide

theorem calculatorExecute_brief (h : c.text.length ≤ 15) :
    (calculatorExecute ops c).value.text.length ≤ 15 := by
  rcases Decidable.em (c.operation = 0#8) with hnone | hsome
  · unfold calculatorExecute
    rw [if_neg (not_not.mpr hnone)]
    exact h
  · obtain ⟨ch, rest, _, hshape, hlength⟩ := simpleFtoa_shape ops
      (calculatorExecute ops c).value.storedValue
    have htake := List.Sublist.length_le (List.takeWhile_sublist (fun ch : Byte => ch ≠ 0#8)
      (l := simpleFtoa ops (calculatorExecute ops c).value.storedValue 2))
    rw [calculatorExecute_text hsome]
    refine htake.trans ?_
    rw [hshape, List.length_append, List.length_cons]
    exact Nat.succ_le_succ (Nat.succ_le_succ hlength)

theorem handleLabel_brief (ch : Byte) (h : c.Brief) : (handleLabel ops ch c).value.Brief := by
  refine ⟨(handleLabel_holds ch h.1).2, ?_⟩
  have hexecute : (calculatorExecute ops c).value.text.length ≤ 15 := calculatorExecute_brief h.2
  unfold handleLabel
  split
  · exact (clearEntry_brief ops c).2
  · split
    next hdigit => exact (CalculatorEntry.Entered.brief (enterDigit_entered h.1 hdigit).2).2
    next =>
      split
      · exact (CalculatorEntry.Entered.brief (enterDecimal_entered h.1).2).2
      · split
        · exact hexecute
        · rw [value_bind]
          split
          · exact h.2
          · exact hexecute

theorem displayKeypad_brief (buttonId : Nat) (h : c.Brief) (d : CalculatorEntry F) :
    ((displayKeypad ops d).handleButton buttonId c).Brief := by
  show (calculatorHandleButton ops buttonId c).value.Brief
  unfold calculatorHandleButton
  split
  next ch _ => exact handleLabel_brief ch h
  next => exact h

end Text

/-! ## Calls -/

section Calls
variable {δ : Type} {screen : Screen} {keypad : Keypad δ}

/-- The window while it is open. A window that is dragged was grabbed at its title bar, and
the button is still down. -/
structure CalculatorApp.Open (screen : Screen) (s : CalculatorApp δ) : Prop where
  running : s.calculator.running = true
  width : s.calculator.width = 195#32
  height : s.calculator.height = 240#32
  right : s.calculator.x.toNat + 195 ≤ screen.width.toNat
  bottom : s.calculator.y.toNat + 264 ≤ screen.height.toNat
  button : s.calculator.dragging = true → leftButton s.lastButtons = true
  grabX : s.calculator.dragging = true → s.calculator.dragOffsetX.toNat ≤ 195
  grabY : s.calculator.dragging = true → s.calculator.dragOffsetY.toNat ≤ 8

/-- The screens on which the window opens above the taskbar. -/
structure Screen.HasCalculator (screen : Screen) : Prop where
  width : 255 ≤ screen.width.toNat ∧ screen.width.toNat < 2 ^ 31
  height : 294 ≤ screen.height.toNat ∧ screen.height.toNat < 2 ^ 31

/-- What a call of `calculator_update` does to an open window. -/
inductive CalculatorChange (screen : Screen) (keypad : Keypad δ) (mouse : MouseState)
    (s : CalculatorApp δ) : CalculatorApp δ → Prop
  | close : leftButton mouse.buttons = true → leftButton s.lastButtons = false →
      onCloseBox s.calculator (screenX screen mouse.x) (screenY screen mouse.y) = true →
      CalculatorChange screen keypad mouse s { calculatorClose s with lastButtons := mouse.buttons }
  | drag {c : Calculator δ} : leftButton mouse.buttons = true → c.dragging = true →
      (leftButton s.lastButtons = true ∧ c = s.calculator ∨
        c = calculatorClick keypad (screenX screen mouse.x) (screenY screen mouse.y) s.calculator ∧
          onTitleBar s.calculator (screenX screen mouse.x) (screenY screen mouse.y) = true) →
      CalculatorChange screen keypad mouse s
        { s with
          calculator := calculatorDrag screen (screenX screen mouse.x) (screenY screen mouse.y) c
          lastButtons := mouse.buttons }
  | press {buttonId : Nat} : leftButton mouse.buttons = true → leftButton s.lastButtons = false →
      calculatorCheckButton s.calculator (screenX screen mouse.x) (screenY screen mouse.y) =
        some buttonId →
      CalculatorChange screen keypad mouse s
        { s with
          calculator :=
            { s.calculator with entry := keypad.handleButton buttonId s.calculator.entry }
          lastButtons := mouse.buttons }
  | release : leftButton mouse.buttons = false →
      CalculatorChange screen keypad mouse s
        { s with
          calculator := { s.calculator with dragging := false }
          lastButtons := mouse.buttons }
  | none : s.calculator.dragging = false →
      CalculatorChange screen keypad mouse s { s with lastButtons := mouse.buttons }

theorem calculatorUpdate_cases {s : CalculatorApp δ} (h : s.Open screen) (mouse : MouseState) :
    CalculatorChange screen keypad mouse s (calculatorUpdate screen keypad mouse s) := by
  have hrunning : ¬ s.calculator.running = false := by
    rw [h.running]
    exact Bool.noConfusion
  unfold calculatorUpdate
  rw [if_neg hrunning]
  dsimp only
  cases hdown : leftButton mouse.buttons with
  | false =>
    simp only [Bool.false_and, Bool.false_eq_true, if_false, Bool.and_false, Bool.not_false,
      Bool.true_and]
    cases hwas : leftButton s.lastButtons with
    | true =>
      rw [if_pos rfl]
      exact .release hdown
    | false =>
      rw [if_neg Bool.false_ne_true]
      refine .none (Bool.eq_false_iff.mpr fun hdragging => ?_)
      rw [h.button hdragging] at hwas
      cases hwas
  | true =>
    simp only [Bool.true_and, Bool.and_true, Bool.not_true, Bool.false_and, Bool.false_eq_true,
      if_false]
    cases hwas : leftButton s.lastButtons with
    | true =>
      simp only [Bool.not_true, Bool.false_and, Bool.false_eq_true, if_false]
      cases hdragging : s.calculator.dragging with
      | true => exact .drag hdown hdragging (.inl ⟨hwas, rfl⟩)
      | false => exact .none hdragging
    | false =>
      have hstill : s.calculator.dragging = false :=
        Bool.eq_false_iff.mpr fun hdragging => by
          rw [h.button hdragging] at hwas
          cases hwas
      simp only [Bool.not_false, Bool.true_and, if_true]
      split
      next hclose => exact .close hdown hwas hclose
      next =>
        cases htitle : onTitleBar s.calculator (screenX screen mouse.x) (screenY screen mouse.y) with
        | true =>
          have hgrab : (calculatorClick keypad (screenX screen mouse.x) (screenY screen mouse.y)
              s.calculator).dragging = true := by
            rw [calculatorClick, if_pos htitle]
          rw [if_pos hgrab]
          exact .drag hdown hgrab (.inr ⟨rfl, htitle⟩)
        | false =>
          rw [calculatorClick, if_neg (Bool.eq_false_iff.mp htitle)]
          split
          next hbutton =>
            rw [if_neg (Bool.eq_false_iff.mp hstill)]
            exact .press hdown hwas hbutton
          next =>
            rw [if_neg (Bool.eq_false_iff.mp hstill)]
            exact .none hstill

/-! ## The window -/

theorem calculatorDrag_place (hscreen : screen.HasCalculator) {c : Calculator δ}
    (hwidth : c.width = 195#32) (hheight : c.height = 240#32) (hx : c.dragOffsetX.toNat ≤ 195)
    (hy : c.dragOffsetY.toNat ≤ 8) (mouse : MouseState) :
    let d := calculatorDrag screen (screenX screen mouse.x) (screenY screen mouse.y) c
    d.x.toNat + 195 ≤ screen.width.toNat ∧ d.y.toNat + 264 ≤ screen.height.toNat := by
  intro d
  obtain ⟨hw, hw'⟩ := hscreen.width
  obtain ⟨hh, hh'⟩ := hscreen.height
  have hdesk : (screen.height - 24#32).toNat = screen.height.toNat - 24 :=
    BitVec.toNat_sub_of_le (BitVec.le_def.mpr (Nat.le_trans (by decide) hh))
  have hleft : d.x.toNat + c.width.toNat ≤ screen.width.toNat :=
    dragAxis_le (screenX_lt screen mouse.x) (Nat.lt_of_le_of_lt hx (by decide))
      (by rw [hwidth]; decide) (by rw [hwidth]; exact Nat.le_trans (by decide) hw) hw'
  have htop : d.y.toNat + c.height.toNat ≤ (screen.height - 24#32).toNat :=
    dragAxis_le (screenY_lt screen mouse.y) (Nat.lt_of_le_of_lt hy (by decide))
      (by rw [hheight]; decide)
      (by rw [hheight, hdesk]; exact Nat.le_sub_of_add_le (Nat.le_trans (by decide) hh))
      (by rw [hdesk]; exact Nat.lt_of_le_of_lt (Nat.sub_le _ _) hh')
  have hw195 : c.width.toNat = 195 := by rw [hwidth]; rfl
  have hh240 : c.height.toNat = 240 := by rw [hheight]; rfl
  omega

/-- A window that is grabbed was hit in its title bar. -/
theorem grab_offsets {s : CalculatorApp δ} (h : s.Open screen) (hscreen : screen.HasCalculator)
    {mx my : Word} (htitle : onTitleBar s.calculator mx my = true) :
    (mx - s.calculator.x).toNat ≤ 195 ∧ (my - s.calculator.y).toNat ≤ 8 := by
  have hright := h.right
  have hbottom := h.bottom
  have hw := hscreen.width.2
  have hh := hscreen.height.2
  unfold onTitleBar at htitle
  simp only [Bool.and_eq_true, h.width] at htitle
  obtain ⟨⟨⟨hx, hx'⟩, hy⟩, hy'⟩ := htitle
  exact ⟨grab_le (n := 195#32) (Nat.lt_of_le_of_lt hright hw) hx hx',
    grab_le (n := 8#32) (by show _ + 8 < _; omega) hy hy'⟩

/-- A call keeps the window open or closes it. -/
theorem CalculatorChange.keeps {mouse : MouseState} {s t : CalculatorApp δ}
    (hscreen : screen.HasCalculator) (h : s.Open screen)
    (hchange : CalculatorChange screen keypad mouse s t) : t.active = false ∨ t.Open screen := by
  cases hchange with
  | close => exact .inl rfl
  | drag hdown hdragging hc =>
    refine .inr ?_
    rcases hc with ⟨_, rfl⟩ | ⟨rfl, htitle⟩
    · obtain ⟨hx, hy⟩ := calculatorDrag_place hscreen h.width h.height (h.grabX hdragging)
        (h.grabY hdragging) mouse
      exact ⟨h.running, h.width, h.height, hx, hy, fun _ => hdown, h.grabX, h.grabY⟩
    · obtain ⟨hgrabX, hgrabY⟩ := grab_offsets h hscreen htitle
      rw [calculatorClick, if_pos htitle]
      obtain ⟨hx, hy⟩ := @calculatorDrag_place _ _ hscreen
        { s.calculator with
          dragging := true
          dragOffsetX := screenX screen mouse.x - s.calculator.x
          dragOffsetY := screenY screen mouse.y - s.calculator.y }
        h.width h.height hgrabX hgrabY mouse
      exact ⟨h.running, h.width, h.height, hx, hy, fun _ => hdown, fun _ => hgrabX, fun _ => hgrabY⟩
  | press hdown hwas hbutton =>
    exact .inr ⟨h.running, h.width, h.height, h.right, h.bottom, fun _ => hdown, h.grabX, h.grabY⟩
  | release hup => exact .inr ⟨h.running, h.width, h.height, h.right, h.bottom, nofun, nofun, nofun⟩
  | none hstill =>
    have habsurd : ∀ {P : Prop}, s.calculator.dragging = true → P := fun hdragging => by
      rw [hstill] at hdragging
      cases hdragging
    exact .inr ⟨h.running, h.width, h.height, h.right, h.bottom, habsurd, h.grabX, h.grabY⟩

theorem calculatorInit_open (hscreen : screen.HasCalculator) (s : CalculatorApp δ) :
    ({ s with calculator := calculatorInit keypad 60#32 30#32, active := true } :
      CalculatorApp δ).Open screen :=
  ⟨rfl, rfl, rfl, hscreen.width.1, hscreen.height.1, nofun, nofun, nofun⟩

end Calls

section Run
variable {F : Type} {screen : Screen} {s : CalculatorApp (CalculatorEntry F)}

/-- In every run an open window is on the screen above the last 24 rows, 195 points wide and
240 high, and its display has at most 15 characters. -/
theorem calculator_open (hscreen : screen.HasCalculator)
    (h : (calculatorSystem screen).Reachable s) (hactive : s.active = true) :
    s.Open screen ∧ s.calculator.entry.Brief := by
  refine h.invariant (P := fun s => s.active = true → s.Open screen ∧ s.calculator.entry.Brief)
    ?_ ?_ hactive
  · rintro s ⟨entry, rfl⟩ hactive
    cases hactive
  · rintro s call t _ ih rfl hactive
    cases call with
    | start ops =>
      rw [callCalculator, startCalculatorApp] at hactive ⊢
      split at hactive
      next hopen =>
        rw [if_pos hopen]
        exact ih hopen
      next hclosed =>
        rw [if_neg hclosed]
        exact ⟨calculatorInit_open hscreen s, clearEntry_brief ops _⟩
    | update ops mouse =>
      rw [callCalculator, updateCalculatorApp] at hactive ⊢
      split at hactive
      next hopen =>
        rw [if_pos hopen]
        obtain ⟨hwindow, hbrief⟩ := ih hopen
        have hchange := @calculatorUpdate_cases _ _ (displayKeypad ops s.calculator.entry) _
          hwindow mouse
        refine ⟨(hchange.keeps hscreen hwindow).resolve_left fun hclosed => ?_, ?_⟩
        · rw [hactive] at hclosed
          cases hclosed
        · exact calculatorUpdate_entry (P := CalculatorEntry.Brief)
            (fun buttonId _ _ he => displayKeypad_brief buttonId he _) hbrief screen mouse
      next hclosed => exact absurd hactive hclosed

end Run

end Zenix
