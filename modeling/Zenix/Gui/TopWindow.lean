import Zenix.Gui.CalculatorAgreement

/-!
# Which window does a click reach? (kernel/gui/gui.c)

`gui_update` draws the windows in the order of their indices, so the last one that covers
a point is what is seen there. `gui_handle_mouse_click` goes through the windows from the
last one on and stops at the first whose close box or title bar is hit. The body of a
window does not stop it.

Results:
1. `clickWindows_cases`: what a click does to the windows.
2. `pressed_not_dragging`: when the button goes down, no window is being dragged.
3. `click_topmost_iff`: exactly when a click affects the topmost window only.
-/

namespace Zenix
open ByteMemory

variable {δ : Type}

/-- The point is one of those that `gui_draw_window` fills for the body of the window. -/
def Window.Contains (win : Window) (px py : Word) : Prop :=
  px - win.x < win.width ∧ py - win.y < win.height

/-- The click acts on the window when it gets to it. -/
def Window.Hit (win : Window) (px py : Word) : Prop :=
  onWindowClose win px py = true ∨ onWindowTitle win px py = true

/-- The visible window of the greatest index with the property. -/
structure LastVisible (g : Gui) (P : Window → Prop) (i : Int) : Prop where
  range : 0 ≤ i ∧ i < g.windowCount
  visible : (g.windows i).visible = true
  holds : P (g.windows i)
  above : ∀ j, i < j → j < g.windowCount → (g.windows j).visible = true → ¬ P (g.windows j)

theorem LastVisible.unique {g : Gui} {P : Window → Prop} {i j : Int} (hi : LastVisible g P i)
    (hj : LastVisible g P j) : i = j := by
  rcases Int.lt_trichotomy i j with hlt | heq | hgt
  · exact absurd hj.holds (hi.above j hlt hj.range.2 hj.visible)
  · exact heq
  · exact absurd hi.holds (hj.above i hgt hi.range.2 hi.visible)

section Windows
variable (g : Gui) (px py : Word)

/-- The window that is seen at the point. -/
def TopWindow (i : Int) : Prop := LastVisible g (fun win => win.Contains px py) i

/-- The window that the click acts on. -/
def HitWindow (i : Int) : Prop := LastVisible g (fun win => win.Hit px py) i

/-- Nothing but the topmost window is closed, activated or dragged, and a click on its
body does nothing. -/
structure ClickTopmost (t : Gui) : Prop where
  others : ∀ i, ¬ TopWindow g px py i →
    t.windows i = g.windows i ∨ t.windows i = { g.windows i with active := false }
  dragging : t.draggingWindow = g.draggingWindow ∨ TopWindow g px py t.draggingWindow
  body : ∀ i, TopWindow g px py i → ¬ (g.windows i).Hit px py →
    t.windows = g.windows ∧ t.draggingWindow = g.draggingWindow

/-- The close box or title bar that is hit belongs to the topmost window. -/
def HitTopmost : Prop := ∀ i, HitWindow g px py i → TopWindow g px py i

end Windows

/-! ## A click -/

section Click
variable {g : Gui} {px py : Word}

theorem guiCloseWindow_inRange {i : Int} (hrange : 0 ≤ i ∧ i < g.windowCount) :
    guiCloseWindow i g =
      { g with windows := Function.update g.windows i { g.windows i with visible := false } } :=
  if_neg fun hout => hout.elim (Int.not_lt.mpr hrange.1) (Int.not_le.mpr hrange.2)

theorem grabWindow_other {i j : Int} (hne : j ≠ i) :
    (grabWindow i px py g).windows j = g.windows j ∨
      (grabWindow i px py g).windows j = { g.windows j with active := false } := by
  have hwindows : (grabWindow i px py g).windows j =
      forEach g.windowCount (fun w => { w with active := false }) g.windows j :=
    Function.update_of_ne hne _ _
  rw [hwindows, forEach_apply]
  split
  · exact .inr rfl
  · exact .inl rfl

/-- The loop finds the window that is hit, if there is one. -/
theorem clickWindows_cases (g : Gui) (px py : Word) (n : Nat) (hn : n ≤ g.windowCount.toNat)
    (habove : ∀ j, (n : Int) ≤ j → j < g.windowCount → (g.windows j).visible = true →
      ¬ (g.windows j).Hit px py) :
    (clickWindows px py g n = g ∧ ∀ i, ¬ HitWindow g px py i) ∨
      ∃ i, HitWindow g px py i ∧
        clickWindows px py g n =
          if onWindowClose (g.windows i) px py then guiCloseWindow i g else grabWindow i px py g := by
  induction n with
  | zero =>
    exact .inl ⟨rfl, fun i hi => habove i hi.range.1 hi.range.2 hi.visible hi.holds⟩
  | succ n ih =>
    have hlt : (n : Int) < g.windowCount := Int.lt_toNat.mp hn
    -- the window at `n` is not hit
    have hskip : ((g.windows n).visible = true → ¬ (g.windows n).Hit px py) →
        ∀ j, (n : Int) ≤ j → j < g.windowCount → (g.windows j).visible = true →
          ¬ (g.windows j).Hit px py := by
      intro hlast j hj
      rcases Int.lt_or_eq_of_le hj with hj | rfl
      · exact habove j (by omega)
      · exact fun _ => hlast
    have hfound : (g.windows n).visible = true → (g.windows n).Hit px py →
        HitWindow g px py n := fun hvisible hhit =>
      ⟨⟨Int.natCast_nonneg n, hlt⟩, hvisible, hhit, fun j hj => habove j (by omega)⟩
    rw [clickWindows]
    split
    · next hhidden =>
      exact ih (Nat.le_of_succ_le hn) (hskip fun hvisible =>
        absurd hvisible (Bool.eq_false_iff.mp hhidden))
    · next hvisible =>
      rw [Bool.not_eq_false] at hvisible
      split
      · next hclose =>
        exact .inr ⟨n, hfound hvisible (.inl hclose), (if_pos hclose).symm⟩
      · next hclose =>
        split
        · next htitle =>
          exact .inr ⟨n, hfound hvisible (.inr htitle), (if_neg hclose).symm⟩
        · next htitle =>
          exact ih (Nat.le_of_succ_le hn) (hskip fun _ hhit => hhit.elim hclose htitle)

/-- Closing the window that is hit. -/
theorem close_topmost_iff {i : Int} (hi : HitWindow g px py i) :
    ClickTopmost g px py (guiCloseWindow i g) ↔ TopWindow g px py i := by
  rw [guiCloseWindow_inRange hi.range]
  constructor
  · intro h
    by_contra hnot
    have hclosed := h.others i hnot
    dsimp only at hclosed
    rw [Function.update_self] at hclosed
    have hhidden : (g.windows i).visible = false :=
      hclosed.elim (fun heq => (congrArg Window.visible heq).symm)
        fun heq => (congrArg Window.visible heq).symm
    exact Bool.eq_false_iff.mp hhidden hi.visible
  · refine fun htop => ⟨fun j hj => .inl ?_, .inl rfl, fun j hj hbody => ?_⟩
    · exact Function.update_of_ne (fun heq : j = i => hj (heq ▸ htop)) _ _
    · rw [hj.unique htop] at hbody
      exact absurd hi.holds hbody

/-- Grabbing it, when no window is being dragged. -/
theorem grab_topmost_iff (hdragging : g.draggingWindow = -1) {i : Int}
    (hi : HitWindow g px py i) :
    ClickTopmost g px py (grabWindow i px py g) ↔ TopWindow g px py i := by
  constructor
  · intro h
    rcases h.dragging with hsame | htop
    · have hneg : i = -1 := hsame.trans hdragging
      exact absurd hi.range.1 (hneg ▸ by decide)
    · exact htop
  · refine fun htop => ⟨fun j hj => ?_, .inr htop, fun j hj hbody => ?_⟩
    · exact grabWindow_other fun heq : j = i => hj (heq ▸ htop)
    · rw [hj.unique htop] at hbody
      exact absurd hi.holds hbody

/-- A click on the windows, when none is being dragged. -/
theorem clickWindows_topmost_iff (hdragging : g.draggingWindow = -1) :
    ClickTopmost g px py (clickWindows px py g g.windowCount.toNat) ↔ HitTopmost g px py := by
  rcases clickWindows_cases g px py g.windowCount.toNat (Nat.le_refl _)
    (fun j hj hlt => absurd hlt (Int.not_lt.mpr (Int.le_trans (Int.self_le_toNat _) hj)))
    with ⟨hsame, hnone⟩ | ⟨i, hi, hclick⟩
  · rw [hsame]
    exact iff_of_true ⟨fun _ _ => .inl rfl, .inl rfl, fun _ _ _ => ⟨rfl, rfl⟩⟩
      fun i hi => absurd hi (hnone i)
  · have hhit : HitTopmost g px py ↔ TopWindow g px py i :=
      ⟨fun h => h i hi, fun htop j hj => hj.unique hi ▸ htop⟩
    rw [hhit, hclick]
    split
    · exact close_topmost_iff hi
    · exact grab_topmost_iff hdragging hi

end Click

/-! ## Runs -/

section Runs
variable (screen : Screen) (sym : AppSymbols) (keypad : Keypad δ)

inductive DesktopEvent where
  | update (mouse mouse' : MouseState) (ticks : Word)
  | create (x y width height : Word) (title : Nat → Byte) (color : Byte)

inductive DesktopStep : Desktop δ × Byte → DesktopEvent → Desktop δ × Byte → Prop
  | update {s t : Desktop δ × Byte} {mouse mouse' : MouseState} {ticks : Word} :
      guiUpdate screen sym keypad mouse mouse' ticks s = some t →
      DesktopStep s (.update mouse mouse' ticks) t
  | create {s : Desktop δ × Byte} {x y width height : Word} {title : Nat → Byte} {color : Byte}
      {looks : Int → WindowLook} :
      DesktopStep s (.create x y width height title color)
        ({ s.1 with gui := (guiCreateWindow x y width height title color s.1.gui looks).2.1 }, s.2)

/-- Calls of `gui_update` and `gui_create_window` from any set of windows, as long as no
button has been seen down and nothing has been dragged. -/
def desktopSystem : TransitionSystem (Desktop δ × Byte) DesktopEvent where
  init := fun s => s.1.gui.draggingWindow = -1 ∧ leftButton s.2 = false
  step := DesktopStep screen sym keypad

variable {screen sym keypad}

/-- A window is dragged only while the button is down. -/
theorem pressed_not_dragging {s : Desktop δ × Byte}
    (hs : (desktopSystem screen sym keypad).Reachable s) (hup : leftButton s.2 = false) :
    s.1.gui.draggingWindow = -1 := by
  refine hs.invariant (P := fun s => leftButton s.2 = false → s.1.gui.draggingWindow = -1)
    (fun s hinit _ => hinit.1) ?_ hup
  intro s event t _ ih hst hup
  cases hst with
  | @update _ mouse mouse' ticks hcall =>
    obtain ⟨d, hmouse, rfl⟩ := Option.map_eq_some_iff.mp hcall
    rw [guiMouse, if_neg (Bool.eq_false_iff.mp hup)] at hmouse
    split at hmouse
    · cases hmouse
      rfl
    · next hwas =>
      cases hmouse
      exact ih (Bool.not_eq_true _ ▸ hwas)
  | create =>
    rw [← ih hup]
    show (guiCreateWindow _ _ _ _ _ _ _ _).2.1.draggingWindow = _
    rw [guiCreateWindow]
    split
    · rfl
    · rfl

end Runs

/-! ## The property -/

/-- At a point that is not on the launcher, the click that `gui_update` makes when the
button goes down affects the topmost window only, exactly when no close box or title bar of
another window is found first. -/
theorem click_topmost_iff {screen : Screen} {sym : AppSymbols} {keypad : Keypad δ}
    {s : Desktop δ × Byte} (hs : (desktopSystem screen sym keypad).Reachable s)
    (hup : leftButton s.2 = false) {mx my ticks : Word}
    (hlauncher : onLauncher screen (screenX screen mx) (screenY screen my) = false)
    {d : Desktop δ} (hclick : guiHandleMouseClick screen sym mx my ticks s.1 = some d) :
    ClickTopmost s.1.gui (screenX screen mx) (screenY screen my) d.gui ↔
      HitTopmost s.1.gui (screenX screen mx) (screenY screen my) := by
  rw [guiHandleMouseClick] at hclick
  dsimp only at hclick
  rw [hlauncher, if_neg Bool.false_ne_true] at hclick
  cases hclick
  exact clickWindows_topmost_iff (pressed_not_dragging hs hup)

/-- Two windows of 200 x 200 points, the second of them up and to the left of the first. -/
def twoWindows : Gui where
  windows := fun i =>
    if i = 0 then ⟨100#32, 100#32, 200#32, 200#32, true, false⟩
    else ⟨90#32, 80#32, 200#32, 200#32, true, false⟩
  windowCount := 2
  draggingWindow := -1
  dragOffsetX := 0#32
  dragOffsetY := 0#32

theorem twoWindows_top {px py : Word} (h : (twoWindows.windows 1).Contains px py) :
    TopWindow twoWindows px py 1 :=
  ⟨by decide, rfl, h, fun j hlo hhi => absurd hhi (Int.not_lt.mpr hlo)⟩

theorem noButtons_up : leftButton 0#8 = false := by decide

theorem twoWindows_reachable (apps : Apps) :
    (desktopSystem ⟨640#32, 480#32⟩ someSymbols noKeys).Reachable
      (⟨apps, noCalculator, twoWindows⟩, 0#8) :=
  .init ⟨rfl, noButtons_up⟩

/-- A click on the title bar of the second window. -/
theorem click_topmost_title :
    ∃ (s : Desktop Unit) (d : Desktop Unit),
      guiHandleMouseClick ⟨640#32, 480#32⟩ someSymbols 150#32 90#32 0#32 s = some d ∧
        ClickTopmost s.gui 150#32 90#32 d.gui := by
  obtain ⟨run, _⟩ := boot_idleAlone
  have hscreen : screenX ⟨640#32, 480#32⟩ 150#32 = 150#32 ∧ screenY ⟨640#32, 480#32⟩ 90#32 = 90#32 := by
    decide
  have hhit : HitWindow twoWindows 150#32 90#32 1 :=
    ⟨by decide, rfl, .inr (by decide), fun j hlo hhi => absurd hhi (Int.not_lt.mpr hlo)⟩
  have hlauncher : onLauncher ⟨640#32, 480#32⟩ (screenX ⟨640#32, 480#32⟩ 150#32)
      (screenY ⟨640#32, 480#32⟩ 90#32) = false := by decide
  have hcall : guiHandleMouseClick ⟨640#32, 480#32⟩ someSymbols 150#32 90#32 0#32
      (⟨⟨run, fun _ => noApp, 0⟩, noCalculator, twoWindows⟩ : Desktop Unit) = some _ := rfl
  have hclick := (click_topmost_iff (twoWindows_reachable ⟨run, fun _ => noApp, 0⟩)
    noButtons_up hlauncher hcall).mpr
  rw [hscreen.1, hscreen.2] at hclick
  exact ⟨_, _, rfl, hclick fun i hi =>
    hi.unique hhit ▸ twoWindows_top (by unfold Window.Contains; decide)⟩

/-- A click on the body of the second window grabs the first one, behind it. -/
theorem click_through :
    ∃ s d : Desktop Unit,
      (desktopSystem ⟨640#32, 480#32⟩ someSymbols noKeys).Reachable (s, 0#8) ∧
        onLauncher ⟨640#32, 480#32⟩ 150#32 110#32 = false ∧
        guiHandleMouseClick ⟨640#32, 480#32⟩ someSymbols 150#32 110#32 0#32 s = some d ∧
        d.gui.draggingWindow = 0 ∧ TopWindow s.gui 150#32 110#32 1 ∧
        ¬ ClickTopmost s.gui 150#32 110#32 d.gui := by
  obtain ⟨run, _⟩ := boot_idleAlone
  have htop : TopWindow twoWindows 150#32 110#32 1 :=
    twoWindows_top (by unfold Window.Contains; decide)
  have hgrabbed : (clickWindows 150#32 110#32 twoWindows 2).draggingWindow = 0 := by decide
  refine ⟨_, _, twoWindows_reachable ⟨run, fun _ => noApp, 0⟩, by decide, rfl, hgrabbed, htop, ?_⟩
  intro h
  rcases h.dragging with hsame | hother
  · exact absurd (show (0 : Int) = -1 from hgrabbed.symm.trans hsame) (by decide)
  · exact absurd (show (0 : Int) = 1 from hgrabbed.symm.trans (hother.unique htop)) (by decide)

end Zenix
