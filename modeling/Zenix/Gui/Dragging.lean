import Zenix.Gui.TopWindow

/-!
# Windows over many frames (kernel/gui/gui.c)

`gui_update` runs once for every frame. It grabs a window when the button goes down, moves
it while the button stays down, and lets it go. The position comes from the mouse and from
the place where the window was grabbed, and not from the last position.

Results:
1. `guiUpdate_cases`: what a call of `gui_update` does to the windows.
2. `gui_windows`: the table of the windows in every run from the start.
3. `drag_path`: where a drag ends depends only on the last position of the mouse.
-/

namespace Zenix
open ByteMemory

/-- The statics of the file. -/
def guiStatics : Gui := ⟨fun _ => ⟨0#32, 0#32, 0#32, 0#32, false, false⟩, 0, -1, 0#32, 0#32⟩

section Updates
variable {δ : Type} (screen : Screen) (sym : AppSymbols) (keypad : Keypad δ)

/-- Calls of `gui_update` and `gui_create_window` after `gui_init`. -/
def windowSystem : TransitionSystem (Desktop δ × Byte) DesktopEvent where
  init := fun s => ∃ d : Desktop δ, d.gui = guiStatics ∧ s = (guiInit keypad d, 0#8)
  step := DesktopStep screen sym keypad

/-! ## A call -/

/-- What happens to the windows when the mouse has the buttons `now` and had `last`. -/
inductive GuiChange (mx my : Word) (last now : Byte) (g : Gui) : Gui → Prop
  | none : (leftButton last = true → leftButton now = true) → GuiChange mx my last now g g
  | close {i : Int} : leftButton last = false → leftButton now = true →
      HitWindow g (screenX screen mx) (screenY screen my) i →
      GuiChange mx my last now g (guiCloseWindow i g)
  | grab {i : Int} : leftButton last = false → leftButton now = true →
      HitWindow g (screenX screen mx) (screenY screen my) i →
      GuiChange mx my last now g (grabWindow i (screenX screen mx) (screenY screen my) g)
  | drag : leftButton last = true → leftButton now = true → 0 ≤ g.draggingWindow →
      GuiChange mx my last now g (guiHandleMouseDrag screen mx my g)
  | release : leftButton now = false → GuiChange mx my last now g (guiHandleMouseRelease g)

variable {screen sym keypad}

theorem click_cases {mx my ticks : Word} {s d : Desktop δ} {last now : Byte}
    (hlast : leftButton last = false) (hnow : leftButton now = true)
    (h : guiHandleMouseClick screen sym mx my ticks s = some d) :
    GuiChange screen mx my last now s.gui d.gui := by
  have hup : leftButton last = true → leftButton now = true := fun _ => hnow
  rw [guiHandleMouseClick] at h
  dsimp only at h
  split at h
  · obtain ⟨_, _, rfl⟩ := Option.map_eq_some_iff.mp h
    exact .none hup
  · cases h
    have hend : ∀ j : Int, (s.gui.windowCount.toNat : Int) ≤ j → j < s.gui.windowCount →
        (s.gui.windows j).visible = true →
          ¬ (s.gui.windows j).Hit (screenX screen mx) (screenY screen my) :=
      fun j hlo hhi => absurd hhi (by omega)
    rcases clickWindows_cases s.gui (screenX screen mx) (screenY screen my) _ (Nat.le_refl _) hend with
      ⟨hsame, _⟩ | ⟨i, hi, hclick⟩
    · dsimp only
      rw [hsame]
      exact .none hup
    · dsimp only
      rw [hclick]
      split
      · exact .close hlast hnow hi
      · exact .grab hlast hnow hi

theorem guiUpdate_cases {s t : Desktop δ × Byte} {mouse mouse' : MouseState} {ticks : Word}
    (h : guiUpdate screen sym keypad mouse mouse' ticks s = some t) :
    t.2 = mouse.buttons ∧
      GuiChange screen mouse.x mouse.y s.2 mouse.buttons s.1.gui t.1.gui := by
  obtain ⟨d, hmouse, rfl⟩ := Option.map_eq_some_iff.mp h
  refine ⟨rfl, ?_⟩
  show GuiChange screen mouse.x mouse.y s.2 mouse.buttons s.1.gui d.gui
  unfold guiMouse at hmouse
  split at hmouse
  next hnow =>
    split at hmouse
    next hlast => exact click_cases hlast hnow hmouse
    next hlast =>
      rw [Bool.not_eq_false] at hlast
      split at hmouse
      next hdragging =>
        cases hmouse
        exact .drag hlast hnow hdragging
      next =>
        cases hmouse
        exact .none fun _ => hnow
  next hnow =>
    rw [Bool.not_eq_true] at hnow
    split at hmouse
    next =>
      cases hmouse
      exact .release hnow
    next hlast =>
      cases hmouse
      exact .none fun hdown => absurd hdown hlast

end Updates

/-! ## The table of the windows -/

/-- At most 16 windows exist and at most one is active. A window that is dragged exists, is
visible and active, and the button is down. -/
structure GuiInvariant (g : Gui) (lastButtons : Byte) : Prop where
  count : 0 ≤ g.windowCount ∧ g.windowCount ≤ MAX_WINDOWS
  dragged : g.draggingWindow ≠ -1 → 0 ≤ g.draggingWindow ∧ g.draggingWindow < g.windowCount
  shown : g.draggingWindow ≠ -1 → (g.windows g.draggingWindow).visible = true ∧
    (g.windows g.draggingWindow).active = true
  button : g.draggingWindow ≠ -1 → leftButton lastButtons = true
  active : ∀ i j, 0 ≤ i → i < g.windowCount → 0 ≤ j → j < g.windowCount →
    (g.windows i).active = true → (g.windows j).active = true → i = j

section Invariant
variable {screen : Screen} {g t : Gui} {last now : Byte}

theorem grabWindow_active {i j : Int} {px py : Word} (hj : 0 ≤ j ∧ j < g.windowCount) (hne : j ≠ i) :
    ((grabWindow i px py g).windows j).active = false := by
  have hwindows : (grabWindow i px py g).windows j =
      forEach g.windowCount (fun w => { w with active := false }) g.windows j :=
    Function.update_of_ne hne _ _
  rw [hwindows, forEach_apply, if_pos hj]

theorem grabWindow_self {i : Int} {px py : Word} :
    (grabWindow i px py g).windows i =
      { forEach g.windowCount (fun w => { w with active := false }) g.windows i with
        active := true } := Function.update_self ..

/-- The windows after a drag, up to their position. -/
theorem drag_kept (screen : Screen) (g : Gui) (mx my : Word) (i : Int) :
    ((guiHandleMouseDrag screen mx my g).windows i).active = (g.windows i).active ∧
      ((guiHandleMouseDrag screen mx my g).windows i).visible = (g.windows i).visible := by
  unfold guiHandleMouseDrag
  split
  · exact ⟨rfl, rfl⟩
  · dsimp only
    by_cases hi : i = g.draggingWindow
    · subst hi
      rw [Function.update_self]
      exact ⟨rfl, rfl⟩
    · rw [Function.update_of_ne hi]
      exact ⟨rfl, rfl⟩

theorem drag_statics (screen : Screen) (g : Gui) (mx my : Word) :
    (guiHandleMouseDrag screen mx my g).windowCount = g.windowCount ∧
      (guiHandleMouseDrag screen mx my g).draggingWindow = g.draggingWindow ∧
      (guiHandleMouseDrag screen mx my g).dragOffsetX = g.dragOffsetX ∧
      (guiHandleMouseDrag screen mx my g).dragOffsetY = g.dragOffsetY := by
  unfold guiHandleMouseDrag
  split
  · exact ⟨rfl, rfl, rfl, rfl⟩
  · exact ⟨rfl, rfl, rfl, rfl⟩

theorem change_invariant {mx my : Word} (hg : GuiInvariant g last)
    (h : GuiChange screen mx my last now g t) : GuiInvariant t now := by
  cases h with
  | none hbutton => exact ⟨hg.count, hg.dragged, hg.shown, fun h => hbutton (hg.button h), hg.active⟩
  | @close i hlast hnow hi =>
    have hfree : g.draggingWindow = -1 := by
      by_contra h
      exact Bool.false_ne_true (hlast.symm.trans (hg.button h))
    have hactive : ∀ j, ((guiCloseWindow i g).windows j).active = (g.windows j).active := by
      intro j
      rw [guiCloseWindow_inRange hi.range]
      dsimp only
      by_cases hj : j = i
      · rw [hj, Function.update_self]
      · rw [Function.update_of_ne hj]
    have hstatics : (guiCloseWindow i g).windowCount = g.windowCount ∧
        (guiCloseWindow i g).draggingWindow = -1 := by
      rw [guiCloseWindow_inRange hi.range]
      exact ⟨rfl, hfree⟩
    refine ⟨hstatics.1 ▸ hg.count, fun h => absurd hstatics.2 h, fun h => absurd hstatics.2 h,
      fun h => absurd hstatics.2 h, fun j k hj hj' hk hk' hactj hactk => ?_⟩
    rw [hstatics.1] at hj' hk'
    rw [hactive] at hactj hactk
    exact hg.active j k hj hj' hk hk' hactj hactk
  | @grab i hlast hnow hi =>
    refine ⟨hg.count, fun _ => hi.range, fun _ => ?_, fun _ => hnow, ?_⟩
    · show ((grabWindow i _ _ g).windows i).visible = true ∧ ((grabWindow i _ _ g).windows i).active = true
      rw [grabWindow_self, forEach_apply, if_pos hi.range]
      exact ⟨hi.visible, rfl⟩
    · have hgrabbed : ∀ j, 0 ≤ j → j < g.windowCount →
          ((grabWindow i (screenX screen mx) (screenY screen my) g).windows j).active = true →
            j = i := by
        intro j hlo hhi hactive
        by_contra hne
        rw [grabWindow_active ⟨hlo, hhi⟩ hne] at hactive
        cases hactive
      exact fun j k hj hj' hk hk' hactj hactk =>
        (hgrabbed j hj hj' hactj).trans (hgrabbed k hk hk' hactk).symm
  | drag _ hnow _ =>
    obtain ⟨hcount, hdragging, _, _⟩ := drag_statics screen g mx my
    have hkept := drag_kept screen g mx my
    constructor
    case count => exact hcount ▸ hg.count
    case dragged =>
      rw [hdragging, hcount]
      exact hg.dragged
    case shown =>
      rw [hdragging, (hkept _).1, (hkept _).2]
      exact hg.shown
    case button => exact fun _ => hnow
    case active =>
      intro j k
      rw [hcount, (hkept j).1, (hkept k).1]
      exact hg.active j k
  | release _ =>
    exact ⟨hg.count, fun h => absurd rfl h, fun h => absurd rfl h, fun h => absurd rfl h, hg.active⟩

theorem create_invariant {x y width height : Word} {title : Nat → Byte} {color : Byte}
    {looks : Int → WindowLook} (hg : GuiInvariant g last) :
    GuiInvariant (guiCreateWindow x y width height title color g looks).2.1 last := by
  unfold guiCreateWindow
  split
  next => exact hg
  next hroom =>
    have hcount := hg.count
    have hold : ∀ j, j < g.windowCount →
        Function.update g.windows g.windowCount ⟨x, y, width, height, true, false⟩ j = g.windows j :=
      fun j hj => Function.update_of_ne (Int.ne_of_lt hj) _ _
    constructor
    case count =>
      dsimp only
      omega
    case dragged =>
      intro h
      obtain ⟨hlo, hhi⟩ := hg.dragged h
      exact ⟨hlo, Int.lt_add_one_of_le (Int.le_of_lt hhi)⟩
    case shown =>
      intro h
      dsimp only
      rw [hold _ (hg.dragged h).2]
      exact hg.shown h
    case button => exact hg.button
    case active =>
      intro j k hj hj' hk hk' hactj hactk
      dsimp only at hj' hk' hactj hactk
      have hnew : ∀ j, j < g.windowCount + 1 →
          (Function.update g.windows g.windowCount ⟨x, y, width, height, true, false⟩ j).active =
            true → j < g.windowCount := by
        intro j hlt hactive
        by_contra hge
        rw [show j = g.windowCount by omega, Function.update_self] at hactive
        cases hactive
      have hltj := hnew j hj' hactj
      have hltk := hnew k hk' hactk
      rw [hold _ hltj] at hactj
      rw [hold _ hltk] at hactk
      exact hg.active j k hj hltj hk hltk hactj hactk

end Invariant

section Runs
variable {δ : Type} {screen : Screen} {sym : AppSymbols} {keypad : Keypad δ}
variable {s t : Desktop δ × Byte}

theorem step_invariant {event : DesktopEvent} (hs : GuiInvariant s.1.gui s.2)
    (h : DesktopStep screen sym keypad s event t) : GuiInvariant t.1.gui t.2 := by
  cases h with
  | update hcall =>
    obtain ⟨hbuttons, hchange⟩ := guiUpdate_cases hcall
    rw [hbuttons]
    exact change_invariant hs hchange
  | create => exact create_invariant hs

theorem windows_invariant (hs : (windowSystem screen sym keypad).Reachable s) :
    GuiInvariant s.1.gui s.2 := by
  refine hs.invariant (P := fun s => GuiInvariant s.1.gui s.2) ?_ fun _ _ _ _ hi hst =>
    step_invariant hi hst
  rintro s ⟨d, hd, rfl⟩
  have hcount : (guiInit keypad d).gui.windowCount = 0 := by
    show d.gui.windowCount = 0
    rw [hd]
    rfl
  have hdragging : (guiInit keypad d).gui.draggingWindow = -1 := by
    show d.gui.draggingWindow = -1
    rw [hd]
    rfl
  refine ⟨by rw [hcount]; exact ⟨by decide, by decide⟩, fun h => absurd hdragging h,
    fun h => absurd hdragging h, fun h => absurd hdragging h, fun i j hi hi' => ?_⟩
  rw [hcount] at hi'
  omega

/-! ## Windows are not reused -/

def DesktopEvent.creates : DesktopEvent → Bool
  | .update .. => false
  | .create .. => true

/-- What a run keeps of the windows that exist: their size, and that they are closed. -/
structure KeepsWindows (g t : Gui) : Prop where
  count : g.windowCount ≤ t.windowCount
  size : ∀ i, 0 ≤ i → i < g.windowCount →
    (t.windows i).width = (g.windows i).width ∧ (t.windows i).height = (g.windows i).height
  closed : ∀ i, 0 ≤ i → i < g.windowCount → (g.windows i).visible = false →
    (t.windows i).visible = false

theorem KeepsWindows.refl (g : Gui) : KeepsWindows g g :=
  ⟨Int.le_refl _, fun _ _ _ => ⟨rfl, rfl⟩, fun _ _ _ h => h⟩

theorem KeepsWindows.trans {g t u : Gui} (h : KeepsWindows g t) (h' : KeepsWindows t u) :
    KeepsWindows g u := by
  refine ⟨Int.le_trans h.count h'.count, fun i hlo hhi => ?_, fun i hlo hhi hclosed => ?_⟩
  · have hnext := h'.size i hlo (Int.lt_of_lt_of_le hhi h.count)
    have hprev := h.size i hlo hhi
    exact ⟨hnext.1.trans hprev.1, hnext.2.trans hprev.2⟩
  · exact h'.closed i hlo (Int.lt_of_lt_of_le hhi h.count) (h.closed i hlo hhi hclosed)

/-- Windows that differ in what may change only. -/
theorem keepsWindows_of_windows {g t : Gui} (hcount : t.windowCount = g.windowCount)
    (h : ∀ i, (t.windows i).width = (g.windows i).width ∧
      (t.windows i).height = (g.windows i).height ∧
      ((g.windows i).visible = false → (t.windows i).visible = false)) : KeepsWindows g t :=
  ⟨hcount ▸ Int.le_refl _, fun i _ _ => ⟨(h i).1, (h i).2.1⟩, fun i _ _ => (h i).2.2⟩

theorem change_keeps {mx my : Word} {last now : Byte} {g t : Gui}
    (h : GuiChange screen mx my last now g t) :
    KeepsWindows g t ∧ t.windowCount = g.windowCount := by
  cases h with
  | none => exact ⟨.refl g, rfl⟩
  | @close i _ _ hi =>
    rw [guiCloseWindow_inRange hi.range]
    refine ⟨keepsWindows_of_windows rfl fun j => ?_, rfl⟩
    dsimp only
    by_cases hj : j = i
    · subst hj
      rw [Function.update_self]
      exact ⟨rfl, rfl, fun _ => rfl⟩
    · rw [Function.update_of_ne hj]
      exact ⟨rfl, rfl, id⟩
  | @grab i _ _ hi =>
    refine ⟨keepsWindows_of_windows rfl fun j => ?_, rfl⟩
    by_cases hj : j = i
    · subst hj
      rw [grabWindow_self, forEach_apply, if_pos hi.range]
      exact ⟨rfl, rfl, id⟩
    · rcases @grabWindow_other g (screenX screen mx) (screenY screen my) i j hj with hsame | hsame
      · rw [hsame]
        exact ⟨rfl, rfl, id⟩
      · rw [hsame]
        exact ⟨rfl, rfl, id⟩
  | drag =>
    obtain ⟨hcount, _⟩ := drag_statics screen g mx my
    refine ⟨keepsWindows_of_windows hcount fun j => ?_, hcount⟩
    unfold guiHandleMouseDrag
    split
    · exact ⟨rfl, rfl, id⟩
    · dsimp only
      by_cases hj : j = g.draggingWindow
      · subst hj
        rw [Function.update_self]
        exact ⟨rfl, rfl, id⟩
      · rw [Function.update_of_ne hj]
        exact ⟨rfl, rfl, id⟩
  | release => exact ⟨keepsWindows_of_windows rfl fun _ => ⟨rfl, rfl, id⟩, rfl⟩

theorem create_keeps {x y width height : Word} {title : Nat → Byte} {color : Byte} {g : Gui}
    {looks : Int → WindowLook} (hcount : g.windowCount ≤ MAX_WINDOWS) :
    KeepsWindows g (guiCreateWindow x y width height title color g looks).2.1 ∧
      (guiCreateWindow x y width height title color g looks).2.1.windowCount =
        min MAX_WINDOWS (g.windowCount + 1) := by
  unfold guiCreateWindow
  split
  next hfull =>
    have hsame : g.windowCount = MAX_WINDOWS := Int.le_antisymm hcount hfull
    refine ⟨.refl g, ?_⟩
    dsimp only
    omega
  next hroom =>
    have hold : ∀ j, j < g.windowCount →
        Function.update g.windows g.windowCount ⟨x, y, width, height, true, false⟩ j = g.windows j :=
      fun j hj => Function.update_of_ne (Int.ne_of_lt hj) _ _
    refine ⟨⟨Int.le_add_one (Int.le_refl _), fun i _ hi => ?_, fun i _ hi hclosed => ?_⟩, ?_⟩
    · dsimp only
      rw [hold i hi]
      exact ⟨rfl, rfl⟩
    · dsimp only
      rw [hold i hi]
      exact hclosed
    · dsimp only
      omega

/-- In every run after `gui_init` the table keeps the invariant, windows keep their size and
closed windows stay closed. Their places are not used again: there are as many windows as
have been created, up to 16. -/
theorem gui_windows (hs : (windowSystem screen sym keypad).Reachable s)
    {events : List DesktopEvent} (hrun : (windowSystem screen sym keypad).Run s events t) :
    GuiInvariant t.1.gui t.2 ∧ KeepsWindows s.1.gui t.1.gui ∧
      t.1.gui.windowCount =
        min MAX_WINDOWS (s.1.gui.windowCount + events.countP DesktopEvent.creates) := by
  refine ⟨windows_invariant (hs.run hrun), ?_⟩
  induction hrun with
  | @nil s =>
    have hcount := (windows_invariant hs).count.2
    exact ⟨.refl _, by rw [List.countP_nil]; omega⟩
  | @cons s u t event events hst _ ih =>
    obtain ⟨hkeeps, hcount⟩ := ih (hs.step hst)
    rw [hcount, List.countP_cons]
    cases hst with
    | update hcall =>
      obtain ⟨hfirst, hsame⟩ := change_keeps (guiUpdate_cases hcall).2
      exact ⟨hfirst.trans hkeeps, by rw [hsame]; rfl⟩
    | create =>
      obtain ⟨hfirst, hone⟩ := create_keeps (windows_invariant hs).count.2
      refine ⟨hfirst.trans hkeeps, ?_⟩
      rw [hone, DesktopEvent.creates, if_pos rfl]
      omega

/-! ## A drag -/

/-- The button is down. -/
def DesktopEvent.Held : DesktopEvent → Prop
  | .update mouse _ _ => leftButton mouse.buttons = true
  | .create .. => True

/-- The position of the mouse in a call of `gui_update`. -/
def DesktopEvent.position : DesktopEvent → Option (Word × Word)
  | .update mouse _ _ => some (mouse.x, mouse.y)
  | .create .. => none

/-- The window that is dragged from `g` after the mouse has been at these positions. -/
def draggedTo (screen : Screen) (g : Gui) (positions : List (Word × Word)) : Window :=
  match positions.getLast? with
  | none => g.windows g.draggingWindow
  | some (mx, my) => (guiHandleMouseDrag screen mx my g).windows g.draggingWindow

/-- What a drag from `g` keeps, and where the window is. -/
structure Dragged (screen : Screen) (g : Gui) (positions : List (Word × Word)) (t : Gui) : Prop where
  dragging : t.draggingWindow = g.draggingWindow
  offset : t.dragOffsetX = g.dragOffsetX ∧ t.dragOffsetY = g.dragOffsetY
  count : g.windowCount ≤ t.windowCount
  others : ∀ i, i < g.windowCount → i ≠ g.draggingWindow → t.windows i = g.windows i
  window : t.windows g.draggingWindow = draggedTo screen g positions

theorem drag_others {mx my : Word} {g : Gui} {i : Int} (hne : i ≠ g.draggingWindow) :
    (guiHandleMouseDrag screen mx my g).windows i = g.windows i := by
  unfold guiHandleMouseDrag
  split
  · rfl
  · exact Function.update_of_ne hne _ _

/-- A drag sets the position of the window from the mouse, the offsets and the size. -/
theorem drag_window {mx my : Word} {g t : Gui} (hg : 0 ≤ g.draggingWindow)
    (hdragging : t.draggingWindow = g.draggingWindow)
    (hoffset : t.dragOffsetX = g.dragOffsetX ∧ t.dragOffsetY = g.dragOffsetY)
    (hwindow : { t.windows g.draggingWindow with
        x := (g.windows g.draggingWindow).x, y := (g.windows g.draggingWindow).y } =
      g.windows g.draggingWindow) :
    (guiHandleMouseDrag screen mx my t).windows g.draggingWindow =
      (guiHandleMouseDrag screen mx my g).windows g.draggingWindow := by
  have hfree : ¬ g.draggingWindow < 0 := Int.not_lt.mpr hg
  unfold guiHandleMouseDrag
  rw [hdragging, if_neg hfree, if_neg hfree]
  dsimp only
  rw [Function.update_self, Function.update_self, hoffset.1, hoffset.2, ← hwindow]

/-- Up to the position it is still the window that was grabbed. -/
theorem draggedTo_same (screen : Screen) (g : Gui) (positions : List (Word × Word)) :
    { draggedTo screen g positions with
      x := (g.windows g.draggingWindow).x, y := (g.windows g.draggingWindow).y } =
      g.windows g.draggingWindow := by
  unfold draggedTo
  cases positions.getLast? with
  | none => rfl
  | some p =>
    dsimp only
    unfold guiHandleMouseDrag
    split
    · rfl
    · dsimp only
      rw [Function.update_self]

theorem Dragged.drag {mx my : Word} {g t : Gui} {positions : List (Word × Word)}
    (hg : 0 ≤ g.draggingWindow) (ht : Dragged screen g positions t) :
    Dragged screen g (positions ++ [(mx, my)]) (guiHandleMouseDrag screen mx my t) := by
  obtain ⟨hcount, hdragging, hx, hy⟩ := drag_statics screen t mx my
  refine ⟨hdragging.trans ht.dragging, ⟨hx.trans ht.offset.1, hy.trans ht.offset.2⟩,
    hcount ▸ ht.count, fun i hi hne => ?_, ?_⟩
  · rw [drag_others (ht.dragging ▸ hne)]
    exact ht.others i hi hne
  · have hsame := draggedTo_same screen g positions
    rw [← ht.window] at hsame
    rw [drag_window hg ht.dragging ht.offset hsame, draggedTo, List.getLast?_concat]

theorem Dragged.create {g t : Gui} {positions : List (Word × Word)} {x y width height : Word}
    {title : Nat → Byte} {color : Byte} {looks : Int → WindowLook}
    (hg : g.draggingWindow < g.windowCount) (ht : Dragged screen g positions t) :
    Dragged screen g positions (guiCreateWindow x y width height title color t looks).2.1 := by
  have hcount := ht.count
  unfold guiCreateWindow
  split
  · exact ht
  · refine ⟨ht.dragging, ht.offset, Int.le_add_one hcount, fun i hi hne => ?_, ?_⟩
    · refine (Function.update_of_ne ?_ _ _).trans (ht.others i hi hne)
      exact Int.ne_of_lt (Int.lt_of_lt_of_le hi hcount)
    · refine (Function.update_of_ne ?_ _ _).trans ht.window
      exact Int.ne_of_lt (Int.lt_of_lt_of_le hg hcount)

theorem guiUpdate_held {mouse mouse' : MouseState} {ticks : Word}
    (h : guiUpdate screen sym keypad mouse mouse' ticks s = some t)
    (hlast : leftButton s.2 = true) (hnow : leftButton mouse.buttons = true)
    (hdragging : 0 ≤ s.1.gui.draggingWindow) :
    t.1.gui = guiHandleMouseDrag screen mouse.x mouse.y s.1.gui ∧ t.2 = mouse.buttons := by
  obtain ⟨d, hmouse, rfl⟩ := Option.map_eq_some_iff.mp h
  have hdown : ¬ leftButton s.2 = false := by
    rw [hlast]
    exact Bool.noConfusion
  rw [guiMouse, if_pos hnow, if_neg hdown, if_pos hdragging] at hmouse
  cases hmouse
  exact ⟨rfl, rfl⟩

/-- The run from a state in the middle of the drag. -/
theorem Dragged.run {g : Gui} {positions : List (Word × Word)} {events : List DesktopEvent}
    (hg : 0 ≤ g.draggingWindow ∧ g.draggingWindow < g.windowCount)
    (hrun : (windowSystem screen sym keypad).Run s events t)
    (hs : Dragged screen g positions s.1.gui) (hdown : leftButton s.2 = true)
    (hheld : ∀ e ∈ events, e.Held) :
    Dragged screen g (positions ++ events.filterMap DesktopEvent.position) t.1.gui := by
  induction hrun generalizing positions with
  | nil => rwa [List.filterMap_nil, List.append_nil]
  | @cons s u t event events hst _ ih =>
    obtain ⟨hfirst, hrest⟩ := List.forall_mem_cons.mp hheld
    cases hst with
    | update hcall =>
      obtain ⟨hgui, hbuttons⟩ := guiUpdate_held hcall hdown hfirst (hs.dragging ▸ hg.1)
      have hnext := ih (hgui ▸ hs.drag hg.1) (hbuttons ▸ hfirst) hrest
      rwa [List.append_assoc] at hnext
    | create => exact ih (hs.create hg.2) hdown hrest

/-- While the button stays down, the window that is dragged is where the last position of
the mouse takes it from where it was grabbed, whatever the way was and whichever windows are
created meanwhile. The other windows stay. -/
theorem drag_path (hs : (windowSystem screen sym keypad).Reachable s)
    (hdragging : s.1.gui.draggingWindow ≠ -1) {events : List DesktopEvent}
    (hrun : (windowSystem screen sym keypad).Run s events t) (hheld : ∀ e ∈ events, e.Held) :
    Dragged screen s.1.gui (events.filterMap DesktopEvent.position) t.1.gui := by
  have hinv := windows_invariant hs
  have hstart : Dragged screen s.1.gui [] s.1.gui :=
    ⟨rfl, ⟨rfl, rfl⟩, Int.le_refl _, fun _ _ _ => rfl, rfl⟩
  exact Dragged.run (hinv.dragged hdragging) hrun hstart (hinv.button hdragging) hheld

end Runs

/-! ## A run -/

/-- The desktop after `gui_init`. -/
def startedDesktop (run : TableRun) : Desktop Unit × Byte :=
  (guiInit noKeys ⟨⟨run, fun _ => noApp, 0⟩, noCalculator, guiStatics⟩, 0#8)

/-- The desktop after a window of 200 x 200 points has been created. -/
def createdDesktop (run : TableRun) : Desktop Unit × Byte :=
  ({ (startedDesktop run).1 with
      gui := (guiCreateWindow 100#32 100#32 200#32 200#32 (fun _ => 0#8) 0x3F#8
        (startedDesktop run).1.gui fun _ => ⟨0#8, 0#8, fun _ => 0#8⟩).2.1 }, 0#8)

section Example
variable (run : TableRun)

theorem startedDesktop_reachable :
    (windowSystem ⟨640#32, 480#32⟩ someSymbols noKeys).Reachable (startedDesktop run) :=
  .init ⟨_, rfl, rfl⟩

theorem createdDesktop_step :
    (windowSystem ⟨640#32, 480#32⟩ someSymbols noKeys).step (startedDesktop run)
      (.create 100#32 100#32 200#32 200#32 (fun _ => 0#8) 0x3F#8) (createdDesktop run) :=
  .create

end Example

/-- The first window. -/
theorem gui_windows_first :
    ∃ t : Desktop Unit × Byte, GuiInvariant t.1.gui t.2 ∧ t.1.gui.windowCount = 1 := by
  obtain ⟨run, _⟩ := boot_idleAlone
  have hfirst := gui_windows (startedDesktop_reachable run) (.cons (createdDesktop_step run) .nil)
  exact ⟨createdDesktop run, hfirst.1, hfirst.2.2⟩

/-- The press of the button at (150, 110) grabs the window. -/
theorem createdDesktop_grab (run : TableRun) :
    ∃ s : Desktop Unit × Byte, guiUpdate ⟨640#32, 480#32⟩ someSymbols noKeys ⟨150#32, 110#32, 1#8⟩
        ⟨150#32, 110#32, 1#8⟩ 0#32 (createdDesktop run) = some s ∧ s.2 = 1#8 ∧
      s.1.gui = grabWindow 0 150#32 110#32 (createdDesktop run).1.gui := by
  have hscreen : screenX ⟨640#32, 480#32⟩ 150#32 = 150#32 ∧
      screenY ⟨640#32, 480#32⟩ 110#32 = 110#32 := by decide
  have hwindow : (createdDesktop run).1.gui.windows ((0 : Nat) : Int) =
      ⟨100#32, 100#32, 200#32, 200#32, true, false⟩ := rfl
  have hclick : clickWindows 150#32 110#32 (createdDesktop run).1.gui 1 =
      grabWindow 0 150#32 110#32 (createdDesktop run).1.gui := by
    rw [clickWindows, hwindow]
    dsimp only
    rw [if_neg (by decide), if_neg (by decide), if_pos (by decide)]
    rfl
  have hmouse : guiMouse ⟨640#32, 480#32⟩ someSymbols ⟨150#32, 110#32, 1#8⟩ 0#8 0#32
      (createdDesktop run).1 = some { (createdDesktop run).1 with
        gui := grabWindow 0 150#32 110#32 (createdDesktop run).1.gui } := by
    rw [guiMouse, if_pos (by decide), if_pos (by decide), guiHandleMouseClick]
    dsimp only
    rw [hscreen.1, hscreen.2, if_neg (by decide)]
    exact congrArg (fun gui => some { (createdDesktop run).1 with gui := gui }) hclick
  exact ⟨_, congrArg (Option.map _) hmouse, rfl, rfl⟩

/-- The window that was grabbed at (150, 110) follows the mouse to (200, 150). -/
theorem drag_path_moved :
    ∃ s t : Desktop Unit × Byte, s.1.gui.draggingWindow = 0 ∧
      Dragged ⟨640#32, 480#32⟩ s.1.gui [(200#32, 150#32)] t.1.gui := by
  obtain ⟨run, _⟩ := boot_idleAlone
  obtain ⟨s, hgrab, hbuttons, hgui⟩ := createdDesktop_grab run
  have hs := ((startedDesktop_reachable run).step (createdDesktop_step run)).step
    (DesktopStep.update hgrab)
  have hdragging : s.1.gui.draggingWindow = 0 := by rw [hgui]; rfl
  obtain ⟨t, hmove⟩ : ∃ t, guiUpdate ⟨640#32, 480#32⟩ someSymbols noKeys ⟨200#32, 150#32, 1#8⟩
      ⟨200#32, 150#32, 1#8⟩ 0#32 s = some t := by
    rw [guiUpdate, guiMouse, if_pos (by decide), if_neg (by rw [hbuttons]; decide),
      if_pos (Int.le_of_eq hdragging.symm)]
    exact ⟨_, rfl⟩
  refine ⟨s, t, hdragging, drag_path hs ?_ (.cons (.update hmove) .nil) ?_⟩
  · rw [hdragging]
    decide
  · rw [List.forall_mem_singleton, DesktopEvent.Held]
    decide

end Zenix
