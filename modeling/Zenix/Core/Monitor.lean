import Zenix.Lib.AccessLog
import Zenix.Lib.Memory
import Zenix.Lib.Transition

/-!
# The console (kernel/core/monitor.c)

The console writes to the text-mode video memory, 25 rows of 80 cells, and keeps
the lines that scroll off the top. The functions log every access to the two
arrays, and the state that every call of `print_char` leaves behind.

Results:
1. `printChar_safe`: what one character does to the cursor, and which cells it
   touches.
2. `console_safe`: in every run the cursor stays on the screen between calls of
   `print_char`, every access is in bounds and the scrollback counters are ordered.
-/

namespace Zenix
open ByteMemory Logged

/-- The statics of monitor.c. -/
structure Console where
  videoMemory : Nat → BitVec 16
  cursorX : BitVec 8
  cursorY : BitVec 8
  textAttribute : BitVec 8
  scrollbackBuffer : Int → Nat → Byte
  scrollbackCount : Int
  scrollbackOffset : Int

def SCROLLBACK_LINES : Int := 100

/-- What the functions log. -/
inductive ConsoleEvent where
  | write (index : Nat)
  | read (index : Nat)
  | scrollback (row : Int) (column : Nat)
  /-- The return of a call of `print_char`. -/
  | printed (s : Console)

/-! ## The arrays -/

def writeVideo (i : Nat) (v : BitVec 16) (s : Console) : Logged ConsoleEvent Console := do
  touch (.write i)
  pure { s with videoMemory := fun j => if j = i then v else s.videoMemory j }

def readVideo (i : Nat) (s : Console) : Logged ConsoleEvent (BitVec 16) := do
  touch (.read i)
  pure (s.videoMemory i)

def writeScrollback (row : Int) (column : Nat) (v : Byte) (s : Console) :
    Logged ConsoleEvent Console := do
  touch (.scrollback row column)
  pure { s with
    scrollbackBuffer := fun r c =>
      if r = row ∧ c = column then v else s.scrollbackBuffer r c }

/-- `(attribute << 8) | c`, cut to 16 bits. A `char` is signed. -/
def cell (textAttribute : BitVec 8) (c : Byte) : BitVec 16 :=
  textAttribute.setWidth 16 <<< 8 ||| c.signExtend 16

/-! ## The functions -/

def clearScreen (s : Console) : Logged ConsoleEvent Console := do
  let s ← (List.range (80 * 25)).foldlM (fun s i => writeVideo i (cell s.textAttribute 0x20#8) s) s
  pure { s with cursorX := 0#8, cursorY := 0#8, scrollbackCount := 0, scrollbackOffset := 0 }

def saveLineToScrollback (s : Console) : Logged ConsoleEvent Console :=
  if s.scrollbackCount < SCROLLBACK_LINES then do
    let s ← (List.range 80).foldlM (fun s i => do
      let v ← readVideo i s
      writeScrollback s.scrollbackCount i (v.setWidth 8) s) s
    pure { s with scrollbackCount := s.scrollbackCount + 1 }
  else pure s

def scroll (s : Console) : Logged ConsoleEvent Console :=
  if 25#8 ≤ s.cursorY then do
    let s ← saveLineToScrollback s
    let s ← (List.range (24 * 80)).foldlM (fun s i => do
      let v ← readVideo (i + 80) s
      writeVideo i v s) s
    let s ← (List.range' (24 * 80) 80).foldlM
      (fun s i => writeVideo i (cell s.textAttribute 0x20#8) s) s
    pure { s with cursorY := 24#8 }
  else pure s

/-- The index that `cursor_y * 80 + cursor_x` is. -/
def cursorIndex (s : Console) : Nat := s.cursorY.toNat * 80 + s.cursorX.toNat

/-- The first `if` of `print_char`. -/
def placeChar (c : Byte) (s : Console) : Logged ConsoleEvent Console :=
  if c = 0x0A#8 then pure { s with cursorX := 0#8, cursorY := s.cursorY + 1#8 }
  else if c = 0x08#8 then
    if 0#8 < s.cursorX then
      let s := { s with cursorX := s.cursorX - 1#8 }
      writeVideo (cursorIndex s) (cell s.textAttribute 0x20#8) s
    else pure s
  else if c = 0x09#8 then pure { s with cursorX := (s.cursorX + 4#8) &&& ~~~3#8 }
  else do
    let s ← writeVideo (cursorIndex s) (cell s.textAttribute c) s
    pure { s with cursorX := s.cursorX + 1#8 }

/-- The second `if` of `print_char`. -/
def wrapCursor (s : Console) : Console :=
  if 80#8 ≤ s.cursorX then { s with cursorX := 0#8, cursorY := s.cursorY + 1#8 } else s

def printChar (c : Byte) (s : Console) : Logged ConsoleEvent Console := do
  let s ← placeChar c s
  let s ← scroll (wrapCursor s)
  touch (.printed s)
  pure s

/-- A call of `print_char` for each of the bytes. -/
def printChars (cs : List Byte) (s : Console) : Logged ConsoleEvent Console :=
  cs.foldlM (fun s c => printChar c s) s

/-- `print_string` on the bytes that follow a pointer. -/
def printString (str : List Byte) (s : Console) : Logged ConsoleEvent Console :=
  printChars (str.takeWhile fun c => c ≠ 0#8) s

/-- The bytes of a string literal. -/
def literal (text : String) : List Byte := text.toList.map fun c => BitVec.ofNat 8 c.toNat

/-- What the first loop of `print_dec` stores in its buffer. -/
def decDigits (n : Nat) : List Byte :=
  if n = 0 then [] else BitVec.ofNat 8 (0x30 + n % 10) :: decDigits (n / 10)
termination_by n
decreasing_by omega

def printDec (n : Word) (s : Console) : Logged ConsoleEvent Console :=
  if n = 0#32 then printChar 0x30#8 s else printChars (decDigits n.toNat).reverse s

def printHex (n : Word) (s : Console) : Logged ConsoleEvent Console :=
  printChars ((List.range 8).map fun i =>
    (literal "0123456789ABCDEF").getD (n >>> (28 - 4 * i) &&& 0xF#32).toNat 0#8) s

def scrollUp (s : Console) : Logged ConsoleEvent Console :=
  if s.scrollbackOffset < s.scrollbackCount then do
    let s := { s with scrollbackOffset := s.scrollbackOffset + 1 }
    let s ← printString (literal "[Scroll up - ") s
    let s ← printDec (BitVec.ofInt 32 s.scrollbackOffset) s
    let s ← printString (literal "/") s
    let s ← printDec (BitVec.ofInt 32 s.scrollbackCount) s
    printString (literal "]") s
  else pure s

def scrollDown (s : Console) : Logged ConsoleEvent Console :=
  if 0 < s.scrollbackOffset then
    let s := { s with scrollbackOffset := s.scrollbackOffset - 1 }
    printString (literal "[Scroll down]") s
  else pure s

def setTextColor (foreground background : BitVec 8) (s : Console) : Console :=
  { s with textAttribute := background <<< 4 ||| foreground &&& 0x0F#8 }

/-! ## Runs -/

inductive ConsoleOp where
  | printChar (c : Byte)
  | printString (str : List Byte)
  | printDec (n : Word)
  | printHex (n : Word)
  | scrollUp
  | scrollDown
  | setTextColor (foreground background : BitVec 8)
  | clearScreen

def consoleCall (s : Console) : ConsoleOp → Logged ConsoleEvent Console
  | .printChar c => printChar c s
  | .printString str => printString str s
  | .printDec n => printDec n s
  | .printHex n => printHex n s
  | .scrollUp => scrollUp s
  | .scrollDown => scrollDown s
  | .setTextColor foreground background => pure (setTextColor foreground background s)
  | .clearScreen => clearScreen s

/-- `clear_screen` in any state, and then calls in any order. -/
def consoleSystem : TransitionSystem Console ConsoleOp where
  init := fun s => ∃ c, s = (clearScreen c).value
  step := fun s op t => t = (consoleCall s op).value

/-! ## The property -/

/-- The cursor is on the screen, and the scrollback counters are ordered. -/
structure Console.Safe (s : Console) : Prop where
  column : s.cursorX.toNat < 80
  row : s.cursorY.toNat < 25
  offset_nonneg : 0 ≤ s.scrollbackOffset
  offset_le : s.scrollbackOffset ≤ s.scrollbackCount
  count_le : s.scrollbackCount ≤ 100

/-- The access is in bounds; `print_char` has left a safe state. -/
def SafeEvent : ConsoleEvent → Prop
  | .write index => index < 2000
  | .read index => index < 2000
  | .scrollback row column => (0 ≤ row ∧ row < 100) ∧ column < 80
  | .printed s => s.Safe

/-! ## The loops -/

/-- `t` differs from `s` only in the contents of the two arrays. -/
def SameFields (s t : Console) : Prop :=
  ∃ m b, t = { s with videoMemory := m, scrollbackBuffer := b }

theorem SameFields.refl (s : Console) : SameFields s s := ⟨_, _, rfl⟩

theorem SameFields.trans {s t u : Console} (h : SameFields s t) (h' : SameFields t u) :
    SameFields s u := by
  obtain ⟨_, _, rfl⟩ := h
  obtain ⟨_, _, rfl⟩ := h'
  exact ⟨_, _, rfl⟩

theorem writeVideo_meets {i : Nat} {v : BitVec 16} {s : Console} (hi : i < 2000) :
    (writeVideo i v s).Meets SafeEvent (SameFields s) := by
  unfold writeVideo
  exact meets_touch hi (meets_pure ⟨_, _, rfl⟩)

theorem readVideo_meets {i : Nat} {s : Console} (hi : i < 2000) :
    (readVideo i s).Meets SafeEvent fun _ => True := by
  unfold readVideo
  exact meets_touch hi (meets_pure trivial)

/-- A loop whose rounds change only the contents of the arrays. -/
theorem loop_meets {f : Console → Nat → Logged ConsoleEvent Console} {is : List Nat} {s : Console}
    (hf : ∀ t i, i ∈ is → SameFields s t → (f t i).Meets SafeEvent (SameFields t)) :
    (is.foldlM f s).Meets SafeEvent (SameFields s) :=
  meets_foldlM (SameFields.refl s) fun t i hi ht => (hf t i hi ht).mono fun _ => ht.trans

theorem clearScreen_safe (s : Console) : (clearScreen s).Meets SafeEvent Console.Safe := by
  unfold clearScreen
  refine Meets.bind (Q := SameFields s) (loop_meets fun t i hi _ => ?_) fun t _ => ?_
  · exact writeVideo_meets (List.mem_range.mp hi)
  · exact meets_pure ⟨Nat.zero_lt_succ _, Nat.zero_lt_succ _, Int.le_refl 0, Int.le_refl 0,
      by dsimp only; omega⟩

/-! ## Scrolling -/

/-- The state when `scroll` is called: the cursor may be one row below the screen. -/
structure Console.Pending (s : Console) : Prop where
  column : s.cursorX.toNat < 80
  row : s.cursorY.toNat ≤ 25
  offset_nonneg : 0 ≤ s.scrollbackOffset
  offset_le : s.scrollbackOffset ≤ s.scrollbackCount
  count_le : s.scrollbackCount ≤ 100

theorem Console.Pending.congr {s t : Console} (h : s.Pending) (hst : SameFields s t) :
    t.Pending := by
  obtain ⟨_, _, rfl⟩ := hst
  exact ⟨h.column, h.row, h.offset_nonneg, h.offset_le, h.count_le⟩

theorem saveLineToScrollback_meets {s : Console} (hs : s.Pending) :
    (saveLineToScrollback s).Meets SafeEvent Console.Pending := by
  have hle := hs.offset_le
  have hnonneg := hs.offset_nonneg
  unfold saveLineToScrollback SCROLLBACK_LINES
  split
  · next hroom =>
    refine Meets.bind (Q := SameFields s) (loop_meets fun t i hi ht => ?_) fun t ht => meets_pure ?_
    · have hcol := List.mem_range.mp hi
      obtain ⟨_, _, rfl⟩ := ht
      refine (readVideo_meets (by omega)).bind fun v _ => ?_
      unfold writeScrollback
      have hrow : 0 ≤ s.scrollbackCount := Int.le_trans hnonneg hle
      exact meets_touch ⟨⟨hrow, hroom⟩, hcol⟩ (meets_pure ⟨_, _, rfl⟩)
    · obtain ⟨_, _, rfl⟩ := ht
      refine ⟨hs.column, hs.row, hnonneg, ?_, ?_⟩
      · dsimp only
        omega
      · dsimp only
        omega
  · exact meets_pure hs

theorem scroll_meets {s : Console} (hs : s.Pending) : (scroll s).Meets SafeEvent Console.Safe := by
  unfold scroll
  split
  · refine (saveLineToScrollback_meets hs).bind fun s₁ hs₁ => ?_
    refine Meets.bind (Q := SameFields s₁) (loop_meets fun t i hi _ => ?_) fun s₂ hs₂ => ?_
    · have hlt := List.mem_range.mp hi
      exact (readVideo_meets (by omega)).bind fun v _ => writeVideo_meets (by omega)
    · refine Meets.bind (Q := SameFields s₂) (loop_meets fun t i hi _ => ?_) fun s₃ hs₃ =>
        meets_pure ?_
      · exact writeVideo_meets (List.mem_range'_1.mp hi).2
      · have h := hs₁.congr (hs₂.trans hs₃)
        exact ⟨h.column, show (24#8).toNat < 25 by decide, h.offset_nonneg, h.offset_le, h.count_le⟩
  · next hrow =>
    rw [BitVec.le_def, Nat.not_le] at hrow
    exact meets_pure ⟨hs.column, hrow, hs.offset_nonneg, hs.offset_le, hs.count_le⟩

/-! ## One character -/

/-- The state after the first `if` of `print_char`: a line feed has moved the cursor
to the next row, or the cursor has moved to the right by at most the rest of the
row. -/
structure Console.Placed (s : Console) : Prop where
  cursor : s.cursorX.toNat < 80 ∧ s.cursorY.toNat ≤ 25 ∨ s.cursorX.toNat ≤ 80 ∧ s.cursorY.toNat < 25
  offset_nonneg : 0 ≤ s.scrollbackOffset
  offset_le : s.scrollbackOffset ≤ s.scrollbackCount
  count_le : s.scrollbackCount ≤ 100

/-- A tab moves the cursor to a multiple of four, at most to the end of the row. -/
theorem tab_le (x : BitVec 8) (h : x.toNat < 80) : ((x + 4#8) &&& ~~~3#8).toNat ≤ 80 := by
  have htabs : ∀ x : BitVec 8, x < 80#8 → (x + 4#8) &&& ~~~3#8 ≤ 80#8 := by decide
  exact htabs x h

theorem Console.Safe.cursorIndex_lt {s : Console} (h : s.Safe) : cursorIndex s < 2000 := by
  have hcol := h.column
  have hrow := h.row
  unfold cursorIndex
  omega

theorem placeChar_meets {s : Console} (c : Byte) (hs : s.Safe) :
    (placeChar c s).Meets SafeEvent Console.Placed := by
  have hcol := hs.column
  have hrow := hs.row
  have hplaced : ∀ t : Console, SameFields s t →
      ∀ x y : BitVec 8, x.toNat < 80 ∧ y.toNat ≤ 25 ∨ x.toNat ≤ 80 ∧ y.toNat < 25 →
        ({ t with cursorX := x, cursorY := y } : Console).Placed := by
    rintro t ⟨_, _, rfl⟩ x y hxy
    exact ⟨hxy, hs.offset_nonneg, hs.offset_le, hs.count_le⟩
  unfold placeChar
  split
  · refine meets_pure (hplaced s (.refl s) _ _ (Or.inl ⟨by decide, ?_⟩))
    bv_omega
  · split
    · split
      · next hpos =>
        have hleft : (s.cursorX - 1#8).toNat < 80 := by bv_omega
        have hsafe : ({ s with cursorX := s.cursorX - 1#8 } : Console).Safe :=
          ⟨hleft, hrow, hs.offset_nonneg, hs.offset_le, hs.count_le⟩
        refine (writeVideo_meets hsafe.cursorIndex_lt).mono ?_
        rintro t ⟨_, _, rfl⟩
        exact ⟨Or.inl ⟨hleft, Nat.le_of_lt hrow⟩, hs.offset_nonneg, hs.offset_le, hs.count_le⟩
      · exact meets_pure ⟨Or.inl ⟨hcol, Nat.le_of_lt hrow⟩, hs.offset_nonneg, hs.offset_le,
          hs.count_le⟩
    · split
      · exact meets_pure (hplaced s (.refl s) _ s.cursorY (Or.inr ⟨tab_le _ hcol, hrow⟩))
      · refine (writeVideo_meets hs.cursorIndex_lt).bind fun t ht => meets_pure ?_
        have hright : (s.cursorX + 1#8).toNat ≤ 80 := by bv_omega
        obtain ⟨_, _, rfl⟩ := ht
        exact ⟨Or.inr ⟨hright, hrow⟩, hs.offset_nonneg, hs.offset_le, hs.count_le⟩

theorem Console.Placed.wrap {s : Console} (hs : s.Placed) : (wrapCursor s).Pending := by
  have hcursor := hs.cursor
  unfold wrapCursor
  split
  · next hend =>
    rw [BitVec.le_def] at hend
    refine ⟨Nat.zero_lt_succ _, ?_, hs.offset_nonneg, hs.offset_le, hs.count_le⟩
    dsimp only
    bv_omega
  · next hin =>
    rw [BitVec.le_def, Nat.not_le] at hin
    exact ⟨hin, by omega, hs.offset_nonneg, hs.offset_le, hs.count_le⟩

theorem printChar_safe {s : Console} (c : Byte) (hs : s.Safe) :
    (printChar c s).Meets SafeEvent Console.Safe := by
  unfold printChar
  refine (placeChar_meets c hs).bind fun t ht => ?_
  refine (scroll_meets ht.wrap).bind fun u hu => ?_
  exact meets_touch (show SafeEvent (.printed u) from hu) (meets_pure hu)

/-! ## The other functions -/

theorem printChars_safe {s : Console} (cs : List Byte) (hs : s.Safe) :
    (printChars cs s).Meets SafeEvent Console.Safe :=
  meets_foldlM hs fun _ c _ ht => printChar_safe c ht

theorem printString_safe {s : Console} (str : List Byte) (hs : s.Safe) :
    (printString str s).Meets SafeEvent Console.Safe :=
  printChars_safe _ hs

theorem printDec_safe {s : Console} (n : Word) (hs : s.Safe) :
    (printDec n s).Meets SafeEvent Console.Safe := by
  unfold printDec
  split
  · exact printChar_safe _ hs
  · exact printChars_safe _ hs

theorem scrollUp_safe {s : Console} (hs : s.Safe) : (scrollUp s).Meets SafeEvent Console.Safe := by
  have hnonneg := hs.offset_nonneg
  unfold scrollUp
  split
  · next hlt =>
    have hs' : ({ s with scrollbackOffset := s.scrollbackOffset + 1 } : Console).Safe := by
      refine ⟨hs.column, hs.row, ?_, ?_, hs.count_le⟩
      · dsimp only
        omega
      · dsimp only
        omega
    refine (printString_safe _ hs').bind fun s₁ h₁ => ?_
    refine (printDec_safe _ h₁).bind fun s₂ h₂ => ?_
    refine (printString_safe _ h₂).bind fun s₃ h₃ => ?_
    exact (printDec_safe _ h₃).bind fun s₄ h₄ => printString_safe _ h₄
  · exact meets_pure hs

theorem scrollDown_safe {s : Console} (hs : s.Safe) :
    (scrollDown s).Meets SafeEvent Console.Safe := by
  have hle := hs.offset_le
  unfold scrollDown
  split
  · next hpos =>
    refine printString_safe _ ⟨hs.column, hs.row, ?_, ?_, hs.count_le⟩
    · dsimp only
      omega
    · dsimp only
      omega
  · exact meets_pure hs

theorem consoleCall_safe {s : Console} (op : ConsoleOp) (hs : s.Safe) :
    (consoleCall s op).Meets SafeEvent Console.Safe := by
  cases op with
  | printChar c => exact printChar_safe c hs
  | printString str => exact printString_safe str hs
  | printDec n => exact printDec_safe n hs
  | printHex n => exact printChars_safe _ hs
  | scrollUp => exact scrollUp_safe hs
  | scrollDown => exact scrollDown_safe hs
  | setTextColor foreground background =>
    exact meets_pure ⟨hs.column, hs.row, hs.offset_nonneg, hs.offset_le, hs.count_le⟩
  | clearScreen => exact clearScreen_safe s

/-- In every run from `clear_screen` the cursor is on the screen between calls of
`print_char`, every access of a call is in bounds, and the scrollback counters are
ordered. -/
theorem console_safe {s : Console} (h : consoleSystem.Reachable s) :
    (∀ c, (clearScreen c).All SafeEvent) ∧ s.Safe ∧ ∀ op, (consoleCall s op).All SafeEvent := by
  have hs : s.Safe := by
    refine h.invariant (P := Console.Safe) ?_ ?_
    · rintro s ⟨c, rfl⟩
      exact (clearScreen_safe c).2
    · rintro s op t _ hs rfl
      exact (consoleCall_safe op hs).2
  exact ⟨fun c => (clearScreen_safe c).1, hs, fun op => (consoleCall_safe op hs).1⟩

/-- The screen when twenty-five lines and two tabs have been printed, and it is scrolled
back, which prints again. -/
def scrolledConsole : Console :=
  (consoleCall (consoleCall (clearScreen ⟨fun _ => 0#16, 0#8, 0#8, 0x0F#8, fun _ _ => 0#8, 0, 0⟩).value
    (.printString (List.replicate 25 0x0A#8 ++ [0x09#8, 0x09#8]))).value .scrollUp).value

theorem console_safe_scrolled :
    scrolledConsole.scrollbackOffset = 1 ∧ scrolledConsole.Safe ∧
      ∀ op, (consoleCall scrolledConsole op).All SafeEvent :=
  ⟨by decide +kernel, (console_safe (.step (.step (.init ⟨_, rfl⟩) (a := .printString _) rfl)
    (a := .scrollUp) rfl)).2⟩

end Zenix
