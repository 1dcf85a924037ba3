import Zenix.Core.Terminal

/-!
# The scrollback buffer (kernel/core/monitor.c)

`save_line_to_scrollback` stores the row that is about to leave the screen, while
there is room for it. A full buffer stays as it is: nothing is moved and no line is
written over.

Results:
1. `printChar_keeps`: what a character adds to the buffer.
2. `scrollback_keeps_first`: the buffer holds the first 100 lines that have left the
   screen.
-/

namespace Zenix
open ByteMemory Logged

/-- The characters of a row of cells, without their attributes. -/
def characters (row : Fin 80 → BitVec 16) : Fin 80 → Byte := fun c => (row c).setWidth 8

/-- `scrollback_buffer[0..scrollback_count)` holds the lines. -/
structure Console.Keeps (s : Console) (lines : List (Fin 80 → Byte)) : Prop where
  count : s.scrollbackCount = lines.length
  line : ∀ i (h : i < lines.length) (c : Fin 80), s.scrollbackBuffer i c = lines[i] c

/-- The lines that have left the screen since it was cleared. -/
def scrolledLines (bytes : List Byte) : List (Fin 80 → Byte) :=
  (clearedScreen 0x20#8).scrolledOff 0x20#8 4 (bytes.map consoleKey)

/-! ## The buffer -/

section Buffer
variable {s : Console} {t : TextScreen} {lines : List (Fin 80 → Byte)}

/-- The first rows of the buffer are those of the lines, as many as it has room for. -/
theorem saved_keeps (h : s.Keeps (lines.take 100)) :
    s.saved.Keeps ((lines ++ [fun c : Fin 80 => (s.videoMemory c).setWidth 8]).take 100) := by
  have hcount := h.count
  rw [List.length_take] at hcount
  unfold Console.saved SCROLLBACK_LINES
  rcases Nat.lt_or_ge lines.length 100 with hroom | hfull
  · rw [List.take_of_length_le (Nat.le_of_lt hroom)] at h
    rw [if_pos (by omega), List.take_of_length_le (by simp; omega)]
    refine ⟨by simp [h.count], fun i hi c => ?_⟩
    show (if (i : Int) = s.scrollbackCount ∧ c.val < 80 then _ else s.scrollbackBuffer i c) = _
    rcases Nat.lt_succ_iff_lt_or_eq.mp (by simpa using hi) with hold | rfl
    · rw [if_neg (by rw [h.count]; omega), List.getElem_append_left hold]
      exact h.line i hold c
    · rw [if_pos ⟨h.count.symm, c.isLt⟩, List.getElem_append_right (Nat.le_refl _)]
      simp
  · -- the buffer is full
    rw [if_neg (by omega), List.take_append_of_le_length hfull]
    exact h

theorem scroll_keeps (hcells : s.CellsShown t) (hrow : s.cursorY.toNat = t.row + 1)
    (h : s.Keeps (lines.take 100)) :
    (scroll s).value.Keeps ((lines ++ t.lineFeedOff.map characters).take 100) := by
  unfold Terminal.lineFeedOff
  by_cases hlast : t.row.val + 1 < 25
  · rw [if_pos hlast, scroll_of_lt (by omega), List.map_nil, List.append_nil]
    exact h
  · have hscroll : 25#8 ≤ s.cursorY := by
      rw [BitVec.le_def, hrow]
      exact Nat.not_lt.mp hlast
    have htop : characters t.topRow = fun c : Fin 80 => (s.videoMemory c).setWidth 8 := by
      refine funext fun c => congrArg (BitVec.setWidth 8) ?_
      have hcell := hcells ⟨0, Nat.zero_lt_succ 24⟩ c
      rw [Nat.zero_mul, Nat.zero_add] at hcell
      exact hcell.symm
    have hsaved := saved_keeps h
    rw [if_neg hlast, scroll_value hscroll, List.map_singleton, htop]
    exact ⟨hsaved.count, hsaved.line⟩

theorem wrapCursor_keeps (hcells : s.CellsShown t) (hrow : s.cursorY.toNat = t.row)
    (h : s.Keeps (lines.take 100)) :
    (scroll (wrapCursor s)).value.Keeps
      ((lines ++ (t.moveToOff s.cursorX.toNat).map characters).take 100) := by
  unfold wrapCursor Terminal.moveToOff
  split
  · next hend =>
    have hfull : ¬ s.cursorX.toNat < 80 := Nat.not_lt.mpr (BitVec.le_def.mp hend)
    rw [if_neg hfull]
    have hnext : (s.cursorY + 1#8).toNat = t.row + 1 := by
      have := t.row.isLt
      bv_omega
    exact scroll_keeps (s := { s with cursorX := 0#8, cursorY := s.cursorY + 1#8 }) hcells hnext
      ⟨h.count, h.line⟩
  · next hin =>
    have hroom : s.cursorX.toNat < 80 := Nat.not_le.mp fun hle => hin (BitVec.le_def.mpr hle)
    rw [if_pos hroom, List.map_nil, List.append_nil,
      scroll_of_lt (by rw [hrow]; exact t.row.isLt)]
    exact h

/-- A character adds the row that it pushes off the screen. -/
theorem printChar_keeps (hshows : s.Shows t) (h : s.Keeps (lines.take 100)) (b : Byte) :
    (printChar b s).value.Keeps
      ((lines ++ (t.pressOff 4 ((consoleKey b).map (cell s.textAttribute))).map
        characters).take 100) := by
  rw [printChar_value]
  by_cases hnewline : b = 0x0A#8
  · have hnext : (s.cursorY + 1#8).toNat = t.row + 1 := by
      have hrow := hshows.row
      have hlt := t.row.isLt
      bv_omega
    subst hnewline
    rw [placeChar, if_pos rfl, value_pure, wrapCursor, if_neg (show ¬ 80#8 ≤ 0#8 by decide)]
    exact scroll_keeps (s := { s with cursorX := 0#8, cursorY := s.cursorY + 1#8 }) hshows.cells
      hnext ⟨h.count, h.line⟩
  · obtain ⟨t', n, hplaced, _, hoff⟩ := placeChar_positioned hshows hnewline
    have hkeeps : (placeChar b s).value.Keeps (lines.take 100) :=
      ⟨hplaced.count.trans h.count, fun i hi c => by rw [hplaced.buffer]; exact h.line i hi c⟩
    have hwrapped := wrapCursor_keeps hplaced.cells hplaced.row hkeeps
    rw [hplaced.column] at hwrapped
    rw [hoff]
    exact hwrapped

end Buffer

/-! ## Runs -/

theorem printChars_keeps {s : Console} {t : TextScreen} {lines : List (Fin 80 → Byte)}
    (hshows : s.Shows t) (h : s.Keeps (lines.take 100)) (bytes : List Byte) :
    (printChars bytes s).value.Keeps
      ((lines ++ (t.scrolledOff s.blank 4 (consoleKeys s.textAttribute bytes)).map
        characters).take 100) := by
  induction bytes generalizing s t lines with
  | nil =>
    rw [consoleKeys, List.map_nil, Terminal.scrolledOff, List.map_nil, List.append_nil]
    exact h
  | cons b bytes ih =>
    obtain ⟨hnext, hsame⟩ := printChar_shows hshows b
    have hrest := ih hnext (printChar_keeps hshows h b)
    rw [Console.blank, hsame.textAttribute, List.append_assoc, ← List.map_append] at hrest
    exact hrest

theorem clearScreen_keeps (s : Console) : (clearScreen s).value.Keeps [] := by
  rw [clearScreen_value]
  exact ⟨rfl, fun i hi => absurd hi (Nat.not_lt_zero i)⟩

theorem characters_cell (textAttribute : BitVec 8) (row : Fin 80 → Byte) :
    characters (cell textAttribute ∘ row) = row := by
  refine funext fun c => BitVec.eq_of_getLsbD_eq fun i hi => ?_
  show ((cell textAttribute (row c)).setWidth 8).getLsbD i = (row c).getLsbD i
  simp [cell, BitVec.getElem_signExtend, hi, show i < 16 by omega]

/-- The first 100 lines since the screen was cleared, in order. -/
theorem clearScreen_printChars_keeps (s : Console) (bytes : List Byte) :
    (printChars bytes (clearScreen s).value).value.Keeps ((scrolledLines bytes).take 100) := by
  obtain ⟨hshows, hsame⟩ := clearScreen_shows s
  have hempty : (clearScreen s).value.Keeps (([] : List (Fin 80 → Byte)).take 100) :=
    clearScreen_keeps s
  have hkeeps := printChars_keeps hshows hempty bytes
  have hcharacters : characters ∘ (cell s.textAttribute ∘ ·) = id :=
    funext fun row => characters_cell s.textAttribute row
  have hlines := Terminal.scrolledOff_map (cell s.textAttribute) (clearedScreen 0x20#8) 0x20#8 4
    (bytes.map consoleKey)
  rw [List.map_map] at hlines
  rw [Console.blank, hsame.textAttribute, List.nil_append] at hkeeps
  change Console.Keeps _ ((((clearedScreen 0x20#8).map (cell s.textAttribute)).scrolledOff _ _
    (bytes.map (Terminal.Key.map (cell s.textAttribute) ∘ consoleKey))).map characters |>.take 100)
    at hkeeps
  rw [hlines, List.map_map, hcharacters, List.map_id] at hkeeps
  exact hkeeps

/-! ## The property -/

/-- From `clear_screen` the scrollback buffer holds the first 100 of the lines that have
left the screen, or all of them, in order. -/
theorem scrollback_keeps_first (s : Console) (bytes : List Byte) :
    let s' := (printChars bytes (clearScreen s).value).value
    s'.scrollbackCount = min (scrolledLines bytes).length 100 ∧
      s'.Keeps ((scrolledLines bytes).take 100) := by
  have hkeeps := clearScreen_printChars_keeps s bytes
  refine ⟨?_, hkeeps⟩
  rw [hkeeps.count, List.length_take, Nat.min_comm]

/-- 101 lines leave the screen, an `A` at the start of the first of them. The last 100
are blank, and the buffer still starts with the `A`. -/
theorem scrollback_not_latest :
    let bytes := 0x41#8 :: List.replicate 125 0x0A#8
    let s : Console := ⟨fun _ => 0#16, 0#8, 0#8, 0x0F#8, fun _ _ => 0#8, 0, 0⟩
    (scrolledLines bytes).length = 101 ∧
      ¬ (printChars bytes (clearScreen s).value).value.Keeps
        ((scrolledLines bytes).drop ((scrolledLines bytes).length - 100)) := by
  intro bytes s
  have hlength : (scrolledLines bytes).length = 101 := by decide +kernel
  have holdest : (scrolledLines bytes)[0]?.map (fun line => line 0) = some 0x41#8 := by
    decide +kernel
  have hlatest : (scrolledLines bytes)[1]?.map (fun line => line 0) = some 0x20#8 := by
    decide +kernel
  refine ⟨hlength, fun hkeeps => ?_⟩
  rw [hlength] at hkeeps
  have hbuffer := (clearScreen_printChars_keeps s bytes).line 0 (by simp [hlength]) 0
  have hbuffer' := hkeeps.line 0 (by simp [hlength]) 0
  rw [List.getElem?_eq_getElem (by simp [hlength]), Option.map_some, Option.some_inj]
    at holdest hlatest
  rw [List.getElem_take, holdest] at hbuffer
  rw [List.getElem_drop, hlatest, hbuffer] at hbuffer'
  exact absurd hbuffer' (by decide)

end Zenix
