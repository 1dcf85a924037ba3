import Zenix.Core.Monitor
import Zenix.Lib.TextTerminal

/-!
# The console as a terminal (kernel/core/monitor.c)

The console refines the text terminal of 25 rows and 80 columns, its video memory
row after row. `print_char` presses one key: a byte is the key of a control character
or puts the cell that `cell` makes of it.

The cell is computed from a signed `char`, so that a byte from `0x80` on takes the
attribute `0xFF` whatever the attribute is.

Results:
1. `printChars_shows`: the console is a terminal of the cells that it stores.
2. `console_faithful_iff`: when it is the terminal of the cells
   `(attribute << 8) | byte`.
-/

namespace Zenix
open ByteMemory Logged

/-- What `print_char` does with a byte. -/
def consoleKey (c : Byte) : Terminal.Key Byte :=
  if c = 0x0A#8 then .newline
  else if c = 0x08#8 then .backspace
  else if c = 0x09#8 then .tab
  else .put c

/-- 25 rows of 80 cells, each of an attribute and a character. -/
abbrev TextScreen := Terminal 25 80 (BitVec 16)

def clearedScreen {α : Type} (blank : α) : Terminal 25 80 α :=
  Terminal.cleared (Nat.zero_lt_succ 24) (Nat.zero_lt_succ 79) blank

/-- The video memory holds the cells, row after row. -/
def Console.CellsShown (s : Console) (t : TextScreen) : Prop :=
  ∀ r c, s.videoMemory (r.val * 80 + c.val) = t.cells r c

structure Console.Shows (s : Console) (t : TextScreen) : Prop where
  cells : s.CellsShown t
  row : s.cursorY.toNat = t.row
  column : s.cursorX.toNat = t.column

/-- The attribute and the memory after the screen are the same. -/
structure SameOutside (s s' : Console) : Prop where
  textAttribute : s'.textAttribute = s.textAttribute
  videoMemory : ∀ i, 2000 ≤ i → s'.videoMemory i = s.videoMemory i

theorem SameOutside.refl (s : Console) : SameOutside s s := ⟨rfl, fun _ _ => rfl⟩

theorem SameOutside.trans {s s' s'' : Console} (h : SameOutside s s') (h' : SameOutside s' s'') :
    SameOutside s s'' :=
  ⟨h'.textAttribute.trans h.textAttribute, fun i hi =>
    (h'.videoMemory i hi).trans (h.videoMemory i hi)⟩

/-- The cells of the screen and the cursor are the same. -/
structure SameScreen (s s' : Console) : Prop where
  videoMemory : ∀ i, i < 2000 → s.videoMemory i = s'.videoMemory i
  cursorX : s.cursorX = s'.cursorX
  cursorY : s.cursorY = s'.cursorY

theorem Console.Shows.sameScreen_iff {s s' : Console} {t t' : TextScreen}
    (h : s.Shows t) (h' : s'.Shows t') : SameScreen s s' ↔ t = t' := by
  constructor
  · intro hsame
    refine Terminal.ext (funext fun r => funext fun c => ?_) (Fin.ext ?_) (Fin.ext ?_)
    · rw [← h.cells, ← h'.cells]
      exact hsame.videoMemory _ (by omega)
    · rw [← h.row, ← h'.row, hsame.cursorY]
    · rw [← h.column, ← h'.column, hsame.cursorX]
  · rintro rfl
    refine ⟨fun i hi => ?_, BitVec.eq_of_toNat_eq ?_, BitVec.eq_of_toNat_eq ?_⟩
    · have hrow : i / 80 < 25 := by omega
      have hcol : i % 80 < 80 := Nat.mod_lt _ (by decide)
      have hindex : i / 80 * 80 + i % 80 = i := Nat.div_add_mod' i 80
      rw [← hindex]
      exact (h.cells ⟨_, hrow⟩ ⟨_, hcol⟩).trans (h'.cells ⟨_, hrow⟩ ⟨_, hcol⟩).symm
    · rw [h.column, h'.column]
    · rw [h.row, h'.row]

/-- Between two calls of `print_char` the console shows a terminal. -/
theorem Console.Safe.shows {s : Console} (h : s.Safe) : ∃ t, s.Shows t :=
  ⟨⟨fun r c => s.videoMemory (r.val * 80 + c.val), ⟨_, h.row⟩, ⟨_, h.column⟩⟩,
    fun _ _ => rfl, rfl, rfl⟩

/-- The cell of a blank in the attribute of the console. -/
def Console.blank (s : Console) : BitVec 16 := cell s.textAttribute 0x20#8

/-! ## The loops -/

theorem fill_value (is : List Nat) (s : Console) :
    (is.foldlM (fun s i => writeVideo i (cell s.textAttribute 0x20#8) s) s).value =
      { s with videoMemory := fun j => if j ∈ is then s.blank else s.videoMemory j } := by
  rw [value_foldlM]
  induction is generalizing s with
  | nil => rfl
  | cons i is ih =>
    rw [List.foldl_cons, ih]
    refine congrArg (fun m => { s with videoMemory := m }) (funext fun j => ?_)
    by_cases hj : j ∈ is
    · rw [if_pos hj, if_pos (List.mem_cons_of_mem _ hj)]
      rfl
    · rw [if_neg hj]
      exact if_congr (by simp [hj]) rfl rfl

theorem copy_value (n : Nat) (s : Console) :
    ((List.range n).foldlM (fun s i => do
      let v ← readVideo (i + 80) s
      writeVideo i v s) s).value =
      { s with videoMemory := fun j =>
          if j < n then s.videoMemory (j + 80) else s.videoMemory j } := by
  rw [value_foldlM]
  induction n with
  | zero => rfl
  | succ n ih =>
    rw [List.range_succ, List.foldl_append, ih]
    refine congrArg (fun m => { s with videoMemory := m }) (funext fun j => ?_)
    show (if j = n then (if n + 80 < n then _ else s.videoMemory (n + 80))
      else if j < n then _ else _) = _
    rw [if_neg (by omega : ¬ n + 80 < n)]
    -- round `n` reads a row further on, which no earlier round has written
    rcases Nat.lt_trichotomy j n with hlt | rfl | hgt
    · rw [if_neg (by omega), if_pos hlt, if_pos (by omega)]
    · rw [if_pos rfl, if_pos (by omega)]
    · rw [if_neg (by omega), if_neg (by omega), if_neg (by omega)]

/-- The console with its first line saved, as long as there is room for it. -/
def Console.saved (s : Console) : Console :=
  if s.scrollbackCount < SCROLLBACK_LINES then
    { s with
      scrollbackBuffer := fun r c =>
        if r = s.scrollbackCount ∧ c < 80 then (s.videoMemory c).setWidth 8
        else s.scrollbackBuffer r c
      scrollbackCount := s.scrollbackCount + 1 }
  else s

theorem saveLineToScrollback_value (s : Console) : (saveLineToScrollback s).value = s.saved := by
  have hloop : ∀ n, ((List.range n).foldlM (fun s i => do
      let v ← readVideo i s
      writeScrollback s.scrollbackCount i (v.setWidth 8) s) s).value =
        { s with scrollbackBuffer := fun r c =>
            if r = s.scrollbackCount ∧ c < n then (s.videoMemory c).setWidth 8
            else s.scrollbackBuffer r c } := by
    intro n
    rw [value_foldlM]
    induction n with
    | zero =>
      refine congrArg (fun b => { s with scrollbackBuffer := b }) (funext₂ fun r c => ?_)
      exact (if_neg fun h => Nat.not_lt_zero c h.2).symm
    | succ n ih =>
      rw [List.range_succ, List.foldl_append, ih]
      refine congrArg (fun b => { s with scrollbackBuffer := b }) (funext₂ fun r c => ?_)
      show (if r = s.scrollbackCount ∧ c = n then (s.videoMemory n).setWidth 8
        else if r = s.scrollbackCount ∧ c < n then _ else _) = _
      by_cases hc : c = n
      · subst hc
        simp
      · rw [if_neg fun h => hc h.2]
        exact if_congr (and_congr_right fun _ => by omega) rfl rfl
  unfold saveLineToScrollback Console.saved
  split
  · rw [value_bind, hloop]
    rfl
  · rfl

/-! ## Scrolling -/

theorem scroll_value {s : Console} (h : 25#8 ≤ s.cursorY) :
    (scroll s).value =
      { s with
        videoMemory := fun j =>
          if 1920 ≤ j ∧ j < 2000 then s.blank
          else if j < 1920 then s.videoMemory (j + 80) else s.videoMemory j
        scrollbackBuffer := s.saved.scrollbackBuffer
        scrollbackCount := s.saved.scrollbackCount
        cursorY := 24#8 } := by
  have hsaved : s.saved = { s with
      scrollbackBuffer := s.saved.scrollbackBuffer
      scrollbackCount := s.saved.scrollbackCount } := by
    unfold Console.saved
    split <;> rfl
  unfold scroll
  rw [if_pos h]
  simp only [value_bind, value_pure, saveLineToScrollback_value, copy_value, fill_value,
    List.mem_range'_1]
  rw [hsaved]
  rfl

theorem scroll_of_lt {s : Console} (h : s.cursorY.toNat < 25) : scroll s = pure s :=
  if_neg (by rw [BitVec.le_def, Nat.not_le]; exact h)

/-- A line feed: the cursor has left its row for the start of the next one. -/
theorem scroll_shows {s : Console} {t : TextScreen} (hcells : s.CellsShown t)
    (hcolumn : s.cursorX = 0#8) (hrow : s.cursorY.toNat = t.row + 1) :
    (scroll s).value.Shows (t.lineFeed s.blank) ∧ SameOutside s (scroll s).value := by
  by_cases hlast : t.row.val + 1 < 25
  · rw [scroll_of_lt (by omega), value_pure, Terminal.lineFeed, dif_pos hlast]
    exact ⟨⟨hcells, hrow, by rw [hcolumn]; rfl⟩, .refl s⟩
  · have hlast' : t.row.val = 24 := by omega
    rw [scroll_value (by rw [BitVec.le_def, hrow, hlast']; decide), Terminal.lineFeed,
      dif_neg hlast]
    refine ⟨⟨fun r c => ?_, hlast'.symm, by dsimp only; rw [hcolumn]; rfl⟩, rfl, fun i hi => ?_⟩
    · show (if 1920 ≤ r.val * 80 + c.val ∧ r.val * 80 + c.val < 2000 then s.blank
        else if r.val * 80 + c.val < 1920 then _ else _) =
          if h : r.val + 1 < 25 then t.cells ⟨r.val + 1, h⟩ c else s.blank
      by_cases hr : r.val + 1 < 25
      · rw [dif_pos hr, if_neg (by omega), if_pos (by omega),
          show r.val * 80 + c.val + 80 = (r.val + 1) * 80 + c.val by omega]
        exact hcells ⟨r.val + 1, hr⟩ c
      · rw [dif_neg hr, if_pos (by omega)]
    · show (if 1920 ≤ i ∧ i < 2000 then _ else if i < 1920 then _ else s.videoMemory i) = _
      rw [if_neg (by omega), if_neg (by omega)]

/-- The end of `print_char`: the cursor may be one column after its row. -/
theorem wrapCursor_shows {s : Console} {t : TextScreen} (hcells : s.CellsShown t)
    (hrow : s.cursorY.toNat = t.row) :
    (scroll (wrapCursor s)).value.Shows (t.moveTo s.blank s.cursorX.toNat) ∧
      SameOutside s (scroll (wrapCursor s)).value := by
  unfold wrapCursor Terminal.moveTo
  split
  · next hend =>
    have hfull : ¬ s.cursorX.toNat < 80 := Nat.not_lt.mpr (BitVec.le_def.mp hend)
    rw [dif_neg hfull]
    have hnext : (s.cursorY + 1#8).toNat = t.row + 1 := by
      have := t.row.isLt
      bv_omega
    obtain ⟨hshows, hsame⟩ := scroll_shows
      (s := { s with cursorX := 0#8, cursorY := s.cursorY + 1#8 }) hcells rfl hnext
    exact ⟨hshows, hsame.textAttribute, hsame.videoMemory⟩
  · next hin =>
    have hroom : s.cursorX.toNat < 80 := Nat.not_le.mp fun hle => hin (BitVec.le_def.mpr hle)
    rw [dif_pos hroom, scroll_of_lt (by rw [hrow]; exact t.row.isLt)]
    exact ⟨⟨hcells, hrow, rfl⟩, .refl s⟩

/-! ## One character -/

/-- A write under the cursor. -/
theorem writeVideo_shows {s : Console} {t : TextScreen} (h : s.Shows t)
    (v : BitVec 16) :
    (writeVideo (cursorIndex s) v s).value.Shows (t.set v) ∧
      SameOutside s (writeVideo (cursorIndex s) v s).value := by
  have hindex : cursorIndex s = t.row.val * 80 + t.column.val := by
    rw [cursorIndex, h.row, h.column]
  rw [hindex]
  refine ⟨⟨fun r c => if_congr ⟨Terminal.position_inj, ?_⟩ rfl (h.cells r c), h.row, h.column⟩,
    rfl, fun i hi => if_neg ?_⟩
  · rintro ⟨rfl, rfl⟩
    rfl
  · have hrow := t.row.isLt
    have hcol := t.column.isLt
    omega

/-- The next tab stop, as `print_char` computes it. -/
theorem tab_toNat {x : BitVec 8} (h : x.toNat < 80) :
    ((x + 4#8) &&& ~~~3#8).toNat = (x.toNat / 4 + 1) * 4 := by
  have htabs : ∀ x : BitVec 8, x < 80#8 → ((x + 4#8) &&& ~~~3#8).toNat = (x.toNat / 4 + 1) * 4 := by
    decide +kernel
  exact htabs x h

theorem printChar_value (c : Byte) (s : Console) :
    (printChar c s).value = (scroll (wrapCursor (placeChar c s).value)).value := rfl

section Character
variable {s : Console} {t : TextScreen}

theorem newline_shows (h : s.Shows t) :
    (printChar 0x0A#8 s).value.Shows (t.lineFeed s.blank) ∧
      SameOutside s (printChar 0x0A#8 s).value := by
  have hnext : (s.cursorY + 1#8).toNat = t.row + 1 := by
    have hrow := h.row
    have hlt := t.row.isLt
    bv_omega
  -- at the start of a row there is nothing to wrap
  have hstay : wrapCursor { s with cursorX := 0#8, cursorY := s.cursorY + 1#8 } =
      { s with cursorX := 0#8, cursorY := s.cursorY + 1#8 } :=
    if_neg (show ¬ 80#8 ≤ 0#8 by decide)
  rw [printChar_value, placeChar, if_pos rfl, value_pure, hstay]
  obtain ⟨hshows, hsame⟩ := scroll_shows
    (s := { s with cursorX := 0#8, cursorY := s.cursorY + 1#8 }) h.cells rfl hnext
  exact ⟨hshows, hsame.textAttribute, hsame.videoMemory⟩

/-- The cells of `t`, and the cursor in column `n` of its row, which may be the one after the
last. The rest of the console is that of `s`. -/
structure Positioned (s s' : Console) (t : TextScreen) (n : Nat) : Prop where
  cells : s'.CellsShown t
  row : s'.cursorY.toNat = t.row
  column : s'.cursorX.toNat = n
  same : SameOutside s s'
  buffer : s'.scrollbackBuffer = s.scrollbackBuffer
  count : s'.scrollbackCount = s.scrollbackCount

/-- Every character but a line feed leaves the cursor in the row, for the end of `print_char`
to move on. -/
theorem placeChar_positioned (h : s.Shows t) {c : Byte} (hnewline : c ≠ 0x0A#8) :
    ∃ t' n, Positioned s (placeChar c s).value t' n ∧
      t.press s.blank 4 ((consoleKey c).map (cell s.textAttribute)) = t'.moveTo s.blank n ∧
      t.pressOff 4 ((consoleKey c).map (cell s.textAttribute)) = t'.moveToOff n := by
  have hcolumn := h.column
  have hlt := t.column.isLt
  unfold placeChar consoleKey
  rw [if_neg hnewline, if_neg hnewline]
  split
  · -- a backspace
    rw [Terminal.Key.map, Terminal.press, Terminal.pressOff, Terminal.erase]
    by_cases hzero : t.column.val = 0
    · have hleft : ¬ 0#8 < s.cursorX := by bv_omega
      rw [if_neg hleft, value_pure, if_pos hzero]
      exact ⟨t, t.column, ⟨h.cells, h.row, hcolumn, .refl s, rfl, rfl⟩,
        (t.moveTo_column s.blank).symm, t.moveToOff_column.symm⟩
    · have hleft : 0#8 < s.cursorX := by bv_omega
      have hback : (s.cursorX - 1#8).toNat = t.column.val - 1 := by bv_omega
      have hmoved : ({ s with cursorX := s.cursorX - 1#8 } : Console).Shows
          { t with column := ⟨t.column.val - 1, by omega⟩ } :=
        ⟨h.cells, h.row, hback⟩
      obtain ⟨hshows, hsame⟩ := writeVideo_shows hmoved s.blank
      rw [if_pos hleft, if_neg hzero]
      exact ⟨_, _, ⟨hshows.cells, hshows.row, hshows.column,
        ⟨hsame.textAttribute, hsame.videoMemory⟩, rfl, rfl⟩,
        (Terminal.moveTo_column s.blank _).symm, (Terminal.moveToOff_column _).symm⟩
  · split
    · -- a tab
      have hstop : ((s.cursorX + 4#8) &&& ~~~3#8).toNat = (t.column / 4 + 1) * 4 := by
        rw [tab_toNat (hcolumn ▸ hlt), hcolumn]
      exact ⟨t, _, ⟨h.cells, h.row, hstop, ⟨rfl, fun _ _ => rfl⟩, rfl, rfl⟩, rfl, rfl⟩
    · -- a printed character
      obtain ⟨hset, hsame⟩ := writeVideo_shows h (cell s.textAttribute c)
      have hright : (s.cursorX + 1#8).toNat = t.column + 1 := by bv_omega
      exact ⟨t.set (cell s.textAttribute c), _, ⟨hset.cells, hset.row, hright,
        ⟨hsame.textAttribute, hsame.videoMemory⟩, rfl, rfl⟩, rfl, rfl⟩

theorem printChar_shows (h : s.Shows t) (c : Byte) :
    (printChar c s).value.Shows
        (t.press s.blank 4 ((consoleKey c).map (cell s.textAttribute))) ∧
      SameOutside s (printChar c s).value := by
  by_cases hnewline : c = 0x0A#8
  · rw [hnewline]
    exact newline_shows h
  · obtain ⟨t', n, hplaced, hpress, _⟩ := placeChar_positioned h hnewline
    obtain ⟨hshows, hsame⟩ := wrapCursor_shows hplaced.cells hplaced.row
    rw [Console.blank, hplaced.same.textAttribute, hplaced.column] at hshows
    rw [printChar_value, hpress]
    exact ⟨hshows, hplaced.same.trans hsame⟩

end Character

/-! ## No scrolling -/

/-- The access is not a read of the video memory. -/
def NotRead (e : ConsoleEvent) : Prop := ∀ i, e ≠ .read i

/-- Only `scroll` reads the video memory, and only when the screen moves. -/
def NoScroll {α : Type} (x : Logged ConsoleEvent α) : Prop := x.All NotRead

/-- When the cursor has left the screen, `scroll` reads the second row. -/
theorem scroll_noScroll {s : Console} (h : NoScroll (scroll s)) : s.cursorY.toNat < 25 := by
  by_contra hlast
  have hscroll : 25#8 ≤ s.cursorY := by
    rw [BitVec.le_def]
    exact Nat.not_lt.mp hlast
  unfold NoScroll scroll at h
  rw [if_pos hscroll] at h
  have hcopy := (all_bind.mp (all_bind.mp h).2).1
  rw [show 24 * 80 = 1919 + 1 from rfl, List.range_succ_eq_map, List.foldlM_cons] at hcopy
  exact (all_bind.mp hcopy).1 (.read 80) List.mem_cons_self 80 rfl

/-- The cursor after the first `if` of `print_char`, for a character that is printed. -/
theorem placeChar_printing {s : Console} {t : TextScreen} (h : s.Shows t)
    {c : Byte} (hprint : (consoleKey c).Printing) :
    (placeChar c s).value.cursorY = s.cursorY ∧
      (placeChar c s).value.cursorX.toNat ≤ 80 ∧
      (consoleKey c).advance 4 t.position =
        t.row * 80 + (placeChar c s).value.cursorX.toNat := by
  have hcolumn := h.column
  have hlt := t.column.isLt
  unfold consoleKey at hprint ⊢
  unfold placeChar
  split at hprint
  · exact hprint.elim
  · split at hprint
    · exact hprint.elim
    · next hnewline hbackspace =>
      rw [if_neg hnewline, if_neg hbackspace, if_neg hnewline, if_neg hbackspace]
      split
      · rw [value_pure, tab_toNat (hcolumn ▸ hlt), hcolumn]
        obtain ⟨hle, hstop⟩ := Terminal.tab_stop (w := 4) (by decide) t.row t.column hlt
        exact ⟨rfl, hle, hstop⟩
      · have hright : (s.cursorX + 1#8).toNat = t.column + 1 := by bv_omega
        refine ⟨rfl, ?_, ?_⟩
        · show (s.cursorX + 1#8).toNat ≤ 80
          omega
        · show t.row.val * 80 + t.column.val + 1 = t.row.val * 80 + (s.cursorX + 1#8).toNat
          omega

/-- A character that is printed without scrolling leaves the cursor on the screen. -/
theorem printChar_fits {s : Console} {t : TextScreen} (h : s.Shows t) {c : Byte}
    (hprint : (consoleKey c).Printing) (hno : NoScroll (printChar c s)) :
    (consoleKey c).advance 4 t.position < 2000 := by
  obtain ⟨hrow, hcolumn, hadvance⟩ := placeChar_printing h hprint
  have hscroll := scroll_noScroll (all_bind.mp (all_bind.mp hno).2).1
  have hrow' := h.row
  have hlt := t.row.isLt
  rw [hadvance]
  unfold wrapCursor at hscroll
  split at hscroll
  · have hnext : (s.cursorY + 1#8).toNat < 25 := hrow ▸ hscroll
    bv_omega
  · next hin =>
    have hroom : (placeChar c s).value.cursorX.toNat < 80 :=
      Nat.not_le.mp fun hle => hin (BitVec.le_def.mpr hle)
    omega

/-- A character moves the cursor down by at most one row. -/
theorem printChar_room {s : Console} (c : Byte) (h : s.cursorY.toNat + 1 < 25) :
    (printChar c s).Meets NotRead fun s' => s'.cursorY.toNat ≤ s.cursorY.toNat + 1 := by
  have hwrite : ∀ i v (s' : Console), (writeVideo i v s').Meets NotRead fun s'' =>
      s''.cursorY = s'.cursorY := by
    intro i v s'
    exact meets_touch (fun j hj => nomatch hj) (meets_pure rfl)
  have hplaced : (placeChar c s).Meets NotRead fun s' =>
      (wrapCursor s').cursorY.toNat ≤ s.cursorY.toNat + 1 := by
    have hwrap : ∀ s' : Console, s'.cursorY = s.cursorY →
        (wrapCursor s').cursorY.toNat ≤ s.cursorY.toNat + 1 := by
      intro s' hs'
      unfold wrapCursor
      split
      · show (s'.cursorY + 1#8).toNat ≤ _
        rw [hs']
        bv_omega
      · rw [hs']
        omega
    unfold placeChar
    split
    · -- a line feed has moved down already and does not wrap
      refine meets_pure ?_
      rw [wrapCursor, if_neg (show ¬ 80#8 ≤ 0#8 by decide)]
      show (s.cursorY + 1#8).toNat ≤ _
      bv_omega
    · split
      · split
        · exact (hwrite _ _ _).mono fun s' hs' => hwrap s' hs'
        · exact meets_pure (hwrap s rfl)
      · split
        · exact meets_pure (hwrap _ rfl)
        · exact (hwrite _ _ _).bind fun s' hs' => meets_pure (hwrap _ hs')
  unfold printChar
  refine hplaced.bind fun s' hs' => ?_
  rw [scroll_of_lt (by omega), pure_bind]
  exact meets_touch (fun j hj => nomatch hj) (meets_pure hs')

/-- A loop whose rounds move the cursor down by at most one row each does not scroll when
there are enough rows below the cursor. -/
theorem loop_room {σ γ : Type} (row : σ → Nat) {f : σ → γ → Logged ConsoleEvent σ} {cs : List γ}
    {a : σ}
    (hf : ∀ a, ∀ c ∈ cs, row a + 1 < 25 → (f a c).Meets NotRead fun b => row b ≤ row a + 1)
    (hroom : row a + cs.length < 25) :
    (cs.foldlM f a).Meets NotRead fun b => row b ≤ row a + cs.length := by
  induction cs generalizing a with
  | nil => exact meets_pure (Nat.le_refl _)
  | cons c cs ih =>
    rw [List.length_cons] at hroom
    rw [List.foldlM_cons]
    refine (hf a c List.mem_cons_self (by omega)).bind fun b hb => ?_
    have hrest := ih (a := b) (fun a c hc => hf a c (List.mem_cons_of_mem _ hc)) (by omega)
    exact hrest.mono fun d hd => by
      rw [List.length_cons]
      omega

/-! ## Runs -/

/-- The keys of the bytes, with the cells that the console stores. -/
def consoleKeys (textAttribute : BitVec 8) (bytes : List Byte) : List (Terminal.Key (BitVec 16)) :=
  bytes.map fun c => (consoleKey c).map (cell textAttribute)

theorem printChars_shows {s : Console} {t : TextScreen} (h : s.Shows t)
    (bytes : List Byte) :
    (printChars bytes s).value.Shows (t.run s.blank 4 (consoleKeys s.textAttribute bytes)) ∧
      SameOutside s (printChars bytes s).value := by
  induction bytes generalizing s t with
  | nil => exact ⟨h, .refl s⟩
  | cons c bytes ih =>
    obtain ⟨hshows, hsame⟩ := printChar_shows h c
    obtain ⟨hrest, hsame'⟩ := ih hshows
    rw [Console.blank, hsame.textAttribute] at hrest
    exact ⟨hrest, hsame.trans hsame'⟩

theorem clearScreen_value (s : Console) :
    (clearScreen s).value =
      { s with
        videoMemory := fun j => if j < 2000 then s.blank else s.videoMemory j
        cursorX := 0#8, cursorY := 0#8, scrollbackCount := 0, scrollbackOffset := 0 } := by
  unfold clearScreen
  simp only [value_bind, value_pure, fill_value, List.mem_range, Nat.reduceMul]

theorem clearScreen_shows (s : Console) :
    (clearScreen s).value.Shows (clearedScreen s.blank) ∧
      SameOutside s (clearScreen s).value := by
  rw [clearScreen_value]
  refine ⟨⟨fun r c => ?_, rfl, rfl⟩, rfl, fun i hi => ?_⟩
  · exact if_pos (show r.val * 80 + c.val < 2000 by omega)
  · exact if_neg (Nat.not_lt.mpr hi)

/-! ## The characters on the screen -/

/-- The screen as characters, without their attribute. -/
def glyphs (bytes : List Byte) : Terminal 25 80 Byte :=
  (clearedScreen 0x20#8).run 0x20#8 4 (bytes.map consoleKey)

/-- A terminal of encoded characters shows the encoded characters. -/
theorem glyphs_map (f : Byte → BitVec 16) (bytes : List Byte) :
    (clearedScreen (f 0x20#8)).run (f 0x20#8) 4 (bytes.map fun c => (consoleKey c).map f) =
      (glyphs bytes).map f := by
  rw [glyphs, Terminal.run_map, List.map_map]
  rfl

theorem clearScreen_printChars_shows (s : Console) (bytes : List Byte) :
    (printChars bytes (clearScreen s).value).value.Shows
        ((glyphs bytes).map (cell s.textAttribute)) ∧
      SameOutside s (printChars bytes (clearScreen s).value).value := by
  obtain ⟨hclear, hsame⟩ := clearScreen_shows s
  obtain ⟨hshows, hsame'⟩ := printChars_shows hclear bytes
  rw [Console.blank, hsame.textAttribute] at hshows
  rw [← glyphs_map]
  exact ⟨hshows, hsame.trans hsame'⟩

/-- What is on the screen has been printed, or is a blank. -/
theorem glyphs_forall {P : Byte → Prop} (hblank : P 0x20#8) {bytes : List Byte}
    (hbytes : ∀ c ∈ bytes, P c) (r : Fin 25) (c : Fin 80) : P ((glyphs bytes).cells r c) := by
  refine Terminal.run_forall hblank 4 (fun a ha => ?_) (fun _ _ => hblank) r c
  obtain ⟨b, hb, hkey⟩ := List.mem_map.mp ha
  have hput : a = b := by
    unfold consoleKey at hkey
    split at hkey
    · cases hkey
    · split at hkey
      · cases hkey
      · split at hkey
        · cases hkey
        · exact (Terminal.Key.put.inj hkey).symm
  exact hput ▸ hbytes b hb

/-! ## The cells -/

/-- `(attribute << 8) | b` for a byte `b` that is not negative. -/
def plainCell (textAttribute : BitVec 8) (b : Byte) : BitVec 16 :=
  textAttribute.setWidth 16 <<< 8 ||| b.setWidth 16

/-- The bits of the attribute byte of a cell. -/
theorem cell_high (textAttribute : BitVec 8) (b : Byte) {i : Nat} (hi : i < 8) :
    (cell textAttribute b).getLsbD (i + 8) = (textAttribute.getLsbD i || b.msb) := by
  simp [cell, BitVec.getElem_signExtend, hi, show i + 8 < 16 by omega, show ¬ i + 8 < 8 by omega]

theorem plainCell_high (textAttribute : BitVec 8) (b : Byte) {i : Nat} (hi : i < 8) :
    (plainCell textAttribute b).getLsbD (i + 8) = textAttribute.getLsbD i := by
  simp [plainCell, hi, show i + 8 < 16 by omega]

theorem cell_low (textAttribute : BitVec 8) (b : Byte) {i : Nat} (hi : i < 8) :
    (cell textAttribute b).getLsbD i = (plainCell textAttribute b).getLsbD i := by
  simp [cell, plainCell, BitVec.getElem_signExtend, hi, show i < 16 by omega]

/-- The sign of a `char` fills the byte of the attribute. -/
theorem cell_eq_plainCell_iff (textAttribute : BitVec 8) (b : Byte) :
    cell textAttribute b = plainCell textAttribute b ↔
      textAttribute = 0xFF#8 ∨ b < 0x80#8 := by
  have hmsb : b < 0x80#8 ↔ b.msb = false := by
    rw [BitVec.msb_eq_false_iff_two_mul_lt, BitVec.lt_def]
    show b.toNat < 128 ↔ 2 * b.toNat < 256
    omega
  have hones : ∀ i < 8, (0xFF#8).getLsbD i = true := by decide
  rw [hmsb]
  constructor
  · intro heq
    refine or_iff_not_imp_right.mpr fun hneg => BitVec.eq_of_getLsbD_eq fun i hi => ?_
    have hbit := congrArg (fun v => v.getLsbD (i + 8)) heq
    simp only [cell_high _ _ hi, plainCell_high _ _ hi, eq_true_of_ne_false hneg,
      Bool.or_true] at hbit
    rw [← hbit, hones i hi]
  · intro h
    refine BitVec.eq_of_getLsbD_eq fun i hi => ?_
    rcases Nat.lt_or_ge i 8 with hlow | hhigh
    · exact cell_low _ _ hlow
    · -- the attribute hides the sign, or there is none
      obtain ⟨j, rfl⟩ := Nat.exists_eq_add_of_le' hhigh
      have hj : j < 8 := by omega
      rw [cell_high _ _ hj, plainCell_high _ _ hj]
      rcases h with rfl | hpos
      · rw [hones j hj, Bool.true_or]
      · rw [hpos, Bool.or_false]

/-! ## The property -/

/-- The terminal of the cells `(attribute << 8) | b`. -/
def referenceTerminal (textAttribute : BitVec 8) (bytes : List Byte) :
    TextScreen :=
  (clearedScreen (plainCell textAttribute 0x20#8)).run (plainCell textAttribute 0x20#8) 4
    (bytes.map fun c => (consoleKey c).map (plainCell textAttribute))

/-- After `clear_screen` and the bytes the screen is that of the terminal, and nothing
else has changed. -/
def Faithful (s : Console) (bytes : List Byte) : Prop :=
  let s' := (printChars bytes (clearScreen s).value).value
  s'.Shows (referenceTerminal s.textAttribute bytes) ∧ SameOutside s s'

/-- The final screen alone, by the characters that it shows. -/
theorem faithful_iff (s : Console) (bytes : List Byte) :
    Faithful s bytes ↔
      s.textAttribute = 0xFF#8 ∨ ∀ r c, (glyphs bytes).cells r c < 0x80#8 := by
  obtain ⟨hshows, hsame⟩ := clearScreen_printChars_shows s bytes
  have hreference : referenceTerminal s.textAttribute bytes =
      (glyphs bytes).map (plainCell s.textAttribute) := glyphs_map _ _
  constructor
  · rintro ⟨hfaithful, _⟩
    refine or_iff_not_imp_left.mpr fun hattribute r c => ?_
    have hcell : cell s.textAttribute ((glyphs bytes).cells r c) =
        plainCell s.textAttribute ((glyphs bytes).cells r c) := by
      rw [hreference] at hfaithful
      exact (hshows.cells r c).symm.trans (hfaithful.cells r c)
    exact ((cell_eq_plainCell_iff _ _).mp hcell).resolve_left hattribute
  · intro hplain
    refine ⟨⟨fun r c => (hshows.cells r c).trans ?_, ?_, ?_⟩, hsame⟩
    · rw [hreference]
      exact (cell_eq_plainCell_iff _ _).mpr (hplain.imp_right fun h => h r c)
    · rw [hreference]
      exact hshows.row
    · rw [hreference]
      exact hshows.column

/-- A byte that is no control character is on the screen when it has been printed. -/
theorem exists_glyph (bytes : List Byte) {b : Byte} (hb : 0x80#8 ≤ b) :
    ∃ r c, (glyphs (bytes ++ [b])).cells r c = b := by
  have hkey : consoleKey b = .put b := by
    unfold consoleKey
    rw [if_neg (by bv_omega), if_neg (by bv_omega), if_neg (by bv_omega)]
  rw [glyphs, List.map_append, Terminal.run, List.foldl_append, List.map_singleton, hkey]
  exact Terminal.exists_put (by decide) 4 b

/-- From `clear_screen` the console is the terminal of the cells `(attribute << 8) | b`
after every one of the bytes exactly when the attribute is `0xFF` or all of them are
below `0x80`. The screen at the end is that of the terminal exactly when no other byte
is left on it. -/
theorem console_faithful_iff (s : Console) (bytes : List Byte) :
    ((∀ printed, printed <+: bytes → Faithful s printed) ↔
        s.textAttribute = 0xFF#8 ∨ ∀ b ∈ bytes, b < 0x80#8) ∧
      (Faithful s bytes ↔
        s.textAttribute = 0xFF#8 ∨ ∀ r c, (glyphs bytes).cells r c < 0x80#8) := by
  refine ⟨⟨fun h => ?_, fun h printed hprinted => ?_⟩, faithful_iff s bytes⟩
  · refine or_iff_not_imp_left.mpr fun hattribute b hb => ?_
    obtain ⟨before, after, rfl⟩ := List.append_of_mem hb
    have hfaithful := h (before ++ [b]) ⟨after, by simp⟩
    have hascii := ((faithful_iff s _).mp hfaithful).resolve_left hattribute
    by_contra hhigh
    -- the byte is on the screen right after it has been printed
    obtain ⟨r, c, hglyph⟩ := exists_glyph before (BitVec.not_lt.mp hhigh)
    exact hhigh (hglyph ▸ hascii r c)
  · refine (faithful_iff s printed).mpr (h.imp_right fun hascii => ?_)
    exact glyphs_forall (by decide) fun c hc => hascii c (hprinted.subset hc)

/-- A block of code page 437 in white on black gets the attribute `0xFF`. -/
theorem console_not_faithful :
    ¬ Faithful ⟨fun _ => 0#16, 0#8, 0#8, 0x0F#8, fun _ _ => 0#8, 0, 0⟩ [0xDB#8] := by
  rw [faithful_iff]
  rintro (hattribute | hshown)
  · exact absurd hattribute (by decide)
  · exact absurd (hshown 0 0) (by decide)

end Zenix
