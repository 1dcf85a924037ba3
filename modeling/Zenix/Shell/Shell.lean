import Mathlib.Data.List.GetD
import Mathlib.Data.List.Induction
import Mathlib.Data.List.Infix
import Zenix.Core.Terminal

/-!
# The command line of the shell (kernel/shell/shell.c)

`shell_run` prints a prompt and edits a line from the characters of the keyboard. A
character goes to the buffer and to the screen; a backspace takes the last one out of
the buffer and prints a backspace. The two are edited under different rules: the screen
loses one column of the row, which is not what a tab or the last column of a row took.

The command that a line feed runs is a parameter.

Results:
1. `shellKey_edits`, `shellRun_edits`: the shell refines a line and a terminal.
2. `shell_echo_iff`: exactly when the screen is that of the line printed after the
   prompt.
-/

namespace Zenix
open ByteMemory Logged

/-- The statics of shell.c, and the console they print to. -/
structure Shell where
  inputBuffer : Nat → Byte
  inputIndex : Nat
  console : Console

def shellPrompt (s : Console) : Logged ConsoleEvent Console := printString (literal "zenix> ") s

/-- An empty buffer, as `shell_init` and every executed line leave it. -/
def emptyShell (s : Console) : Shell := ⟨fun _ => 0#8, 0, s⟩

/-- The bytes of `input_buffer`. -/
def Shell.bufferBytes (sh : Shell) : List Byte := (List.range 256).map sh.inputBuffer

section Code
variable (shellExecute : (Nat → Byte) → Console → Logged ConsoleEvent Console)

/-- The body of the loop in `shell_run`, on what `keyboard_getchar` returns. -/
def shellKey (c : Byte) (sh : Shell) : Logged ConsoleEvent Shell :=
  if c = 0#8 then pure sh
  else if c = 0x0A#8 then do
    let s ← printChar 0x0A#8 sh.console
    let s ← shellExecute (Function.update sh.inputBuffer sh.inputIndex 0#8) s
    let s ← shellPrompt s
    pure (emptyShell s)
  else if c = 0x08#8 then
    if 0 < sh.inputIndex then do
      let index := sh.inputIndex - 1
      let s ← printChar 0x08#8 sh.console
      pure ⟨Function.update sh.inputBuffer index 0#8, index, s⟩
    else pure sh
  else if sh.inputIndex < 255 then do
    let s ← printChar c sh.console
    pure ⟨Function.update sh.inputBuffer sh.inputIndex c, sh.inputIndex + 1, s⟩
  else pure sh

/-- `shell_run` until the keyboard has returned the characters. -/
def shellRun (keys : List Byte) (sh : Shell) : Logged ConsoleEvent Shell := do
  let s ← shellPrompt sh.console
  keys.foldlM (fun sh c => shellKey shellExecute c sh) { sh with console := s }

end Code

/-! ## A line and its echo -/

/-- The character is printed. -/
def Echoed (line : List Byte) (c : Byte) : Prop :=
  c ≠ 0#8 ∧ if c = 0x08#8 then line ≠ [] else line.length < 255

instance (line : List Byte) (c : Byte) : Decidable (Echoed line c) := by
  unfold Echoed
  infer_instance

/-- What a character other than a line feed does to the line. -/
def editLine (line : List Byte) (c : Byte) : List Byte :=
  if Echoed line c then if c = 0x08#8 then line.dropLast else line ++ [c] else line

/-- The line after the characters. -/
def editedLine (keys : List Byte) : List Byte := keys.foldl editLine []

/-- A line and the terminal on which it is edited. -/
structure LineEditor where
  line : List Byte
  screen : TextScreen

/-- The key of a character in the text attribute. -/
def printKey (textAttribute : BitVec 8) (c : Byte) (t : TextScreen) :
    TextScreen :=
  t.press (cell textAttribute 0x20#8) 4 ((consoleKey c).map (cell textAttribute))

def LineEditor.key (textAttribute : BitVec 8) (e : LineEditor) (c : Byte) : LineEditor where
  line := editLine e.line c
  screen := if Echoed e.line c then printKey textAttribute c e.screen else e.screen

/-- The buffer holds the line and the console shows the terminal. -/
structure Shell.Edits (sh : Shell) (textAttribute : BitVec 8) (e : LineEditor) : Prop where
  length_le : e.line.length ≤ 255
  index : sh.inputIndex = e.line.length
  buffer : ∀ i, sh.inputBuffer i = e.line.getD i 0#8
  shows : sh.console.Shows e.screen
  sameAttribute : sh.console.textAttribute = textAttribute

theorem emptyShell_edits {s : Console} {t : TextScreen} (h : s.Shows t) :
    (emptyShell s).Edits s.textAttribute ⟨[], t⟩ where
  length_le := Nat.zero_le _
  index := rfl
  buffer := fun _ => rfl
  shows := h
  sameAttribute := rfl

section Refinement
variable (shellExecute : (Nat → Byte) → Console → Logged ConsoleEvent Console)
variable {sh : Shell} {textAttribute : BitVec 8} {e : LineEditor} {c : Byte}

theorem getD_concat (line : List Byte) (c : Byte) (i : Nat) :
    (line ++ [c]).getD i 0#8 = Function.update (fun j => line.getD j 0#8) line.length c i := by
  rw [Function.update_apply]
  rcases Nat.lt_trichotomy i line.length with hlt | rfl | hgt
  · rw [if_neg (Nat.ne_of_lt hlt), List.getD_append _ _ _ _ hlt]
  · rw [if_pos rfl, List.getD_append_right _ _ _ _ (Nat.le_refl _), Nat.sub_self]
    rfl
  · rw [if_neg (Nat.ne_of_gt hgt), List.getD_eq_default _ _ (Nat.le_of_lt hgt)]
    exact List.getD_eq_default _ _ (by rw [List.length_append, List.length_singleton]; exact hgt)

theorem getD_dropLast (line : List Byte) (i : Nat) :
    line.dropLast.getD i 0#8 =
      Function.update (fun j => line.getD j 0#8) (line.length - 1) 0#8 i := by
  rw [Function.update_apply, List.getD_eq_getElem?_getD, List.getElem?_dropLast]
  rcases Nat.lt_trichotomy i (line.length - 1) with hlt | rfl | hgt
  · rw [if_pos hlt, if_neg (Nat.ne_of_lt hlt), List.getD_eq_getElem?_getD]
  · rw [if_neg (Nat.lt_irrefl _), if_pos rfl, Option.getD_none]
  · rw [if_neg (Nat.lt_asymm hgt), if_neg (Nat.ne_of_gt hgt), Option.getD_none,
      List.getD_eq_default _ _ (by omega)]

/-- The console after the key of an echoed character. -/
theorem Shell.Edits.print (h : sh.Edits textAttribute e) (c : Byte) :
    (printChar c sh.console).value.Shows (printKey textAttribute c e.screen) ∧
      (printChar c sh.console).value.textAttribute = textAttribute := by
  obtain ⟨hshows, hsame⟩ := printChar_shows h.shows c
  rw [Console.blank, h.sameAttribute] at hshows
  exact ⟨hshows, hsame.textAttribute.trans h.sameAttribute⟩

/-- A character that is not echoed changes nothing. -/
theorem shellKey_ignored (h : sh.Edits textAttribute e) (hnewline : c ≠ 0x0A#8)
    (hignored : ¬ Echoed e.line c) :
    shellKey shellExecute c sh = pure sh ∧ e.key textAttribute c = e := by
  have hkey : e.key textAttribute c = e := by
    rw [LineEditor.key, editLine, if_neg hignored, if_neg hignored]
  refine ⟨?_, hkey⟩
  unfold shellKey
  rw [if_neg hnewline]
  split
  · rfl
  · next hzero =>
    split
    · next hbackspace =>
      have hempty : e.line = [] := by
        by_contra hne
        exact hignored ⟨hzero, by rw [if_pos hbackspace]; exact hne⟩
      rw [h.index, hempty, if_neg (by decide)]
    · next hbackspace =>
      have hfull : ¬ e.line.length < 255 := fun hlt =>
        hignored ⟨hzero, by rw [if_neg hbackspace]; exact hlt⟩
      rw [h.index, if_neg hfull]

/-- A character that is echoed: the buffer after it, and the call that prints it. -/
theorem shellKey_echoed (h : sh.Edits textAttribute e) (hnewline : c ≠ 0x0A#8)
    (hecho : Echoed e.line c) :
    ∃ buffer index, index = (editLine e.line c).length ∧ index ≤ 255 ∧
      (∀ i, buffer i = (editLine e.line c).getD i 0#8) ∧
      shellKey shellExecute c sh = (printChar c sh.console >>= fun s =>
        pure ⟨buffer, index, s⟩) := by
  have hlength := h.length_le
  have hbuffer : sh.inputBuffer = fun i => e.line.getD i 0#8 := funext h.buffer
  unfold shellKey editLine
  rw [if_pos hecho, if_neg hecho.1, if_neg hnewline]
  have hroom := hecho.2
  split
  · next hbackspace =>
    rw [if_pos hbackspace] at hroom
    have hpos := List.length_pos_iff.mpr hroom
    rw [h.index, if_pos hpos, hbackspace]
    refine ⟨_, _, (List.length_dropLast).symm, by omega, fun i => ?_, rfl⟩
    rw [getD_dropLast, hbuffer]
  · next hbackspace =>
    rw [if_neg hbackspace] at hroom
    rw [h.index, if_pos hroom]
    refine ⟨_, _, by rw [List.length_append, List.length_singleton], hroom, fun i => ?_, rfl⟩
    rw [getD_concat, hbuffer]

/-- One character, and what it prints when nothing scrolls. -/
theorem shellKey_edits (h : sh.Edits textAttribute e) (hnewline : c ≠ 0x0A#8) :
    (shellKey shellExecute c sh).value.Edits textAttribute (e.key textAttribute c) ∧
      (Echoed e.line c → NoScroll (shellKey shellExecute c sh) →
        NoScroll (printChar c sh.console)) := by
  by_cases hecho : Echoed e.line c
  · obtain ⟨buffer, index, hindex, hle, hbuffer, hkey⟩ :=
      shellKey_echoed shellExecute h hnewline hecho
    obtain ⟨hshows, hattribute⟩ := h.print c
    rw [hkey]
    refine ⟨⟨hindex ▸ hle, hindex, hbuffer, ?_, hattribute⟩, fun _ hno => (all_bind.mp hno).1⟩
    rw [LineEditor.key, if_pos hecho]
    exact hshows
  · obtain ⟨hkey, hsame⟩ := shellKey_ignored shellExecute h hnewline hecho
    rw [hkey, hsame]
    exact ⟨h, fun hyes => absurd hyes hecho⟩

end Refinement

/-! ## Runs -/

theorem editedLine_concat (keys : List Byte) (c : Byte) :
    editedLine (keys ++ [c]) = editLine (editedLine keys) c :=
  List.foldl_concat ..

/-- What the characters do to a line and its screen. -/
def LineEditor.typed (textAttribute : BitVec 8) (keys : List Byte) (e : LineEditor) : LineEditor :=
  keys.foldl (LineEditor.key textAttribute) e

theorem LineEditor.typed_concat (textAttribute : BitVec 8) (keys : List Byte) (c : Byte)
    (e : LineEditor) :
    e.typed textAttribute (keys ++ [c]) = (e.typed textAttribute keys).key textAttribute c :=
  List.foldl_concat ..

theorem LineEditor.typed_line (textAttribute : BitVec 8) (keys : List Byte) (t : TextScreen) :
    (LineEditor.typed textAttribute keys ⟨[], t⟩).line = editedLine keys := by
  induction keys using List.reverseRecOn with
  | nil => rfl
  | append_singleton keys c ih =>
    rw [LineEditor.typed_concat, editedLine_concat, ← ih]
    rfl

/-- The characters that a line can hold. -/
structure Typable (c : Byte) : Prop where
  nonzero : c ≠ 0#8
  printing : (consoleKey c).Printing

theorem typable_of_ne {c : Byte} (hzero : c ≠ 0#8) (hnewline : c ≠ 0x0A#8)
    (hbackspace : c ≠ 0x08#8) : Typable c := by
  refine ⟨hzero, ?_⟩
  unfold consoleKey
  rw [if_neg hnewline, if_neg hbackspace]
  split
  · trivial
  · trivial

/-- A row ends at a tab stop. -/
theorem tabs_dvd : 4 ∣ 80 := by decide

theorem consoleKeys_printing (textAttribute : BitVec 8) {line : List Byte}
    (hline : ∀ d ∈ line, Typable d) : ∀ k ∈ consoleKeys textAttribute line, k.Printing := by
  intro k hk
  obtain ⟨d, hd, rfl⟩ := List.mem_map.mp hk
  exact (Terminal.Key.printing_map _).mpr (hline d hd).printing

theorem editLine_typable {line : List Byte} {c : Byte} (hline : ∀ d ∈ line, Typable d)
    (hnewline : c ≠ 0x0A#8) : ∀ d ∈ editLine line c, Typable d := by
  unfold editLine
  split
  · next hecho =>
    split
    · exact fun d hd => hline d (List.mem_of_mem_dropLast hd)
    · next hbackspace =>
      intro d hd
      rcases List.mem_append.mp hd with hd | hd
      · exact hline d hd
      · rw [List.mem_singleton.mp hd]
        exact typable_of_ne hecho.1 hnewline hbackspace
  · exact hline

theorem editedLine_typable {keys : List Byte} (hnewline : 0x0A#8 ∉ keys) :
    ∀ d ∈ editedLine keys, Typable d := by
  induction keys using List.reverseRecOn with
  | nil => exact fun d hd => absurd hd List.not_mem_nil
  | append_singleton keys c ih =>
    rw [List.mem_append, List.mem_singleton, not_or] at hnewline
    rw [editedLine_concat]
    exact editLine_typable (ih hnewline.1) (Ne.symm hnewline.2)

section Runs
variable (shellExecute : (Nat → Byte) → Console → Logged ConsoleEvent Console)

theorem shellRun_edits {sh : Shell} {textAttribute : BitVec 8} {e : LineEditor}
    (h : sh.Edits textAttribute e) {keys : List Byte} (hnewline : 0x0A#8 ∉ keys) :
    (keys.foldlM (fun sh c => shellKey shellExecute c sh) sh).value.Edits textAttribute
      (e.typed textAttribute keys) := by
  induction keys generalizing sh e with
  | nil => exact h
  | cons c keys ih =>
    rw [List.mem_cons, not_or] at hnewline
    exact ih (shellKey_edits shellExecute h (Ne.symm hnewline.1)).1 hnewline.2

/-- What the buffer holds up to its terminator. -/
theorem Shell.Edits.bufferBytes {sh : Shell} {textAttribute : BitVec 8} {e : LineEditor}
    (h : sh.Edits textAttribute e) (hline : ∀ d ∈ e.line, Typable d) :
    (sh.bufferBytes.takeWhile fun c => c ≠ 0#8) = e.line := by
  have hlength := h.length_le
  refine takeWhile_terminated (by omega) (fun hzero => (hline _ hzero).nonzero rfl) ?_ ?_
  · intro i hi
    rw [h.buffer, List.getD_eq_getElem _ _ hi]
  · rw [h.buffer, List.getD_eq_default _ _ (Nat.le_refl _)]

end Runs

/-! ## Taking characters back -/

/-- Where printing the line after the prompt leaves the cursor, in reading order. -/
def echoPosition (s : Console) (line : List Byte) : Nat :=
  Terminal.advances 4 (line.map consoleKey) (s.cursorY.toNat * 80 + 7)

/-- A backspace takes back the character that ends `line ++ [d]`: it has moved the cursor
by one column of its row, over a cell that was blank before the prompt. -/
def TakenBack (s : Console) (line : List Byte) (d : Byte) : Prop :=
  let p := echoPosition s line
  (consoleKey d).advance 4 p = p + 1 ∧ (p + 1) % 80 ≠ 0 ∧
    s.videoMemory p = cell s.textAttribute 0x20#8

/-- The terminal with the prompt printed at the start of the row of the cursor. -/
structure Prompted (s : Console) (t : TextScreen) : Prop where
  position : t.position = s.cursorY.toNat * 80 + 7
  ahead : ∀ r c, t.position ≤ r.val * 80 + c.val →
    t.cells r c = s.videoMemory (r.val * 80 + c.val)

section Agreement
variable {s : Console} {t : TextScreen}

/-- The line printed at once. -/
def printLine (textAttribute : BitVec 8) (line : List Byte) (t : TextScreen) : TextScreen :=
  t.run (cell textAttribute 0x20#8) 4 (consoleKeys textAttribute line)

theorem printLine_concat (textAttribute : BitVec 8) (line : List Byte) (d : Byte) (t : TextScreen) :
    printLine textAttribute (line ++ [d]) t =
      printKey textAttribute d (printLine textAttribute line t) := by
  unfold printLine consoleKeys
  rw [List.map_append]
  exact List.foldl_concat ..

theorem echoPosition_concat (s : Console) (line : List Byte) (d : Byte) :
    echoPosition s (line ++ [d]) = (consoleKey d).advance 4 (echoPosition s line) := by
  unfold echoPosition
  rw [List.map_append]
  exact List.foldl_concat ..

/-- Printing a line that fits on the screen. -/
theorem printLine_fits (hprompt : Prompted s t) {line : List Byte}
    (hline : ∀ d ∈ line, Typable d) (hfit : echoPosition s line < 2000) :
    (printLine s.textAttribute line t).position = echoPosition s line ∧
      (printLine s.textAttribute line t).cells (printLine s.textAttribute line t).row
        (printLine s.textAttribute line t).column = s.videoMemory (echoPosition s line) := by
  have hadvances : Terminal.advances 4 (consoleKeys s.textAttribute line) t.position =
      echoPosition s line := by
    unfold consoleKeys echoPosition
    rw [hprompt.position, ← Terminal.advances_map (cell s.textAttribute), List.map_map]
    rfl
  have hprinting := consoleKeys_printing s.textAttribute hline
  obtain ⟨hposition, hcells⟩ := Terminal.run_fits (cell s.textAttribute 0x20#8) tabs_dvd hprinting
    (t := t) (by rw [hadvances]; exact hfit)
  rw [hadvances] at hposition hcells
  have hle : t.position ≤ echoPosition s line :=
    hadvances ▸ Terminal.le_advances (Nat.zero_lt_succ 79) tabs_dvd hprinting t.position
  refine ⟨hposition, (hcells _ _ (Nat.le_of_eq hposition.symm)).trans ?_⟩
  have hmemory := hprompt.ahead (printLine s.textAttribute line t).row
    (printLine s.textAttribute line t).column (hle.trans (Nat.le_of_eq hposition.symm))
  exact hmemory.trans (congrArg s.videoMemory hposition)

/-- A backspace on the screen of a line that is not empty. -/
theorem backspace_agrees_iff (hprompt : Prompted s t) {line : List Byte} {d : Byte}
    (hline : ∀ c ∈ line ++ [d], Typable c) (hfit : echoPosition s (line ++ [d]) < 2000) :
    echoPosition s line < 2000 ∧
      (printKey s.textAttribute 0x08#8 (printLine s.textAttribute (line ++ [d]) t) =
          printLine s.textAttribute line t ↔ TakenBack s line d) := by
  have hd : (consoleKey d).Printing := (hline d (List.mem_append_right _ List.mem_cons_self)).printing
  rw [echoPosition_concat] at hfit
  have hlt := hd.lt_advance (Nat.zero_lt_succ 79) tabs_dvd (echoPosition s line)
  have hroom : echoPosition s line < 2000 := Nat.lt_trans hlt hfit
  obtain ⟨hposition, hcell⟩ :=
    printLine_fits hprompt (fun c hc => hline c (List.mem_append_left _ hc)) hroom
  refine ⟨hroom, ?_⟩
  have hiff := Terminal.backspace_press_iff (cell s.textAttribute 0x20#8) tabs_dvd
    ((Terminal.Key.printing_map (cell s.textAttribute)).mpr hd)
    (t := printLine s.textAttribute line t)
    (by rw [Terminal.Key.advance_map, hposition]; exact hfit)
  rw [Terminal.Key.advance_map, hposition, hcell] at hiff
  rw [printLine_concat]
  exact hiff

/-- One key on a screen that is that of the line. -/
theorem key_agrees_iff (hprompt : Prompted s t) {e : LineEditor} {c : Byte}
    (hline : ∀ d ∈ e.line, Typable d) (hscreen : e.screen = printLine s.textAttribute e.line t)
    (hfit : echoPosition s e.line < 2000)
    (hnext : Echoed e.line c → c ≠ 0x08#8 →
      (consoleKey c).advance 4 e.screen.position < 2000) :
    echoPosition s (editLine e.line c) < 2000 ∧
      ((e.key s.textAttribute c).screen = printLine s.textAttribute (editLine e.line c) t ↔
        (c = 0x08#8 → ∀ line d, e.line = line ++ [d] → TakenBack s line d)) := by
  by_cases hecho : Echoed e.line c
  · have hkey : (e.key s.textAttribute c).screen = printKey s.textAttribute c e.screen :=
      if_pos hecho
    rw [hkey, editLine, if_pos hecho, hscreen]
    by_cases hbackspace : c = 0x08#8
    · -- a backspace takes back the last character of the line
      have hne : e.line ≠ [] := by
        have hroom := hecho.2
        rwa [if_pos hbackspace] at hroom
      obtain ⟨line, d, hsplit⟩ := (List.eq_nil_or_concat' e.line).resolve_left hne
      rw [hsplit] at hline hfit ⊢
      obtain ⟨hroom, hiff⟩ := backspace_agrees_iff hprompt hline hfit
      rw [if_pos hbackspace, List.dropLast_concat, hbackspace, hiff]
      refine ⟨hroom, fun hback _ line' d' heq => ?_, fun h => h rfl line d rfl⟩
      obtain ⟨rfl, hd⟩ := List.append_inj' heq rfl
      exact List.singleton_inj.mp hd ▸ hback
    · obtain ⟨hposition, _⟩ := printLine_fits hprompt hline hfit
      have hroom := hnext hecho hbackspace
      rw [hscreen, hposition] at hroom
      rw [if_neg hbackspace, echoPosition_concat, printLine_concat]
      exact ⟨hroom, fun _ h => absurd h hbackspace, fun _ => rfl⟩
  · have hsame : (e.key s.textAttribute c).screen = e.screen := if_neg hecho
    rw [hsame, editLine, if_neg hecho]
    refine ⟨hfit, fun _ hbackspace line d hsplit => ?_, fun _ => hscreen⟩
    refine absurd ⟨?_, ?_⟩ hecho
    · rw [hbackspace]
      decide
    · rw [if_pos hbackspace, hsplit]
      exact List.append_ne_nil_of_right_ne_nil line (List.cons_ne_nil d [])

/-- The screen on which the characters have been typed is that of their line. -/
def TypedAgrees (s : Console) (t : TextScreen) (keys : List Byte) : Prop :=
  (LineEditor.typed s.textAttribute keys ⟨[], t⟩).screen =
    printLine s.textAttribute (editedLine keys) t

theorem typed_agrees_iff (hprompt : Prompted s t) (hrow : s.cursorY.toNat * 80 + 7 < 2000)
    {keys : List Byte} (hnewline : 0x0A#8 ∉ keys)
    (hnext : ∀ before c, before ++ [c] <+: keys → Echoed (editedLine before) c → c ≠ 0x08#8 →
      (consoleKey c).advance 4
        (LineEditor.typed s.textAttribute before ⟨[], t⟩).screen.position < 2000) :
    ((∀ typed, typed <+: keys → TypedAgrees s t typed) →
        echoPosition s (editedLine keys) < 2000) ∧
      ((∀ typed, typed <+: keys → TypedAgrees s t typed) ↔
        ∀ before, before ++ [0x08#8] <+: keys → ∀ line d, editedLine before = line ++ [d] →
          TakenBack s line d) := by
  induction keys using List.reverseRecOn with
  | nil =>
    refine ⟨fun _ => hrow, fun _ before hbefore => ?_, fun _ typed htyped => ?_⟩
    · exact absurd (List.prefix_nil.mp hbefore) (List.append_ne_nil_of_right_ne_nil _ (by simp))
    · rw [List.prefix_nil.mp htyped]
      rfl
  | append_singleton keys c ih =>
    rw [List.mem_append, not_or] at hnewline
    obtain ⟨hfit, hiff⟩ := ih hnewline.1 fun before d hbefore =>
      hnext before d (hbefore.trans (List.prefix_append keys [c]))
    have hsplit : (∀ typed, typed <+: keys ++ [c] → TypedAgrees s t typed) ↔
        (∀ typed, typed <+: keys → TypedAgrees s t typed) ∧ TypedAgrees s t (keys ++ [c]) := by
      simp only [List.prefix_concat_iff, or_imp, forall_and, forall_eq]
      exact And.comm
    -- the last key, on a screen that is that of the line
    have hlast : (∀ typed, typed <+: keys → TypedAgrees s t typed) →
        echoPosition s (editedLine (keys ++ [c])) < 2000 ∧
          (TypedAgrees s t (keys ++ [c]) ↔
            (c = 0x08#8 → ∀ line d, editedLine keys = line ++ [d] → TakenBack s line d)) := by
      intro hagrees
      have hline := LineEditor.typed_line s.textAttribute keys t
      have hkey := key_agrees_iff hprompt (c := c)
        (e := LineEditor.typed s.textAttribute keys ⟨[], t⟩)
        (hline ▸ editedLine_typable hnewline.1) (hline ▸ hagrees keys (List.prefix_refl keys))
        (hline ▸ hfit hagrees) (hline ▸ hnext keys c (List.prefix_refl _))
      rw [hline] at hkey
      rw [TypedAgrees, editedLine_concat, LineEditor.typed_concat]
      exact hkey
    refine ⟨fun h => (hlast (hsplit.mp h).1).1, ?_⟩
    rw [hsplit]
    constructor
    · rintro ⟨hagrees, hc⟩ before hbefore line d hd
      rcases List.prefix_concat_iff.mp hbefore with heq | hpre
      · obtain ⟨rfl, hback⟩ := List.append_inj' heq rfl
        exact ((hlast hagrees).2.mp hc) (List.singleton_inj.mp hback).symm line d hd
      · exact hiff.mp hagrees before hpre line d hd
    · intro h
      have hagrees := hiff.mpr fun before hbefore =>
        h before (hbefore.trans (List.prefix_append keys [c]))
      refine ⟨hagrees, (hlast hagrees).2.mpr ?_⟩
      rintro rfl line d hd
      exact h keys (List.prefix_refl _) line d hd

end Agreement

/-! ## No scrolling -/

/-- With enough rows below the prompt nothing scrolls. -/
theorem shellRun_room (shellExecute : (Nat → Byte) → Console → Logged ConsoleEvent Console)
    {s : Console} {keys : List Byte} (hnewline : 0x0A#8 ∉ keys)
    (hroom : s.cursorY.toNat + 7 + keys.length < 25) :
    NoScroll (shellRun shellExecute keys (emptyShell s)) := by
  have hlength : (literal "zenix> ").length = 7 := rfl
  have hprompt : (printChars (literal "zenix> ") s).Meets NotRead fun s' =>
      s'.cursorY.toNat ≤ s.cursorY.toNat + (literal "zenix> ").length :=
    loop_room (fun s : Console => s.cursorY.toNat) (fun s c _ hrow => printChar_room c hrow)
      (by rw [hlength]; omega)
  have hkey : ∀ (sh : Shell), ∀ c ∈ keys, sh.console.cursorY.toNat + 1 < 25 →
      (shellKey shellExecute c sh).Meets NotRead fun sh' =>
        sh'.console.cursorY.toNat ≤ sh.console.cursorY.toNat + 1 := by
    intro sh c hc hrow
    have hprint := printChar_room c hrow
    unfold shellKey
    rw [if_neg (fun heq : c = 0x0A#8 => hnewline (heq ▸ hc))]
    split
    · exact meets_pure (Nat.le_succ _)
    · split
      · next hbackspace =>
        split
        · exact (hbackspace ▸ hprint).bind fun s' hs' => meets_pure hs'
        · exact meets_pure (Nat.le_succ _)
      · split
        · exact hprint.bind fun s' hs' => meets_pure hs'
        · exact meets_pure (Nat.le_succ _)
  have hrun : (shellRun shellExecute keys (emptyShell s)).Meets NotRead fun _ => True := by
    refine hprompt.bind fun s' hs' => ?_
    rw [hlength] at hs'
    exact (loop_room (fun sh : Shell => sh.console.cursorY.toNat) hkey
      (by show s'.cursorY.toNat + keys.length < 25; omega)).mono fun _ _ => trivial
  exact hrun.1

/-! ## The property -/

section Echo
variable (shellExecute : (Nat → Byte) → Console → Logged ConsoleEvent Console)

/-- After `shell_run` has processed the characters the screen and the cursor are those of
the contents of `input_buffer` printed after the prompt. -/
def EchoAgrees (s : Console) (keys : List Byte) : Prop :=
  let sh := (shellRun shellExecute keys (emptyShell s)).value
  SameScreen sh.console (printString sh.bufferBytes (shellPrompt s).value).value

/-- The prompt at the start of a row. -/
theorem shellPrompt_shows {s : Console} (hs : s.Safe) (hrow : s.cursorX = 0#8) :
    ∃ t, (shellPrompt s).value.Shows t ∧
      (shellPrompt s).value.textAttribute = s.textAttribute ∧ Prompted s t := by
  obtain ⟨t, ht⟩ := hs.shows
  have hlt := hs.row
  have hstart : t.position = s.cursorY.toNat * 80 := by
    have hcolumn := ht.column
    rw [hrow] at hcolumn
    rw [Terminal.position, ← ht.row, ← hcolumn]
    rfl
  have hadvances : ∀ p, Terminal.advances 4 (consoleKeys s.textAttribute (literal "zenix> ")) p =
      p + 7 := fun p => rfl
  have hplain : ∀ c ∈ literal "zenix> ", c ≠ 0#8 ∧ c ≠ 0x0A#8 ∧ c ≠ 0x08#8 := by decide
  have hprinting := consoleKeys_printing s.textAttribute fun c hc =>
    typable_of_ne (hplain c hc).1 (hplain c hc).2.1 (hplain c hc).2.2
  obtain ⟨hshows, hsame⟩ := printChars_shows ht (literal "zenix> ")
  obtain ⟨hposition, hcells⟩ := Terminal.run_fits s.blank tabs_dvd hprinting (t := t)
    (by rw [hadvances, hstart]; omega)
  rw [hadvances] at hposition hcells
  refine ⟨_, hshows, hsame.textAttribute, hposition.trans (by rw [hstart]), fun r c hafter => ?_⟩
  rw [hposition] at hafter
  exact (hcells r c hafter).trans (ht.cells r c).symm

theorem echoAgrees_iff {s : Console} {t : TextScreen} (hshows : (shellPrompt s).value.Shows t)
    (hattribute : (shellPrompt s).value.textAttribute = s.textAttribute) {keys : List Byte}
    (hnewline : 0x0A#8 ∉ keys) :
    EchoAgrees shellExecute s keys ↔ TypedAgrees s t keys := by
  have hedits := emptyShell_edits hshows
  rw [hattribute] at hedits
  have hrun := shellRun_edits shellExecute hedits hnewline
  have hline := LineEditor.typed_line s.textAttribute keys t
  -- `print_string` stops at the terminator, which ends the line
  have hbuffer := hrun.bufferBytes (hline ▸ editedLine_typable hnewline)
  obtain ⟨hprinted, _⟩ := printChars_shows hshows (editedLine keys)
  rw [Console.blank, hattribute] at hprinted
  have hdirect : printString (shellRun shellExecute keys (emptyShell s)).value.bufferBytes
      (shellPrompt s).value = printChars (editedLine keys) (shellPrompt s).value :=
    congrArg (fun line => printChars line (shellPrompt s).value) (hbuffer.trans hline)
  unfold EchoAgrees
  dsimp only
  rw [hdirect]
  exact hrun.shows.sameScreen_iff hprinted

/-- The keys that `shell_run` echoes do not leave the screen when nothing scrolls. -/
theorem echo_fits {s : Console} {t : TextScreen} (hshows : (shellPrompt s).value.Shows t)
    (hattribute : (shellPrompt s).value.textAttribute = s.textAttribute) {keys : List Byte}
    (hnewline : 0x0A#8 ∉ keys) (hscroll : NoScroll (shellRun shellExecute keys (emptyShell s)))
    {before : List Byte} {c : Byte} (hbefore : before ++ [c] <+: keys)
    (hecho : Echoed (editedLine before) c) (hbackspace : c ≠ 0x08#8) :
    (consoleKey c).advance 4
      (LineEditor.typed s.textAttribute before ⟨[], t⟩).screen.position < 2000 := by
  obtain ⟨after, rfl⟩ := hbefore
  simp only [List.mem_append, List.mem_singleton, not_or] at hnewline
  obtain ⟨⟨hbefore, hc⟩, _⟩ := hnewline
  have hedits := emptyShell_edits hshows
  rw [hattribute] at hedits
  have hrun := shellRun_edits shellExecute hedits hbefore
  -- the log of the run contains that of the call that prints the key
  have hkeys := (all_bind.mp hscroll).2
  rw [List.append_assoc, List.foldlM_append, List.singleton_append] at hkeys
  have hrest := (all_bind.mp hkeys).2
  rw [List.foldlM_cons] at hrest
  have hkey := (all_bind.mp hrest).1
  have hline := LineEditor.typed_line s.textAttribute before t
  have hprint := (shellKey_edits shellExecute hrun (Ne.symm hc)).2 (hline ▸ hecho) hkey
  exact printChar_fits hrun.shows (typable_of_ne hecho.1 (Ne.symm hc) hbackspace).printing hprint

/-- From a prompt at the start of a row, and as long as nothing scrolls, the screen is at
every moment that of the buffer printed after the prompt exactly when every backspace takes
back a character that the screen has shown in one column of its row, over a blank. The screen
in the end is then that of the final buffer. -/
theorem shell_echo_iff {s : Console} (hs : s.Safe) (hrow : s.cursorX = 0#8) {keys : List Byte}
    (hnewline : 0x0A#8 ∉ keys) (hscroll : NoScroll (shellRun shellExecute keys (emptyShell s))) :
    ((∀ typed, typed <+: keys → EchoAgrees shellExecute s typed) ↔
      ∀ before, before ++ [0x08#8] <+: keys → ∀ line d, editedLine before = line ++ [d] →
        TakenBack s line d) ∧
    ((∀ before, before ++ [0x08#8] <+: keys → ∀ line d, editedLine before = line ++ [d] →
        TakenBack s line d) →
      EchoAgrees shellExecute s keys) := by
  obtain ⟨t, hshows, hattribute, hprompt⟩ := shellPrompt_shows hs hrow
  have hlt := hs.row
  have htyped := (typed_agrees_iff hprompt (by omega) hnewline fun before c hbefore hecho hback =>
    echo_fits shellExecute hshows hattribute hnewline hscroll hbefore hecho hback).2
  have hscreen : (∀ typed, typed <+: keys → EchoAgrees shellExecute s typed) ↔
      ∀ typed, typed <+: keys → TypedAgrees s t typed :=
    forall_congr' fun typed => imp_congr_right fun hpre =>
      echoAgrees_iff shellExecute hshows hattribute fun hmem => hnewline (hpre.subset hmem)
  rw [hscreen]
  refine ⟨htyped, fun htaken => ?_⟩
  exact hscreen.mpr (htyped.mpr htaken) keys (List.prefix_refl keys)

end Echo

/-- A cleared screen. -/
def clearedConsole : Console :=
  (clearScreen ⟨fun _ => 0#16, 0#8, 0#8, 0x0F#8, fun _ _ => 0#8, 0, 0⟩).value

/-- A letter and a backspace. -/
theorem shell_echo_iff_letter :
    EchoAgrees (fun _ s => pure s) clearedConsole [0x6C#8, 0x08#8] := by
  have hroom : NoScroll (shellRun (fun _ s => pure s) [0x6C#8, 0x08#8] (emptyShell clearedConsole)) :=
    shellRun_room _ (by decide) (by decide)
  have hblank : TakenBack clearedConsole [] 0x6C#8 := by
    have hposition : echoPosition clearedConsole [] = 7 := by decide
    refine ⟨by decide, by decide, ?_⟩
    rw [hposition, clearedConsole, clearScreen_value]
    rfl
  refine (shell_echo_iff (fun _ s => pure s) (s := clearedConsole) (clearScreen_safe _).2 rfl
    (by decide) hroom).2 fun before hbefore line d hd => ?_
  have hletter : before = [0x6C#8] := by
    rcases List.prefix_concat_iff.mp (show before ++ [0x08#8] <+: [0x6C#8] ++ [0x08#8] from hbefore)
      with heq | hpre
    · exact (List.append_inj' heq rfl).1
    · have hmem := hpre.subset (List.mem_append_right before List.mem_cons_self)
      exact absurd hmem (by decide)
  rw [hletter, show editedLine [0x6C#8] = [] ++ [0x6C#8] by decide] at hd
  obtain ⟨rfl, hsame⟩ := List.append_inj' hd rfl
  rw [← List.singleton_inj.mp hsame]
  exact hblank

/-- A letter, a tab and a backspace: the backspace goes back by one column only. -/
theorem tab_not_taken_back :
    NoScroll (shellRun (fun _ s => pure s) [0x61#8, 0x09#8, 0x08#8] (emptyShell clearedConsole)) ∧
      ¬ EchoAgrees (fun _ s => pure s) clearedConsole [0x61#8, 0x09#8, 0x08#8] := by
  refine ⟨shellRun_room _ (by decide) (by decide), fun h => ?_⟩
  exact absurd h.cursorX (by decide +kernel)

end Zenix
