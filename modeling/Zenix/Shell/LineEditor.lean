import Zenix.Libc
import Zenix.Shell.Shell

/-!
# The lines that the shell executes (kernel/shell/shell.c)

`input_buffer` and `input_index` are static variables that only `shell_init` and
`shell_run` write. Here they are an array over all the values of an `int`, and the
functions log every write to it and every command that is executed.

Results:
1. `shellRunBuffer_sameLine`, `shellRunKey_command`: this is the buffer of `shellRun`, and
   its commands are those that `shellRun` executes.
2. `shell_lines`: every command is the line that was typed since the previous line feed,
   and every write is inside the buffer.
-/

namespace Zenix
open ByteMemory Logged

structure LineBuffer where
  inputBuffer : Int → Byte
  inputIndex : Int

/-- What the functions log. -/
inductive LineEvent where
  | write (index : Int)
  /-- A call of `shell_execute` with the contents of the buffer. -/
  | execute (command : Int → Byte)

def storeInput (i : Int) (c : Byte) (b : LineBuffer) : Logged LineEvent LineBuffer := do
  touch (.write i)
  pure { b with inputBuffer := Function.update b.inputBuffer i c }

/-- `memset(input_buffer, 0, sizeof(input_buffer))`. -/
def clearInput (b : LineBuffer) : Logged LineEvent LineBuffer :=
  (List.range 256).foldlM (fun b (i : Nat) => storeInput i 0#8 b) b

/-- What `shell_init` does to the two variables. -/
def shellInitBuffer (b : LineBuffer) : Logged LineEvent LineBuffer :=
  clearInput { b with inputIndex := 0 }

/-- What the loop of `shell_run` does to them with one character. -/
def shellRunKey (c : Byte) (b : LineBuffer) : Logged LineEvent LineBuffer :=
  if c = 0#8 then pure b
  else if c = 0x0A#8 then do
    let b ← storeInput b.inputIndex 0#8 b
    touch (.execute b.inputBuffer)
    clearInput { b with inputIndex := 0 }
  else if c = 0x08#8 then
    if 0 < b.inputIndex then
      let b := { b with inputIndex := b.inputIndex - 1 }
      storeInput b.inputIndex 0#8 b
    else pure b
  else if b.inputIndex < 255 then
    storeInput b.inputIndex c { b with inputIndex := b.inputIndex + 1 }
  else pure b

/-- `shell_init`, and `shell_run` until the keyboard has returned the characters. -/
def shellRunBuffer (keys : List Byte) (b : LineBuffer) : Logged LineEvent LineBuffer := do
  let b ← shellInitBuffer b
  keys.foldlM (fun b c => shellRunKey c b) b

/-! ## What is logged -/

/-- The write is to one of the 256 bytes of `input_buffer`. -/
def LineEvent.InBuffer : LineEvent → Prop
  | .write i => 0 ≤ i ∧ i < 256
  | .execute _ => True

def LineEvent.command? : LineEvent → Option (Int → Byte)
  | .write _ => none
  | .execute command => some command

/-- The commands that are executed, in order. -/
def executed {α : Type} (x : Logged LineEvent α) : List (Int → Byte) :=
  x.log.filterMap LineEvent.command?

/-- The command is the line and its terminator. -/
def Terminated (command : Int → Byte) (line : List Byte) : Prop :=
  StringFrom (fun i : Nat => command i) 0 line

/-- The buffer holds the line, and zeros after it. -/
structure LineBuffer.Holds (b : LineBuffer) (line : List Byte) : Prop where
  length_le : line.length ≤ 255
  nonzero : 0#8 ∉ line
  index : b.inputIndex = line.length
  buffer : ∀ i : Nat, i < 256 → b.inputBuffer i = line.getD i 0#8

section Step
variable {b : LineBuffer} {line : List Byte} {c : Byte}

theorem executed_bind {α β : Type} (x : Logged LineEvent α) (f : α → Logged LineEvent β) :
    executed (x >>= f) = executed x ++ executed (f x.value) :=
  List.filterMap_append

theorem update_natCast (buffer : Int → Byte) (i j : Nat) (c : Byte) :
    Function.update buffer i c j = Function.update (fun k : Nat => buffer k) i c j := by
  rw [Function.update_apply, Function.update_apply]
  exact if_congr Int.natCast_inj rfl rfl

theorem storeInput_meets {Q : LineBuffer → Prop} {i : Nat} (hi : i < 256)
    (h : Q { b with inputBuffer := Function.update b.inputBuffer i c }) :
    (storeInput i c b).Meets LineEvent.InBuffer Q :=
  meets_touch ⟨Int.natCast_nonneg i, Int.ofNat_lt.mpr hi⟩ (meets_pure h)

/-- `memset` leaves an empty line. -/
theorem clearInput_holds (hindex : b.inputIndex = 0) :
    (clearInput b).Meets LineEvent.InBuffer (·.Holds []) ∧ executed (clearInput b) = [] := by
  have hclear : ∀ n ≤ 256,
      ((List.range n).foldlM (fun b (i : Nat) => storeInput i 0#8 b) b).Meets LineEvent.InBuffer
          (fun b' => b'.inputIndex = 0 ∧ ∀ i < n, b'.inputBuffer (i : Nat) = 0#8) ∧
        executed ((List.range n).foldlM (fun b (i : Nat) => storeInput i 0#8 b) b) = [] := by
    intro n hn
    induction n with
    | zero => exact ⟨meets_pure ⟨hindex, fun i hi => absurd hi (Nat.not_lt_zero i)⟩, rfl⟩
    | succ n ih =>
      obtain ⟨hmeets, hnone⟩ := ih (Nat.le_of_succ_le hn)
      rw [List.range_succ, List.foldlM_append]
      simp only [List.foldlM_cons, List.foldlM_nil, bind_pure]
      refine ⟨hmeets.bind fun b' hb' => storeInput_meets hn ⟨hb'.1, fun i hi => ?_⟩, ?_⟩
      · show Function.update b'.inputBuffer (n : Int) 0#8 i = 0#8
        rw [update_natCast, Function.update_apply]
        split
        · rfl
        · next hne => exact hb'.2 i (Nat.lt_of_le_of_ne (Nat.le_of_lt_succ hi) hne)
      · rw [executed_bind, hnone]
        rfl
  obtain ⟨hmeets, hnone⟩ := hclear 256 (Nat.le_refl _)
  refine ⟨hmeets.mono fun b' hb' => ?_, hnone⟩
  exact ⟨Nat.zero_le _, List.not_mem_nil, hb'.1, hb'.2⟩

/-- A write to one byte of a buffer that holds a line. -/
theorem storeInput_holds {line' : List Byte} {i : Nat} {c : Byte}
    (hbuffer : ∀ j : Nat, j < 256 → b.inputBuffer j = line.getD j 0#8) (hi : i < 256)
    (hindex : b.inputIndex = line'.length) (hlength : line'.length ≤ 255) (hzero : 0#8 ∉ line')
    (hline : ∀ j, line'.getD j 0#8 = Function.update (fun k => line.getD k 0#8) i c j) :
    (storeInput i c b).Meets LineEvent.InBuffer (·.Holds line') := by
  refine storeInput_meets hi ⟨hlength, hzero, hindex, fun j hj => ?_⟩
  show Function.update b.inputBuffer (i : Int) c j = line'.getD j 0#8
  rw [update_natCast, hline, Function.update_apply, Function.update_apply, hbuffer j hj]

theorem editLine_zero (line : List Byte) : editLine line 0#8 = line :=
  if_neg fun hecho => hecho.1 rfl

theorem editLine_backspace (line : List Byte) : editLine line 0x08#8 = line.dropLast := by
  cases line with
  | nil => rfl
  | cons d line => exact (if_pos ⟨by decide, List.cons_ne_nil d line⟩).trans (if_pos rfl)

theorem editLine_char (hzero : c ≠ 0#8) (hbackspace : c ≠ 0x08#8) :
    editLine line c = if line.length < 255 then line ++ [c] else line := by
  have hecho : Echoed line c ↔ line.length < 255 := by
    unfold Echoed
    rw [if_neg hbackspace]
    exact and_iff_right hzero
  unfold editLine
  rw [if_neg hbackspace]
  exact if_congr hecho rfl rfl

/-- Any character but a line feed edits the line. -/
theorem shellRunKey_edits (h : b.Holds line) (hnewline : c ≠ 0x0A#8) :
    (shellRunKey c b).Meets LineEvent.InBuffer (·.Holds (editLine line c)) ∧
      executed (shellRunKey c b) = [] := by
  have hlength := h.length_le
  have hindex := h.index
  unfold shellRunKey
  by_cases hzero : c = 0#8
  · rw [if_pos hzero, hzero, editLine_zero]
    exact ⟨meets_pure h, rfl⟩
  rw [if_neg hzero, if_neg hnewline]
  by_cases hbackspace : c = 0x08#8
  · rw [if_pos hbackspace, hbackspace, editLine_backspace, hindex]
    by_cases hempty : line = []
    · subst hempty
      rw [if_neg (by decide)]
      exact ⟨meets_pure h, rfl⟩
    · have hpos := List.length_pos_iff.mpr hempty
      have hlast : (line.length : Int) - 1 = (line.length - 1 : Nat) := by omega
      rw [if_pos (by omega), hlast]
      refine ⟨storeInput_holds h.buffer (by omega) ?_ ?_ ?_ fun j => getD_dropLast line j, rfl⟩
      · rw [List.length_dropLast]
      · rw [List.length_dropLast]
        omega
      · exact fun hmem => h.nonzero (List.mem_of_mem_dropLast hmem)
  · rw [if_neg hbackspace, editLine_char hzero hbackspace, hindex]
    by_cases hroom : line.length < 255
    · rw [if_pos hroom, if_pos (by omega)]
      refine ⟨storeInput_holds h.buffer (by omega) ?_ ?_ ?_ fun j => getD_concat line c j, rfl⟩
      · rw [List.length_append, List.length_singleton]
        rfl
      · rw [List.length_append, List.length_singleton]
        exact hroom
      · rw [List.mem_append, List.mem_singleton]
        exact fun hmem => hmem.elim h.nonzero fun heq => hzero heq.symm
    · rw [if_neg hroom, if_neg (by omega)]
      exact ⟨meets_pure h, rfl⟩

theorem shellRunKey_newline (b : LineBuffer) :
    shellRunKey 0x0A#8 b = storeInput b.inputIndex 0#8 b >>= fun b =>
      touch (.execute b.inputBuffer) >>= fun _ => clearInput { b with inputIndex := 0 } :=
  (if_neg (by decide)).trans (if_pos rfl)

theorem shellRunKey_executed (b : LineBuffer) :
    executed (shellRunKey 0x0A#8 b) = [(storeInput b.inputIndex 0#8 b).value.inputBuffer] := by
  rw [shellRunKey_newline, executed_bind, executed_bind, (clearInput_holds rfl).2]
  rfl

/-- A line feed executes the line and empties the buffer. -/
theorem shellRunKey_executes (h : b.Holds line) :
    (shellRunKey 0x0A#8 b).Meets LineEvent.InBuffer (·.Holds []) ∧
      ∃ command, executed (shellRunKey 0x0A#8 b) = [command] ∧ Terminated command line := by
  have hlength := h.length_le
  have hupdate : (storeInput b.inputIndex 0#8 b).Meets LineEvent.InBuffer
      (fun b' => b'.inputBuffer = Function.update b.inputBuffer line.length 0#8) := by
    rw [h.index]
    exact storeInput_meets (Nat.lt_succ_of_le hlength) rfl
  refine ⟨?_, _, shellRunKey_executed b, ?_⟩
  · rw [shellRunKey_newline]
    exact hupdate.bind fun b' _ => meets_touch trivial (clearInput_holds rfl).1
  · rw [hupdate.2]
    refine ⟨fun i hi => ?_, ?_, h.nonzero⟩
    · rw [Nat.zero_add, Function.update_of_ne (by omega), h.buffer i (by omega),
        List.getD_eq_getElem _ _ hi]
    · rw [Nat.zero_add, Function.update_self]

end Step

/-! ## The buffer of `shellRun` -/

/-- The two models of the buffer agree. -/
structure SameLine (b : LineBuffer) (sh : Shell) : Prop where
  index : b.inputIndex = sh.inputIndex
  index_le : sh.inputIndex ≤ 255
  buffer : ∀ i : Nat, i < 256 → b.inputBuffer i = sh.inputBuffer i

section Agreement
variable (shellExecute : (Nat → Byte) → Console → Logged ConsoleEvent Console)
variable {b : LineBuffer} {sh : Shell}

/-- The same write to both. -/
theorem storeInput_sameLine (h : ∀ j : Nat, j < 256 → b.inputBuffer j = sh.inputBuffer j)
    (i : Nat) (c : Byte) {j : Nat} (hj : j < 256) :
    Function.update b.inputBuffer i c j = Function.update sh.inputBuffer i c j := by
  rw [update_natCast, Function.update_apply, Function.update_apply, h j hj]

theorem sameLine_empty (h : b.Holds []) (s : Console) : SameLine b (emptyShell s) :=
  ⟨h.index, Nat.zero_le _, h.buffer⟩

theorem shellRunKey_newline_sameLine (b : LineBuffer) (sh : Shell) :
    SameLine (shellRunKey 0x0A#8 b).value (shellKey shellExecute 0x0A#8 sh).value := by
  obtain ⟨s, hs⟩ : ∃ s, (shellKey shellExecute 0x0A#8 sh).value = emptyShell s := by
    rw [shellKey, if_neg (by decide), if_pos rfl]
    exact ⟨_, rfl⟩
  rw [shellRunKey_newline, value_bind, value_bind, hs]
  exact sameLine_empty (clearInput_holds rfl).1.2 s

theorem shellRunKey_sameLine (h : SameLine b sh) (c : Byte) :
    SameLine (shellRunKey c b).value (shellKey shellExecute c sh).value := by
  by_cases hnewline : c = 0x0A#8
  · rw [hnewline]
    exact shellRunKey_newline_sameLine shellExecute b sh
  have hindex := h.index
  have hle := h.index_le
  unfold shellRunKey shellKey
  split
  · exact h
  · split
    · by_cases hpos : 0 < sh.inputIndex
      · have hlast : (sh.inputIndex : Int) - 1 = (sh.inputIndex - 1 : Nat) := by omega
        rw [hindex, if_pos (by omega), if_pos hpos, hlast]
        exact ⟨rfl, Nat.le_trans (Nat.sub_le _ _) hle,
          fun j hj => storeInput_sameLine h.buffer _ _ hj⟩
      · rw [hindex, if_neg (by omega), if_neg hpos]
        exact h
    · by_cases hroom : sh.inputIndex < 255
      · rw [if_pos hroom, hindex, if_pos (by omega)]
        exact ⟨rfl, hroom, fun j hj => storeInput_sameLine h.buffer _ _ hj⟩
      · rw [if_neg hroom, hindex, if_neg (by omega)]
        exact h

/-- The command that a line feed executes is the one that `shellKey` executes. -/
theorem shellRunKey_command (h : SameLine b sh) :
    ∃ command, executed (shellRunKey 0x0A#8 b) = [command] ∧
      ∀ i : Nat, i < 256 →
        command i = Function.update sh.inputBuffer sh.inputIndex 0#8 i := by
  refine ⟨(storeInput b.inputIndex 0#8 b).value.inputBuffer, ?_, fun i hi => ?_⟩
  · exact shellRunKey_executed b
  · rw [h.index]
    exact storeInput_sameLine h.buffer _ _ hi

/-- The buffer of `shellRun`, after `shell_init`. -/
theorem shellRunBuffer_sameLine (b : LineBuffer) (keys : List Byte) (s : Console) :
    SameLine (shellRunBuffer keys b).value (shellRun shellExecute keys (emptyShell s)).value := by
  have hkeys : ∀ {b sh}, SameLine b sh →
      SameLine (keys.foldlM (fun b c => shellRunKey c b) b).value
        (keys.foldlM (fun sh c => shellKey shellExecute c sh) sh).value := by
    induction keys with
    | nil => exact fun h => h
    | cons c keys ih => exact fun h => ih (shellRunKey_sameLine shellExecute h c)
  rw [shellRunBuffer, shellRun, value_bind, value_bind]
  exact hkeys (sameLine_empty (clearInput_holds rfl).1.2 _)

end Agreement

/-! ## Runs -/

/-- The lines that are still to be executed, when `since` has been typed after the last
line feed. -/
theorem shellRunKeys_lines (since : List Byte) {b : LineBuffer} (h : b.Holds (editedLine since))
    (hsince : 0x0A#8 ∉ since) (keys : List Byte) :
    (keys.foldlM (fun b c => shellRunKey c b) b).Meets LineEvent.InBuffer
        (fun b' => 0 ≤ b'.inputIndex ∧ b'.inputIndex ≤ 255) ∧
      List.Forall₂ Terminated (executed (keys.foldlM (fun b c => shellRunKey c b) b))
        (((since ++ keys).splitOn 0x0A#8).dropLast.map editedLine) := by
  induction keys generalizing b since with
  | nil =>
    rw [List.append_nil, List.splitOn_eq_singleton hsince]
    refine ⟨meets_pure ?_, .nil⟩
    rw [h.index]
    exact ⟨Int.natCast_nonneg _, Int.ofNat_le.mpr h.length_le⟩
  | cons c keys ih =>
    rw [List.foldlM_cons, executed_bind]
    by_cases hnewline : c = 0x0A#8
    · obtain ⟨hmeets, command, hcommand, hline⟩ := shellRunKey_executes h
      rw [hnewline, hcommand, List.splitOn_append_cons_self, List.splitOn_eq_singleton hsince,
        List.dropLast_append_of_ne_nil (List.splitOn_ne_nil _ _), List.map_append]
      have hrest := fun b' hb' => ih [] (b := b') hb' List.not_mem_nil
      exact ⟨hmeets.bind fun b' hb' => (hrest b' hb').1, .cons hline (hrest _ hmeets.2).2⟩
    · obtain ⟨hmeets, hnone⟩ := shellRunKey_edits h hnewline
      have hconcat : 0x0A#8 ∉ since ++ [c] := by
        rw [List.mem_append, List.mem_singleton]
        exact fun hmem => hmem.elim hsince fun heq => hnewline heq.symm
      rw [← editedLine_concat] at hmeets
      rw [hnone, List.append_cons]
      have hrest := fun b' hb' => ih (since ++ [c]) (b := b') hb' hconcat
      exact ⟨hmeets.bind fun b' hb' => (hrest b' hb').1, (hrest _ hmeets.2).2⟩

/-- Every write is inside `input_buffer`, `input_index` stays in it, and each command that
is executed is the terminated line of the characters since the previous line feed. -/
theorem shell_lines (b : LineBuffer) (keys : List Byte) :
    (shellRunBuffer keys b).Meets LineEvent.InBuffer
        (fun b' => 0 ≤ b'.inputIndex ∧ b'.inputIndex ≤ 255) ∧
      List.Forall₂ Terminated (executed (shellRunBuffer keys b))
        ((keys.splitOn 0x0A#8).dropLast.map editedLine) := by
  obtain ⟨hmeets, hnone⟩ := clearInput_holds (b := { b with inputIndex := 0 }) rfl
  have hrest := fun b' hb' =>
    shellRunKeys_lines [] (b := b') hb' List.not_mem_nil keys
  refine ⟨hmeets.bind fun b' hb' => (hrest b' hb').1, ?_⟩
  rw [shellRunBuffer, executed_bind, shellInitBuffer, hnone]
  exact (hrest _ hmeets.2).2

end Zenix
