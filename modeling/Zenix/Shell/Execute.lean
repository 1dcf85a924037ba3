import Mathlib.Data.List.TakeWhile
import Zenix.Shell.LineEditor

/-!
# Command words and arguments (kernel/shell/shell.c)

`shell_execute` copies the text before the first space of the line to `cmd`, an array of 64
bytes, and the text after it to `args`, an array of 192. Each of its two loops stops before
the last byte of its array.

The commands that do more than print are parameters.

Result: `shellExecute_splits`, what `cmd` and `args` hold for every line, what `echo` prints,
and what is printed for an unknown command.
-/

namespace Zenix
open ByteMemory Logged

/-! ## The functions -/

def shellClear (s : Console) : Logged ConsoleEvent Console := do
  let s ← clearScreen s
  let s ← printString (literal "Zenix OS Shell - Phase 10\n") s
  printString (literal "Type 'help' for available commands\n\n") s

def shellHelp (s : Console) : Logged ConsoleEvent Console :=
  [literal "Available commands:\n",
    literal "  help     - Show this help\n",
    literal "  clear    - Clear screen\n",
    literal "  uptime   - Show system uptime\n",
    literal "  meminfo  - Show memory information\n",
    literal "  ps       - List processes\n",
    literal "  spawn    - Spawn test processes\n",
    literal "  ls       - List files\n",
    literal "  cat      - Display file contents\n",
    literal "  syscall  - Test system calls\n",
    literal "  usermode - Test user mode\n",
    literal "  echo     - Echo text\n",
    literal "  about    - About Zenix OS\n"].foldlM (fun s str => printString str s) s

def shellAbout (s : Console) : Logged ConsoleEvent Console :=
  [literal "\nZenix OS - Phase 10\n",
    literal "====================\n",
    literal "A real operating system\n",
    literal "Features:\n",
    literal "  - Protected mode (x86)\n",
    literal "  - Memory management\n",
    literal "  - Multitasking\n",
    literal "  - System calls\n",
    literal "  - User mode (Ring 3)\n\n"].foldlM (fun s str => printString str s) s

/-- `shell_echo` on an array of 192 bytes. -/
def shellEcho (text : Nat → Byte) (s : Console) : Logged ConsoleEvent Console := do
  let s ← if text 0 ≠ 0#8 then printString ((List.range 192).map text) s else pure s
  printChar 0x0A#8 s

/-- The commands that use more than the console. -/
structure ShellCommands where
  uptime : Console → Logged ConsoleEvent Console
  meminfo : Console → Logged ConsoleEvent Console
  ps : Console → Logged ConsoleEvent Console
  spawn : Console → Logged ConsoleEvent Console
  ls : Console → Logged ConsoleEvent Console
  cat : (Nat → Byte) → Console → Logged ConsoleEvent Console
  syscallTest : Console → Logged ConsoleEvent Console
  usermodeTest : Console → Logged ConsoleEvent Console

/-- The arrays `cmd` and `args`, as the first half of `shell_execute` fills them. -/
def splitCommand (command : Nat → Byte) : (Nat → Byte) × (Nat → Byte) :=
  let (cmd, i, _) := copyLoop command (fun c => c ≠ 0x20#8) 63 0 0 fun _ => 0#8
  let cmd := Function.update cmd i 0#8
  if command i = 0x20#8 then
    let (args, _, j) := copyLoop command (fun _ => true) 191 (i + 1) 0 fun _ => 0#8
    (cmd, Function.update args j 0#8)
  else (cmd, fun _ => 0#8)

/-- `strcmp(cmd, "...") == 0`. -/
def isCommand (cmd : Nat → Byte) (name : List Byte) : Bool :=
  strcmpLoop cmd (fun i => name.getD i 0#8) 64 0 = some 0

def shellExecute (commands : ShellCommands) (command : Nat → Byte) (s : Console) :
    Logged ConsoleEvent Console :=
  if command 0 = 0#8 then pure s
  else
    let (cmd, args) := splitCommand command
    if isCommand cmd (literal "help") then shellHelp s
    else if isCommand cmd (literal "clear") then shellClear s
    else if isCommand cmd (literal "uptime") then commands.uptime s
    else if isCommand cmd (literal "meminfo") then commands.meminfo s
    else if isCommand cmd (literal "ps") then commands.ps s
    else if isCommand cmd (literal "spawn") then commands.spawn s
    else if isCommand cmd (literal "ls") then commands.ls s
    else if isCommand cmd (literal "cat") then commands.cat args s
    else if isCommand cmd (literal "echo") then shellEcho args s
    else if isCommand cmd (literal "syscall") then commands.syscallTest s
    else if isCommand cmd (literal "usermode") then commands.usermodeTest s
    else if isCommand cmd (literal "about") then shellAbout s
    else do
      let s ← printString (literal "Unknown command: ") s
      let s ← printString ((List.range 64).map cmd) s
      printString (literal "\n") s

/-! ## The text of a line -/

/-- The text before the first space. -/
def firstWord (line : List Byte) : List Byte := line.takeWhile fun c => c ≠ 0x20#8

/-- The text after it, or nothing. -/
def restOfLine (line : List Byte) : List Byte := (line.dropWhile fun c => c ≠ 0x20#8).tail

def commandNames : List (List Byte) :=
  [literal "help", literal "clear", literal "uptime", literal "meminfo", literal "ps",
    literal "spawn", literal "ls", literal "cat", literal "echo", literal "syscall",
    literal "usermode", literal "about"]

/-! ## The loops -/

section Split
variable {command : Nat → Byte} {line : List Byte}

theorem firstWord_append_dropWhile (line : List Byte) :
    firstWord line ++ line.dropWhile (fun c => c ≠ 0x20#8) = line :=
  List.takeWhile_append_dropWhile

theorem not_space_of_mem {c : Byte} (h : c ∈ firstWord line) : c ≠ 0x20#8 :=
  of_decide_eq_true (List.mem_takeWhile_imp (p := fun c : Byte => decide (c ≠ 0x20#8)) h)

/-- The character at which the first loop ends. -/
theorem command_at_end (h : StringFrom command 0 line) :
    command ((firstWord line).take 63).length = 0x20#8 ↔
      (firstWord line).length ≤ 63 ∧ line.dropWhile (fun c => c ≠ 0x20#8) ≠ [] := by
  have hsplit := firstWord_append_dropWhile line
  rw [List.length_take]
  by_cases hfit : (firstWord line).length ≤ 63
  · rw [Nat.min_eq_right hfit, and_iff_right hfit]
    rw [← hsplit] at h
    have htail := h.drop
    rw [Nat.zero_add] at htail
    cases hdrop : line.dropWhile (fun c => c ≠ 0x20#8) with
    | nil =>
      rw [hdrop] at htail
      rw [stringFrom_nil.mp htail]
      exact iff_of_false (by decide) fun hne => hne rfl
    | cons d rest =>
      rw [hdrop] at htail
      rw [(stringFrom_cons.mp htail).1]
      have hspace := List.head_dropWhile_not (fun c : Byte => decide (c ≠ 0x20#8)) (l := line)
        (by rw [hdrop]; exact List.cons_ne_nil d rest)
      simp only [hdrop, List.head_cons, decide_eq_false_iff_not, not_not] at hspace
      exact iff_of_true hspace (List.cons_ne_nil d rest)
  · have hlt : 63 < (firstWord line).length := Nat.lt_of_not_le hfit
    have hpre : firstWord line <+: line := List.takeWhile_prefix _
    rw [Nat.min_eq_left (Nat.le_of_lt hlt)]
    refine iff_of_false (fun hspace => ?_) fun hyes => hfit hyes.1
    have hchar := h.chars 63 (Nat.lt_of_lt_of_le hlt hpre.length_le)
    rw [Nat.zero_add, hspace, ← hpre.getElem hlt] at hchar
    exact not_space_of_mem (List.getElem_mem hlt) hchar.symm

/-- What the two arrays hold. -/
theorem splitCommand_spec (h : StringFrom command 0 line) :
    StringFrom (splitCommand command).1 0 ((firstWord line).take 63) ∧
      StringFrom (splitCommand command).2 0
        (if (firstWord line).length ≤ 63 then (restOfLine line).take 191 else []) := by
  obtain ⟨cmd, hloop, hcmd⟩ := copyLoop_string (fun c => c ≠ 0x20#8) 63 h fun _ => 0#8
  have hend := command_at_end h
  have hzeros : StringFrom (fun _ : Nat => 0#8) 0 [] := stringFrom_nil.mpr rfl
  have hword : line.takeWhile (fun c => c ≠ 0x20#8) = firstWord line := rfl
  rw [hword, Nat.zero_add] at hloop
  rw [hword] at hcmd
  unfold splitCommand
  rw [hloop]
  dsimp only
  by_cases hspace : command ((firstWord line).take 63).length = 0x20#8
  · obtain ⟨hfit, hne⟩ := hend.mp hspace
    obtain ⟨d, rest, hdrop⟩ := List.exists_cons_of_ne_nil hne
    have htail : StringFrom command ((firstWord line).length + 1) rest := by
      rw [← firstWord_append_dropWhile line] at h
      have htail := h.drop
      rw [hdrop, Nat.zero_add] at htail
      exact (stringFrom_cons.mp htail).2.2
    have hrest : restOfLine line = rest := congrArg List.tail hdrop
    rw [List.take_of_length_le hfit] at hcmd hspace ⊢
    obtain ⟨args, hcopy, hargs⟩ := copyLoop_string (fun _ => true) 191 htail fun _ => 0#8
    have hall : rest.takeWhile (fun _ => true) = rest := List.takeWhile_eq_self_iff.mpr fun _ _ => rfl
    rw [hall] at hcopy hargs
    rw [if_pos hspace, if_pos hfit, hcopy, hrest]
    exact ⟨hcmd, hargs⟩
  · have hrest : (if (firstWord line).length ≤ 63 then (restOfLine line).take 191 else []) = [] := by
      split
      · next hfit =>
        have hnil : line.dropWhile (fun c => c ≠ 0x20#8) = [] := by
          by_contra hne
          exact hspace (hend.mpr ⟨hfit, hne⟩)
        rw [restOfLine, hnil]
        rfl
      · rfl
    rw [if_neg hspace, hrest]
    exact ⟨hcmd, hzeros⟩

end Split

/-! ## The commands -/

section Commands
variable {cmd : Nat → Byte} {v : List Byte}

theorem printString_array {buffer : Nat → Byte} {text : List Byte} {n : Nat}
    (h : StringFrom buffer 0 text) (hlength : text.length < n) (s : Console) :
    printString ((List.range n).map buffer) s = printChars text s := by
  have htext : ((List.range n).map buffer).takeWhile (fun c => c ≠ 0#8) = text := by
    refine takeWhile_terminated hlength h.noNul (fun i hi => ?_) ?_
    · rw [← h.chars i hi, Nat.zero_add]
    · rw [← h.stop, Nat.zero_add]
  rw [printString, htext]

theorem commandNames_strings : ∀ name ∈ commandNames, 0#8 ∉ name ∧ name.length < 64 := by decide

theorem isCommand_iff (h : StringFrom cmd 0 v) {name : List Byte} (hname : name ∈ commandNames) :
    isCommand cmd name = true ↔ v = name := by
  obtain ⟨hnul, hlength⟩ := commandNames_strings name hname
  obtain ⟨d, hloop, hd⟩ := strcmpLoop_spec 64 0 h (stringFrom_getD hnul) hlength
  rw [isCommand, hloop, decide_eq_true_iff, Option.some_inj]
  exact hd

/-- A word that is a command is not another one. -/
theorem isCommand_other (h : StringFrom cmd 0 v) {name : List Byte} (hname : name ∈ commandNames)
    (hne : v ≠ name) : ¬ isCommand cmd name = true :=
  fun hyes => hne ((isCommand_iff h hname).mp hyes)

theorem shellEcho_prints {text : Nat → Byte} (h : StringFrom text 0 v) (hlength : v.length < 192)
    (s : Console) :
    shellEcho text s = printChars v s >>= fun s => printChar 0x0A#8 s := by
  rw [shellEcho]
  split
  · rw [printString_array h hlength]
  · next hzero =>
    have hempty : v = [] := h.unique (stringFrom_nil.mpr (not_not.mp hzero))
    rw [hempty]
    rfl

end Commands

/-! ## The property -/

/-- For every line, `cmd` holds the first 63 characters of the first word, and when the word
fits, `args` holds the first 191 characters of the text after its space. That is what `echo`
prints, and what is reported for an unknown command. -/
theorem shellExecute_splits (commands : ShellCommands) {command : Nat → Byte} {line : List Byte}
    (h : StringFrom command 0 line) :
    StringFrom (splitCommand command).1 0 ((firstWord line).take 63) ∧
      StringFrom (splitCommand command).2 0
        (if (firstWord line).length ≤ 63 then (restOfLine line).take 191 else []) ∧
      (firstWord line = literal "echo" → ∀ s, shellExecute commands command s =
        printChars ((restOfLine line).take 191) s >>= fun s => printChar 0x0A#8 s) ∧
      (line ≠ [] → (firstWord line).take 63 ∉ commandNames → ∀ s,
        shellExecute commands command s = do
          let s ← printString (literal "Unknown command: ") s
          let s ← printChars ((firstWord line).take 63) s
          printString (literal "\n") s) := by
  obtain ⟨hcmd, hargs⟩ := splitCommand_spec h
  have hempty : command 0 = 0#8 ↔ line = [] :=
    ⟨fun hzero => h.unique (stringFrom_nil.mpr hzero), fun hnil => stringFrom_nil.mp (hnil ▸ h)⟩
  refine ⟨hcmd, hargs, fun hecho s => ?_, fun hne hunknown s => ?_⟩
  · have hline : line ≠ [] := by
      rintro rfl
      exact absurd hecho (by decide)
    rw [hecho] at hcmd hargs
    have hother : ∀ name ∈ commandNames, literal "echo" ≠ name →
        ¬ isCommand (splitCommand command).1 name = true :=
      fun name hname hne => isCommand_other hcmd hname hne
    have hyes : isCommand (splitCommand command).1 (literal "echo") = true :=
      (isCommand_iff hcmd (by decide)).mpr rfl
    rw [shellExecute, if_neg (mt hempty.mp hline)]
    dsimp only
    rw [if_neg (hother _ (by decide) (by decide)), if_neg (hother _ (by decide) (by decide)),
      if_neg (hother _ (by decide) (by decide)), if_neg (hother _ (by decide) (by decide)),
      if_neg (hother _ (by decide) (by decide)), if_neg (hother _ (by decide) (by decide)),
      if_neg (hother _ (by decide) (by decide)), if_neg (hother _ (by decide) (by decide)),
      if_pos hyes]
    exact shellEcho_prints hargs (Nat.lt_succ_of_le (List.length_take_le _ _)) s
  · have hother : ∀ name ∈ commandNames, ¬ isCommand (splitCommand command).1 name = true :=
      fun name hname => isCommand_other hcmd hname fun heq => hunknown (heq ▸ hname)
    have hword := printString_array hcmd (Nat.lt_succ_of_le (List.length_take_le 63 _))
    simp only [commandNames, List.forall_mem_cons] at hother
    rw [shellExecute, if_neg (mt hempty.mp hne)]
    simp only [hother, hword, Bool.false_eq_true, if_false]

/-- `echo` with an argument. -/
theorem shellExecute_splits_echo :
    StringFrom (splitCommand fun i => (literal "echo a b").getD i 0#8).2 0 (literal "a b") :=
  (shellExecute_splits ⟨pure, pure, pure, pure, pure, fun _ => pure, pure, pure⟩
    (stringFrom_getD (by decide : 0#8 ∉ literal "echo a b"))).2.1

/-- Two lines that can be typed. The word of the first one does not fit in `cmd`, and the
argument of the second one does not fit in `args`. -/
theorem text_cut :
    let word := List.replicate 64 0x78#8
    let line := literal "echo " ++ List.replicate 192 0x78#8
    (editedLine word = word ∧
        ¬ StringFrom (splitCommand fun i => word.getD i 0#8).1 0 (firstWord word)) ∧
      editedLine line = line ∧
        ¬ StringFrom (splitCommand fun i => line.getD i 0#8).2 0 (restOfLine line) := by
  intro word line
  refine ⟨⟨by decide +kernel, fun h => ?_⟩, by decide +kernel, fun h => ?_⟩
  · have hcut := (splitCommand_spec (stringFrom_getD (by decide +kernel : 0#8 ∉ word))).1
    exact absurd (hcut.unique h) (by decide +kernel)
  · have hcut := (splitCommand_spec (stringFrom_getD (by decide +kernel : 0#8 ∉ line))).2
    exact absurd (hcut.unique h) (by decide +kernel)

end Zenix
