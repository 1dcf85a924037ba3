import Zenix.Drivers.KeyState
import Zenix.Shell.LineEditor

/-!
# From the keys to the commands (kernel/drivers/keyboard/keyboard.c, kernel/shell/shell.c)

`shell_run` calls `keyboard_getchar` and edits its line with what it returns, and the
keyboard interrupt comes between any two accesses to the ring. No interrupt touches the
line, so what `shell_run` does with one character is one step.

Results:
1. `accessesLeft_step`: the accesses that empty the ring when no key is pressed.
2. `accepted_run`: the characters that enter the ring are the text that is typed, without
   those that find the ring full.
3. `typing_commands`: the commands that are executed are the lines of that text.
-/

namespace Zenix
open ByteMemory Logged

/-! ## The text -/

/-- The character of a scancode after the others, or zero. -/
def typedChar (scancodes : List Byte) (c : Byte) : Byte :=
  if IsShiftMake c ∨ IsShiftBreak c ∨ c = 0x3A#8 ∨ c &&& 0x80#8 ≠ 0#8 then 0#8
  else if (∃ d ∈ lastShift scancodes, IsShiftMake d) ∨ (keyStateOf scancodes).caps = true then
    shiftedChar c
  else plainChar c

/-- The text of the scancodes that come after others. -/
def typedAfter (before : List Byte) : List Byte → List Byte
  | [] => []
  | c :: scancodes =>
      if typedChar before c = 0#8 then typedAfter (before ++ [c]) scancodes
      else typedChar before c :: typedAfter (before ++ [c]) scancodes

def typedText (scancodes : List Byte) : List Byte := typedAfter [] scancodes

/-- The lines of the text that end in a line feed, each as it was edited. -/
def typedLines (text : List Byte) : List (List Byte) :=
  (text.splitOn 0x0A#8).dropLast.map editedLine

/-! ## The shell and the keyboard -/

/-- `shell_run` on the keyboard. `shell` is the line, with all that has been logged. -/
structure Typing where
  keys : KeyboardRun
  shell : Logged LineEvent LineBuffer

/-- What the access makes `keyboard_getchar` return, if it is the last one. -/
def getcharReturns (s : KeyboardRun) : Option Byte :=
  match s.reader with
  | .readTail head => if head = s.kb.bufferTail then some 0#8 else none
  | .done c => some c
  | _ => none

/-- One access of `keyboard_getchar`, and after the last one the rest of the loop in
`shell_run`. -/
def shellAccess (t : Typing) : Typing where
  keys := getcharStep t.keys
  shell := match getcharReturns t.keys with
    | some c => t.shell >>= shellRunKey c
    | none => t.shell

inductive TypingStep : Typing → KeyboardOp → Typing → Prop
  | interrupt {t : Typing} {keys : KeyboardRun} (scancode : Byte) :
      KeyboardStep t.keys (.interrupt scancode) keys →
      TypingStep t (.interrupt scancode) { t with keys := keys }
  | getchar {t : Typing} : TypingStep t .getchar (shellAccess t)

/-- `keyboard_init` and `shell_init`, and then `shell_run` among interrupts. -/
def typingSystem : TransitionSystem Typing KeyboardOp where
  init := fun t => keyboardSystem.init t.keys ∧ ∃ b, t.shell = shellInitBuffer b
  step := TypingStep

/-- An interrupt finds room in the ring. -/
def RingRoom (t : Typing) (op : KeyboardOp) : Prop :=
  ∀ scancode, op = .interrupt scancode → ¬ RingFull t.keys.kb

/-- The keyboard of a run. -/
theorem typing_keys {t u : Typing} {ops : List KeyboardOp} (hrun : typingSystem.Run t ops u) :
    keyboardSystem.Run t.keys ops u.keys := by
  induction hrun with
  | nil => exact .nil
  | cons hst _ ih =>
    cases hst with
    | interrupt scancode hkeys => exact .cons hkeys ih
    | getchar => exact .cons .getchar ih

/-! ## The ring runs empty -/

/-- The accesses until the ring is empty and `keyboard_getchar` about to be called, with
`n` characters unread. A character takes seven. -/
def accessesLeft (kb : Keyboard) (n : Nat) : GetcharAt → Nat
  | .readHead => 7 * n
  -- it has seen an empty ring, and comes back for what has been put into it since
  | .readTail head => if head = kb.bufferTail then 7 * n + 1 else 7 * n - 1
  | .readIndex => 7 * n - 2
  | .readBuffer _ => 7 * n - 3
  | .readOld _ => 7 * n - 4
  | .writeTail _ _ => 7 * n - 5
  | .done _ => 7 * n + 1

/-- The reader has found a character in the ring, or is about to. -/
def SeesCharacter (kb : Keyboard) : GetcharAt → Prop
  | .readHead | .done _ => False
  | .readTail head => head ≠ kb.bufferTail
  | _ => True

theorem ReaderAgrees.unread_pos {kb : Keyboard} {xs : List Byte} {reader : GetcharAt}
    (h : ReaderAgrees kb xs reader) (hsees : SeesCharacter kb reader) : 0 < xs.length := by
  cases reader with
  | readTail head => exact List.length_pos_iff.mpr (h hsees)
  | readIndex => exact List.length_pos_iff.mpr h
  | readBuffer index => exact List.length_pos_iff.mpr h.1
  | readOld c => exact List.length_pos_of_mem (List.mem_of_head? h)
  | writeTail c old => exact List.length_pos_of_mem (List.mem_of_head? h.1)
  | _ => exact hsees.elim

/-- The accesses neither put a character into the ring nor lose one. -/
theorem getcharStep_accepted (s : KeyboardRun) : (getcharStep s).accepted = s.accepted := by
  unfold getcharStep
  cases s.reader with
  | readTail head => dsimp only; split <;> rfl
  | _ => rfl

/-- Each access leaves one less. -/
theorem accessesLeft_step {s : KeyboardRun} {xs ys : List Byte} (hs : KeyboardInvariant s xs)
    (ht : KeyboardInvariant (getcharStep s) ys)
    (hleft : accessesLeft s.kb xs.length s.reader ≠ 0) :
    accessesLeft (getcharStep s).kb ys.length (getcharStep s).reader + 1 =
      accessesLeft s.kb xs.length s.reader := by
  have hlength := congrArg List.length
    (ht.accepted.symm.trans ((getcharStep_accepted s).trans hs.accepted))
  simp only [List.length_append] at hlength
  have hpos := hs.reader.unread_pos
  obtain ⟨kb, reader, accepted, returned⟩ := s
  cases reader with
  | readHead =>
    have hhead : kb.bufferHead ≠ kb.bufferTail := fun heq =>
      hleft (by rw [hs.unread.empty_iff.mp heq]; rfl)
    have hnext : accessesLeft kb ys.length (.readTail kb.bufferHead) = 7 * ys.length - 1 :=
      if_neg hhead
    simp only [getcharStep, accessesLeft, leaving] at hleft hlength
    show accessesLeft kb ys.length (.readTail kb.bufferHead) + 1 = 7 * xs.length
    omega
  | readTail head =>
    cases Decidable.em (head = kb.bufferTail) with
    | inl hempty =>
      simp only [getcharStep, accessesLeft, leaving, if_pos hempty] at hlength ⊢
      omega
    | inr hsome =>
      have hlt : 0 < xs.length := hpos hsome
      simp only [getcharStep, accessesLeft, leaving, if_neg hsome] at hlength ⊢
      omega
  | writeTail c old =>
    -- `buffer_tail` passes the character, which has yet to be returned
    simp only [getcharStep, accessesLeft, leaving, List.length_singleton, List.length_nil]
      at hlength ⊢
    omega
  | done c =>
    have hc : c ≠ 0#8 := hs.reader
    simp only [getcharStep, accessesLeft, leaving, if_pos hc, List.length_append,
      List.length_singleton, List.length_nil] at hlength ⊢
    omega
  | _ =>
    have hlt : 0 < xs.length := hpos trivial
    simp only [getcharStep, accessesLeft, leaving] at hlength ⊢
    omega

/-- With no access left everything accepted has been returned. -/
theorem accessesLeft_zero {s : KeyboardRun} {xs : List Byte} (hs : KeyboardInvariant s xs)
    (hleft : accessesLeft s.kb xs.length s.reader = 0) : s.returned = s.accepted := by
  have hpos := hs.reader.unread_pos
  have haccepted := hs.accepted
  obtain ⟨kb, reader, accepted, returned⟩ := s
  cases reader with
  | readHead =>
    have hnil : xs = [] := by
      rw [← List.length_eq_zero_iff]
      simpa [accessesLeft] using hleft
    simpa [hnil, leaving] using haccepted.symm
  | readTail head =>
    cases Decidable.em (head = kb.bufferTail) with
    | inl hempty => simp [accessesLeft, hempty] at hleft
    | inr hsome =>
      have hlt : 0 < xs.length := hpos hsome
      simp only [accessesLeft, if_neg hsome] at hleft
      omega
  | done c => cases hleft
  | _ =>
    have hlt : 0 < xs.length := hpos trivial
    simp only [accessesLeft] at hleft
    omega

theorem accessesLeft_le (kb : Keyboard) (n : Nat) (reader : GetcharAt) :
    accessesLeft kb n reader ≤ 7 * n + 1 := by
  cases reader with
  | readTail head =>
    rw [accessesLeft]
    split
    · exact Nat.le_refl _
    · omega
  | readHead => exact Nat.le_succ _
  | done c => exact Nat.le_refl _
  | _ => exact Nat.le_succ_of_le (Nat.sub_le _ _)

/-- Without a key the shell reads all that is in the ring. -/
theorem typing_drains {t : Typing} {xs : List Byte} (hs : KeyboardInvariant t.keys xs) :
    ∃ u, typingSystem.Run t
        (List.replicate (accessesLeft t.keys.kb xs.length t.keys.reader) .getchar) u ∧
      u.keys.returned = t.keys.accepted := by
  generalize hn : accessesLeft t.keys.kb xs.length t.keys.reader = n
  induction n generalizing t xs with
  | zero => exact ⟨t, .nil, accessesLeft_zero hs hn⟩
  | succ n ih =>
    obtain ⟨ys, hstep⟩ := hs.getchar
    have hless := accessesLeft_step hs hstep (by rw [hn]; exact Nat.succ_ne_zero n)
    obtain ⟨u, hrun, hall⟩ := ih (t := shellAccess t) hstep (Nat.succ.inj (hless.trans hn))
    exact ⟨u, .cons .getchar hrun, hall.trans (getcharStep_accepted t.keys)⟩

/-! ## What enters the ring -/

/-- The flags of the driver choose the character. -/
theorem keyChar_typed {s : Keyboard} {scancodes : List Byte} (h : Flags s scancodes) (c : Byte) :
    keyChar c s = typedChar scancodes c := by
  unfold keyChar typedChar
  refine if_congr ?_ rfl (if_congr (or_congr h.shift h.caps) rfl rfl)
  unfold IsShiftMake IsShiftBreak
  tauto

/-- What an interrupt appends to the accepted characters. -/
theorem accepted_interrupt {s : KeyboardRun} {xs scancodes : List Byte}
    (hs : KeyboardInvariant s xs) (h : Flags s.kb scancodes) (c : Byte) :
    (if Accepts c s.kb then s.accepted ++ [keyChar c s.kb] else s.accepted) =
      s.accepted ++ if typedChar scancodes c = 0#8 ∨ RingFull s.kb then [] else
        [typedChar scancodes c] := by
  obtain ⟨hring, _⟩ := keyboardHandler_cases c s.kb
  rw [← keyChar_typed h]
  rcases hring with ⟨_, hhead, hwhy⟩ | ⟨hc, hroom, _, hhead⟩
  · have hno : ¬ Accepts c s.kb := not_not_intro hhead
    have hnothing : keyChar c s.kb = 0#8 ∨ RingFull s.kb := hwhy
    rw [if_neg hno, if_pos hnothing, List.append_nil]
  · have hyes : Accepts c s.kb := by
      obtain ⟨head, _, hh, _⟩ := hs.unread
      rw [Accepts, hhead, hh, next_index, Ne, Int.natCast_inj]
      omega
    have hsome : ¬ (keyChar c s.kb = 0#8 ∨ RingFull s.kb) := not_or.mpr ⟨hc, hroom⟩
    rw [if_pos hyes, if_neg hsome]

theorem typedAfter_cons (before : List Byte) (c : Byte) (scancodes : List Byte) :
    typedAfter before (c :: scancodes) =
      (if typedChar before c = 0#8 then [] else [typedChar before c]) ++
        typedAfter (before ++ [c]) scancodes := by
  rw [typedAfter]
  split
  · rfl
  · rfl

/-- The accepted characters are some of those that are typed, in order. -/
theorem accepted_run {s t : KeyboardRun} {ops : List KeyboardOp} {xs before : List Byte}
    (hrun : keyboardSystem.Run s ops t) (hs : KeyboardInvariant s xs) (h : Flags s.kb before) :
    ∃ text : List Byte, t.accepted = s.accepted ++ text ∧
      text.Sublist (typedAfter before (scancodesOf ops)) := by
  induction hrun generalizing xs before with
  | nil => exact ⟨[], (List.append_nil _).symm, List.nil_sublist _⟩
  | cons hst _ ih =>
    cases hst with
    | interrupt c =>
      obtain ⟨ys, hinv⟩ := hs.interrupt c
      obtain ⟨text, haccepted, hsub⟩ := ih hinv (h.interrupt c)
      refine ⟨_, (haccepted.trans (congrArg (· ++ text) (accepted_interrupt hs h c))).trans
        (List.append_assoc ..), ?_⟩
      show List.Sublist _ (typedAfter before (c :: scancodesOf _))
      rw [typedAfter_cons]
      refine List.Sublist.append ?_ hsub
      split
      · exact List.nil_sublist _
      · next hkept => rw [if_neg fun hc => hkept (Or.inl hc)]
    | getchar =>
      obtain ⟨ys, hinv⟩ := hs.getchar
      obtain ⟨text, haccepted, hsub⟩ :=
        ih hinv (h.congr (getcharStep_flags _).1 (getcharStep_flags _).2)
      rw [getcharStep_accepted] at haccepted
      exact ⟨text, haccepted, hsub⟩

/-- They are all of them when the ring has room for each. -/
theorem accepted_run_room {t u : Typing} {ops : List KeyboardOp} {xs before : List Byte}
    (hrun : (typingSystem.guarded RingRoom).Run t ops u) (hs : KeyboardInvariant t.keys xs)
    (h : Flags t.keys.kb before) :
    u.keys.accepted = t.keys.accepted ++ typedAfter before (scancodesOf ops) := by
  induction hrun generalizing xs before with
  | nil => exact (List.append_nil _).symm
  | cons hst _ ih =>
    obtain ⟨hstep, hroom⟩ := hst
    cases hstep with
    | interrupt c hkeys =>
      cases hkeys with
      | interrupt c =>
        obtain ⟨ys, hinv⟩ := hs.interrupt c
        have haccepted := (ih hinv (h.interrupt c)).trans
          (congrArg (· ++ typedAfter _ _) (accepted_interrupt hs h c))
        show _ = _ ++ typedAfter before (c :: scancodesOf _)
        rw [haccepted, typedAfter_cons, List.append_assoc]
        simp only [hroom c rfl, or_false]
    | getchar =>
      obtain ⟨ys, hinv⟩ := hs.getchar
      have haccepted := ih hinv (h.congr (getcharStep_flags _).1 (getcharStep_flags _).2)
      exact haccepted.trans (congrArg (· ++ typedAfter _ _) (getcharStep_accepted _))

/-! ## What the shell does with it -/

/-- The line and the log are those of the characters returned so far. -/
def ShellFollows (b : LineBuffer) (t : Typing) : Prop :=
  t.shell = shellInitBuffer b >>= fun b =>
    t.keys.returned.foldlM (fun b c => shellRunKey c b) b

theorem shellAccess_follows {b : LineBuffer} {t : Typing} (h : ShellFollows b t) :
    ShellFollows b (shellAccess t) := by
  unfold ShellFollows shellAccess at *
  obtain ⟨⟨kb, reader, accepted, returned⟩, shell⟩ := t
  have hzero : shell >>= shellRunKey 0#8 = shell := bind_pure shell
  cases reader with
  | readTail head =>
    cases Decidable.em (head = kb.bufferTail) with
    | inl hempty =>
      simp only [getcharReturns, getcharStep, if_pos hempty]
      exact hzero.trans h
    | inr hsome =>
      simp only [getcharReturns, getcharStep, if_neg hsome]
      exact h
  | done c =>
    simp only [getcharReturns, getcharStep]
    cases Decidable.em (c = 0#8) with
    | inl hc =>
      rw [hc]
      exact hzero.trans h
    | inr hc =>
      rw [if_pos hc]
      simp only at h
      simp only [List.foldlM_append, List.foldlM_cons, List.foldlM_nil, bind_pure]
      rw [h, bind_assoc]
  | _ => exact h

theorem follows_run {b : LineBuffer} {t u : Typing} {ops : List KeyboardOp}
    (hrun : typingSystem.Run t ops u) (h : ShellFollows b t) : ShellFollows b u := by
  refine hrun.invariant h fun s op t hs hst => ?_
  cases hst with
  | interrupt c hkeys =>
    cases hkeys
    exact hs
  | getchar => exact shellAccess_follows hs

/-- All that is typed, when the first part has been returned: the commands so far, and those
still to come. -/
theorem follows_lines {b : LineBuffer} {t : Typing} (h : ShellFollows b t)
    (rest : List Byte) :
    t.shell.Meets LineEvent.InBuffer (fun b => 0 ≤ b.inputIndex ∧ b.inputIndex ≤ 255) ∧
      ∃ later, List.Forall₂ Terminated (executed t.shell ++ later)
          (typedLines (t.keys.returned ++ rest)) ∧ (rest = [] → later = []) := by
  obtain ⟨hmeets, hnone⟩ := clearInput_holds (b := { b with inputIndex := 0 }) rfl
  have hlines := fun keys => shellRunKeys_lines [] hmeets.2 List.not_mem_nil keys
  unfold ShellFollows at h
  rw [h, executed_bind, shellInitBuffer, hnone, List.nil_append]
  have hall := (hlines (t.keys.returned ++ rest)).2
  rw [List.foldlM_append, executed_bind] at hall
  refine ⟨hmeets.bind fun b' hb' => (shellRunKeys_lines [] hb' List.not_mem_nil _).1, _, hall, ?_⟩
  rintro rfl
  rfl

/-- In every run the commands are the lines of the characters that were accepted, each
terminated, and all of them after at most 1786 accesses without a key. The accepted
characters are some of the text that was typed, in order, and all of it when no interrupt
has found the ring full. Every write is inside `input_buffer`. -/
theorem typing_commands {t₀ t : Typing} {ops : List KeyboardOp} (hinit : typingSystem.init t₀)
    (hrun : typingSystem.Run t₀ ops t) :
    t.shell.Meets LineEvent.InBuffer (fun b => 0 ≤ b.inputIndex ∧ b.inputIndex ≤ 255) ∧
      t.keys.accepted.Sublist (typedText (scancodesOf ops)) ∧
      ((typingSystem.guarded RingRoom).Run t₀ ops t →
        t.keys.accepted = typedText (scancodesOf ops)) ∧
      (∃ later, List.Forall₂ Terminated (executed t.shell ++ later)
        (typedLines t.keys.accepted)) ∧
      ∃ n ≤ 7 * 255 + 1, ∃ u, typingSystem.Run t (List.replicate n .getchar) u ∧
        List.Forall₂ Terminated (executed u.shell) (typedLines t.keys.accepted) := by
  obtain ⟨hkeys, b, hshell⟩ := hinit
  obtain ⟨xs, hs⟩ := keyboard_invariant ((TransitionSystem.Reachable.init hkeys).run
    (typing_keys hrun))
  obtain ⟨kb, hstart⟩ := hkeys
  have hempty : KeyboardInvariant t₀.keys [] := by
    rw [hstart]
    exact ⟨⟨0, 0, rfl, rfl, RingQueue.Holds.nil (by decide)⟩, trivial, rfl,
      fun c hc => absurd hc List.not_mem_nil⟩
  have hflags : Flags t₀.keys.kb [] := by
    rw [hstart]
    exact ⟨iff_of_false (fun h => h rfl) (fun ⟨c, hc, _⟩ => by cases hc),
      iff_of_false (fun h => h rfl) Bool.false_ne_true⟩
  have hfollows : ShellFollows b t := by
    refine follows_run hrun ?_
    rw [ShellFollows, hstart]
    exact hshell.trans (bind_pure _).symm
  have hnothing : t₀.keys.accepted = [] := by rw [hstart]
  obtain ⟨text, haccepted, hsub⟩ := accepted_run (typing_keys hrun) hempty hflags
  rw [hnothing, List.nil_append] at haccepted
  obtain ⟨hmeets, later, hlines, _⟩ :=
    follows_lines hfollows (leaving t.keys.reader ++ xs)
  rw [← List.append_assoc, ← hs.accepted] at hlines
  obtain ⟨u, hdrain, hall⟩ := typing_drains hs
  obtain ⟨_, later', hlines', hnone⟩ := follows_lines (follows_run hdrain hfollows) []
  rw [hnone rfl, List.append_nil, List.append_nil, hall] at hlines'
  obtain ⟨head, tail, _, _, hring⟩ := hs.unread
  have hroom := hring.room
  refine ⟨hmeets, haccepted ▸ hsub, fun hguarded => ?_, ⟨later, hlines⟩, _, ?_, u, hdrain, hlines'⟩
  · have hexact := accepted_run_room hguarded hempty hflags
    rwa [hnothing] at hexact
  · exact (accessesLeft_le _ _ _).trans (by omega)

/-- `keyboard_init` and `shell_init`, with all that they do not set cleared. -/
def startedTyping : Typing := ⟨startedKeyboard, shellInitBuffer ⟨fun _ => 0#8, 0⟩⟩

/-- The keys A and Enter. -/
theorem typing_commands_enter :
    ∃ t n u, typingSystem.Run startedTyping [.interrupt 0x1E#8, .interrupt 0x1C#8] t ∧
      typingSystem.Run t (List.replicate n .getchar) u ∧
      List.Forall₂ Terminated (executed u.shell) [[0x61#8]] := by
  have hrun : typingSystem.Run startedTyping [.interrupt 0x1E#8, .interrupt 0x1C#8] _ :=
    .cons (.interrupt _ (.interrupt _)) (.cons (.interrupt _ (.interrupt _)) .nil)
  have hroom : (typingSystem.guarded RingRoom).Run startedTyping
      [.interrupt 0x1E#8, .interrupt 0x1C#8] _ :=
    .cons ⟨.interrupt _ (.interrupt _), fun _ _ => by decide⟩
      (.cons ⟨.interrupt _ (.interrupt _), fun _ _ => by decide⟩ .nil)
  have hinit : typingSystem.init startedTyping := ⟨⟨_, rfl⟩, ⟨fun _ => 0#8, 0⟩, rfl⟩
  obtain ⟨_, _, htext, _, n, _, u, hdrain, hlines⟩ := typing_commands hinit hrun
  rw [htext hroom] at hlines
  exact ⟨_, n, u, hrun, hdrain, hlines⟩

end Zenix
