import Mathlib.Data.List.Induction
import Mathlib.Data.List.Infix
import Zenix.Drivers.Keyboard

/-!
# Shift and Caps Lock (kernel/drivers/keyboard/keyboard.c)

The handler keeps one flag for the two shift keys: the make code of either sets it and the
break code of either clears it. It takes the shifted character when this flag or that of
Caps Lock is set, for every key.

The keys themselves are followed through the same scancodes: which shift keys are down, and
whether Caps Lock is on.

Results:
1. `Flags.step`, `Flags.run`: what the two flags say about the scancodes so far.
2. `shift_flag_iff`: the flag of the shift keys against the keys that are down.
3. `shift_caps_iff`: when the character that is buffered is the one of the keys.
4. `modifiers_wrong`: three runs in which it is not.
-/

namespace Zenix
open ByteMemory RingQueue

/-! ## The keys -/

/-- The shift keys that are down, and Caps Lock. -/
structure KeyState where
  left : Bool
  right : Bool
  caps : Bool

def KeyState.shift (k : KeyState) : Bool := k.left || k.right

/-- A shift key is down from its make code to its own break code; Caps Lock changes with
each make code. -/
def KeyState.next (k : KeyState) (scancode : Byte) : KeyState :=
  if scancode = 0x2A#8 then { k with left := true }
  else if scancode = 0x36#8 then { k with right := true }
  else if scancode = 0xAA#8 then { k with left := false }
  else if scancode = 0xB6#8 then { k with right := false }
  else if scancode = 0x3A#8 then { k with caps := !k.caps }
  else k

def keyStateOf (scancodes : List Byte) : KeyState :=
  scancodes.foldl KeyState.next ⟨false, false, false⟩

/-- The character of the key, and the one with Shift. -/
def plainChar (scancode : Byte) : Byte := scancodeToAscii.getD scancode.toNat 0#8
def shiftedChar (scancode : Byte) : Byte := scancodeToAsciiShift.getD scancode.toNat 0#8

def IsLetter (scancode : Byte) : Prop := 0x61#8 ≤ plainChar scancode ∧ plainChar scancode ≤ 0x7A#8
def IsPrintable (scancode : Byte) : Prop := 0x20#8 ≤ plainChar scancode ∧ plainChar scancode < 0x7F#8

instance (scancode : Byte) : Decidable (IsLetter scancode) := inferInstanceAs (Decidable (_ ∧ _))
instance (scancode : Byte) : Decidable (IsPrintable scancode) := inferInstanceAs (Decidable (_ ∧ _))

def upperCase (c : Byte) : Byte := c - 0x20#8

/-- The character that the key stands for: a letter is upper-case when either Shift or Caps
Lock is on, any other key has its shifted symbol when Shift is on. -/
def keySymbol (k : KeyState) (scancode : Byte) : Byte :=
  if IsLetter scancode then
    if k.shift != k.caps then upperCase (plainChar scancode) else plainChar scancode
  else if k.shift then shiftedChar scancode else plainChar scancode

/-! ## The property -/

/-- `t` is `s` with `c` behind the unread characters, if there is room. -/
def Buffers (c : Byte) (s t : Keyboard) : Prop :=
  ∀ xs, Unread s xs → Unread t (if xs.length < 255 then xs ++ [c] else xs)

/-- The ring has no room. -/
def RingFull (s : Keyboard) : Prop := (s.bufferHead + 1).tmod 256 = s.bufferTail

instance (s : Keyboard) : Decidable (RingFull s) := inferInstanceAs (Decidable (_ = _))

def IsShiftMake (scancode : Byte) : Prop := scancode = 0x2A#8 ∨ scancode = 0x36#8
def IsShiftBreak (scancode : Byte) : Prop := scancode = 0xAA#8 ∨ scancode = 0xB6#8

instance (scancode : Byte) : Decidable (IsShiftMake scancode) := inferInstanceAs (Decidable (_ ∨ _))
instance (scancode : Byte) : Decidable (IsShiftBreak scancode) := inferInstanceAs (Decidable (_ ∨ _))

/-- The last scancode of a shift key. -/
def lastShift (scancodes : List Byte) : Option Byte :=
  (scancodes.filter fun c => IsShiftMake c ∨ IsShiftBreak c).getLast?

/-- A shift key is down and the other one has been released since. -/
def ShiftForgotten (scancodes : List Byte) : Prop :=
  (keyStateOf scancodes).shift = true ∧ ∃ c ∈ lastShift scancodes, IsShiftBreak c

/-- The key has one symbol only; or Caps Lock is off and no shift key is forgotten; or Caps
Lock is on, and Shift is on exactly if the key is not a letter. -/
def ModifiersRight (scancodes : List Byte) (scancode : Byte) : Prop :=
  shiftedChar scancode = plainChar scancode ∨
    if (keyStateOf scancodes).caps then
      ((keyStateOf scancodes).shift = true ↔ ¬ IsLetter scancode)
    else ¬ ShiftForgotten scancodes

/-! ## The scancodes so far -/

/-- The scancodes of the interrupts of a run. -/
def scancodesOf (ops : List KeyboardOp) : List Byte :=
  ops.filterMap fun op => match op with
    | .interrupt scancode => some scancode
    | .getchar => none

theorem keyStateOf_concat (scancodes : List Byte) (c : Byte) :
    keyStateOf (scancodes ++ [c]) = (keyStateOf scancodes).next c := List.foldl_concat ..

theorem lastShift_concat (scancodes : List Byte) (c : Byte) :
    lastShift (scancodes ++ [c]) =
      if IsShiftMake c ∨ IsShiftBreak c then some c else lastShift scancodes := by
  unfold lastShift
  rw [List.filter_append, List.filter_cons, List.filter_nil]
  split
  · next h => rw [if_pos (of_decide_eq_true h), List.getLast?_concat]
  · next h => rw [if_neg (fun hc => h (decide_eq_true hc)), List.append_nil]

/-- What the flags of the driver say. -/
structure Flags (s : Keyboard) (scancodes : List Byte) : Prop where
  shift : s.shiftPressed ≠ 0 ↔ ∃ c ∈ lastShift scancodes, IsShiftMake c
  caps : s.capsLock ≠ 0 ↔ (keyStateOf scancodes).caps = true

theorem Flags.congr {s t : Keyboard} {scancodes : List Byte} (h : Flags s scancodes)
    (hshift : t.shiftPressed = s.shiftPressed) (hcaps : t.capsLock = s.capsLock) :
    Flags t scancodes :=
  ⟨by rw [hshift]; exact h.shift, by rw [hcaps]; exact h.caps⟩

/-- The reader does not touch the flags. -/
theorem getcharStep_flags (s : KeyboardRun) :
    (getcharStep s).kb.shiftPressed = s.kb.shiftPressed ∧
      (getcharStep s).kb.capsLock = s.kb.capsLock := by
  unfold getcharStep
  cases s.reader with
  | readTail head => exact ⟨by dsimp only; split <;> rfl, by dsimp only; split <;> rfl⟩
  | _ => exact ⟨rfl, rfl⟩

/-- What the handler does to the flags. -/
theorem keyboardHandler_flags (c : Byte) (s : Keyboard) :
    (keyboardHandler c s).shiftPressed =
        (if IsShiftMake c then 1 else if IsShiftBreak c then 0 else s.shiftPressed) ∧
      (keyboardHandler c s).capsLock =
        (if c = 0x3A#8 then if s.capsLock = 0 then 1 else 0 else s.capsLock) := by
  unfold keyboardHandler
  split
  · next hmake =>
    have hcaps : c ≠ 0x3A#8 := by rcases hmake with rfl | rfl <;> decide
    exact ⟨(if_pos hmake).symm, (if_neg hcaps).symm⟩
  · next hmake =>
    split
    · next hbreak =>
      have hcaps : c ≠ 0x3A#8 := by rcases hbreak with rfl | rfl <;> decide
      exact ⟨((if_neg hmake).trans (if_pos hbreak)).symm, (if_neg hcaps).symm⟩
    · next hbreak =>
      have hkept : (if IsShiftMake c then 1 else if IsShiftBreak c then 0 else s.shiftPressed) =
          s.shiftPressed := (if_neg hmake).trans (if_neg hbreak)
      split
      · exact ⟨hkept.symm, rfl⟩
      · split
        · exact ⟨hkept.symm, rfl⟩
        · rcases storeAscii_cases (lookupAscii c s) s with ⟨hsame, _⟩ | ⟨_, _, hstore⟩
          · rw [hsame]
            exact ⟨hkept.symm, rfl⟩
          · rw [hstore]
            exact ⟨hkept.symm, rfl⟩

theorem KeyState.next_caps (k : KeyState) (c : Byte) :
    (k.next c).caps = if c = 0x3A#8 then !k.caps else k.caps := by
  unfold KeyState.next
  rcases Decidable.em (c = 0x3A#8) with rfl | hc
  · rfl
  · rw [if_neg hc, if_neg hc]
    repeat' split
    all_goals rfl

theorem not_make_of_break {c : Byte} (h : IsShiftBreak c) : ¬ IsShiftMake c := by
  rcases h with rfl | rfl <;> decide

theorem Flags.interrupt {s : Keyboard} {scancodes : List Byte} (h : Flags s scancodes) (c : Byte) :
    Flags (keyboardHandler c s) (scancodes ++ [c]) := by
  obtain ⟨hshift, hcaps⟩ := keyboardHandler_flags c s
  constructor
  · rw [hshift, lastShift_concat]
    rcases Decidable.em (IsShiftMake c) with hmake | hmake
    · rw [if_pos hmake, if_pos (Or.inl hmake)]
      exact iff_of_true (by decide) ⟨c, rfl, hmake⟩
    · rw [if_neg hmake]
      rcases Decidable.em (IsShiftBreak c) with hbreak | hbreak
      · rw [if_pos hbreak, if_pos (Or.inr hbreak)]
        refine iff_of_false (by decide) ?_
        rintro ⟨d, hd, hdown⟩
        exact hmake (Option.some.inj hd ▸ hdown)
      · rw [if_neg hbreak, if_neg (not_or.mpr ⟨hmake, hbreak⟩)]
        exact h.shift
  · rw [hcaps, keyStateOf_concat, KeyState.next_caps]
    split
    · have hlock := h.caps
      split
      · next hoff =>
        have hno : (keyStateOf scancodes).caps = false := Bool.eq_false_iff.mpr fun hc => hlock.mpr hc hoff
        rw [hno]
        decide
      · next hon =>
        rw [hlock.mp hon]
        decide
    · exact h.caps

/-- A run: the flags follow the scancodes, wherever the reader is. -/
theorem Flags.run {s t : KeyboardRun} {ops : List KeyboardOp} (hrun : keyboardSystem.Run s ops t)
    {scancodes : List Byte} (h : Flags s.kb scancodes) :
    Flags t.kb (scancodes ++ scancodesOf ops) := by
  induction hrun generalizing scancodes with
  | nil =>
    rw [scancodesOf, List.filterMap_nil, List.append_nil]
    exact h
  | cons hst _ ih =>
    cases hst with
    | interrupt c =>
      have hrest := ih (h.interrupt c)
      rwa [List.append_assoc] at hrest
    | getchar => exact ih (h.congr (getcharStep_flags _).1 (getcharStep_flags _).2)

/-! ## The flag of the shift keys -/

/-- No other key moves a shift key. -/
theorem KeyState.next_shift (k : KeyState) {c : Byte} (h : ¬ (IsShiftMake c ∨ IsShiftBreak c)) :
    (k.next c).shift = k.shift := by
  unfold IsShiftMake IsShiftBreak at h
  simp only [not_or] at h
  unfold KeyState.next
  rw [if_neg h.1.1, if_neg h.1.2, if_neg h.2.1, if_neg h.2.2]
  split
  · rfl
  · rfl

/-- A shift key is down after its make code. -/
theorem shift_of_make {scancodes : List Byte} {c : Byte} (h : c ∈ lastShift scancodes)
    (hmake : IsShiftMake c) : (keyStateOf scancodes).shift = true := by
  induction scancodes using List.reverseRecOn with
  | nil => cases h
  | append_singleton scancodes d ih =>
    rw [lastShift_concat] at h
    rw [keyStateOf_concat]
    split at h
    · obtain rfl := Option.some.inj h
      rcases hmake with rfl | rfl
      · rfl
      · exact Bool.or_true _
    · next hd =>
      have hdown := ih h
      rw [KeyState.next_shift _ hd]
      exact hdown

/-- No shift key is down before the first scancode of one. -/
theorem lastShift_of_shift {scancodes : List Byte} (h : (keyStateOf scancodes).shift = true) :
    ∃ c ∈ lastShift scancodes, IsShiftMake c ∨ IsShiftBreak c := by
  induction scancodes using List.reverseRecOn with
  | nil => cases h
  | append_singleton scancodes d ih =>
    rw [lastShift_concat]
    split
    · next hd => exact ⟨d, rfl, hd⟩
    · next hd =>
      rw [keyStateOf_concat, KeyState.next_shift _ hd] at h
      exact ih h

/-- The flag is set when a shift key is down, unless the other one has been released since. -/
theorem shift_flag_iff {s : Keyboard} {scancodes : List Byte} (h : Flags s scancodes) :
    s.shiftPressed ≠ 0 ↔ (keyStateOf scancodes).shift = true ∧ ¬ ShiftForgotten scancodes := by
  rw [h.shift]
  constructor
  · rintro ⟨c, hc, hmake⟩
    refine ⟨shift_of_make hc hmake, ?_⟩
    rintro ⟨_, d, hd, hbreak⟩
    exact not_make_of_break hbreak (Option.mem_unique hc hd ▸ hmake)
  · rintro ⟨hdown, hkept⟩
    obtain ⟨c, hc, hmake | hbreak⟩ := lastShift_of_shift hdown
    · exact ⟨c, hc, hmake⟩
    · exact absurd ⟨hdown, c, hc, hbreak⟩ hkept

/-! ## The character -/

/-- The shifted character of a letter is the upper-case letter. -/
theorem shiftedChar_letter {scancode : Byte} (h : IsLetter scancode) :
    shiftedChar scancode = upperCase (plainChar scancode) := by
  have hall : ∀ c : Byte, IsLetter c → shiftedChar c = upperCase (plainChar c) := by decide +kernel
  exact hall scancode h

/-- When the key stands for its shifted character. -/
def WantsShifted (k : KeyState) (scancode : Byte) : Prop :=
  if IsLetter scancode then k.shift ≠ k.caps else k.shift = true

instance (k : KeyState) (scancode : Byte) : Decidable (WantsShifted k scancode) := by
  unfold WantsShifted
  infer_instance

theorem keySymbol_eq (k : KeyState) (scancode : Byte) :
    keySymbol k scancode =
      if WantsShifted k scancode then shiftedChar scancode else plainChar scancode := by
  unfold keySymbol WantsShifted
  split
  · next hletter =>
    rw [shiftedChar_letter hletter]
    exact if_congr (by simp) rfl rfl
  · exact if_congr Iff.rfl rfl rfl

theorem flags_agree_iff {s : Keyboard} {scancodes : List Byte} (h : Flags s scancodes)
    (scancode : Byte) :
    lookupAscii scancode s = keySymbol (keyStateOf scancodes) scancode ↔
      ModifiersRight scancodes scancode := by
  have hlookup : lookupAscii scancode s =
      if s.shiftPressed ≠ 0 ∨ s.capsLock ≠ 0 then shiftedChar scancode else plainChar scancode := rfl
  rw [hlookup, keySymbol_eq]
  unfold ModifiersRight
  rcases Decidable.em (shiftedChar scancode = plainChar scancode) with hsame | htwo
  · rw [hsame, ite_self, ite_self]
    exact iff_of_true rfl (Or.inl rfl)
  · rw [or_iff_right htwo]
    have hchoice : (if s.shiftPressed ≠ 0 ∨ s.capsLock ≠ 0 then shiftedChar scancode
          else plainChar scancode) =
        (if WantsShifted (keyStateOf scancodes) scancode then shiftedChar scancode
          else plainChar scancode) ↔
        ((s.shiftPressed ≠ 0 ∨ s.capsLock ≠ 0) ↔ WantsShifted (keyStateOf scancodes) scancode) := by
      split <;> split <;> simp_all [eq_comm]
    rw [hchoice, shift_flag_iff h, h.caps, WantsShifted]
    -- with Caps Lock on the shifted character is taken in any case
    rcases Bool.eq_false_or_eq_true (keyStateOf scancodes).caps with hcaps | hcaps
    · rw [hcaps, if_pos rfl, iff_true_left (Or.inr rfl)]
      split
      · next hletter => simp [hletter]
      · next hletter => simp [hletter]
    · rw [hcaps, if_neg Bool.false_ne_true, or_iff_left Bool.false_ne_true]
      have hshift : (if IsLetter scancode then (keyStateOf scancodes).shift ≠ false
          else (keyStateOf scancodes).shift = true) ↔ (keyStateOf scancodes).shift = true := by
        split
        · exact Bool.ne_false_iff
        · exact Iff.rfl
      rw [hshift]
      constructor
      · exact fun hiff hforgotten => (hiff.mpr hforgotten.1).2 hforgotten
      · exact fun hkept => ⟨And.left, fun hdown => ⟨hdown, hkept⟩⟩

/-! ## The ring -/

/-- The newest character of a ring. -/
theorem Unread.last_inj {s : Keyboard} {xs : List Byte} {c d : Byte} (hc : Unread s (xs ++ [c]))
    (hd : Unread s (xs ++ [d])) : c = d := by
  obtain ⟨head, tail, _, htail, hring⟩ := hc
  obtain ⟨head', tail', _, htail', hring'⟩ := hd
  obtain rfl : tail = tail' := Int.natCast_inj.mp (htail.symm.trans htail')
  exact hring.last.symm.trans hring'.last

/-- A printable key is none that the handler returns for early, and has two characters. -/
theorem keyChar_printable {scancode : Byte} (h : IsPrintable scancode) (s : Keyboard) :
    keyChar scancode s = lookupAscii scancode s ∧ keyChar scancode s ≠ 0#8 := by
  have hall : ∀ c : Byte, IsPrintable c →
      ¬ (c = 0x2A#8 ∨ c = 0x36#8 ∨ c = 0xAA#8 ∨ c = 0xB6#8 ∨ c = 0x3A#8 ∨ c &&& 0x80#8 ≠ 0#8) ∧
        shiftedChar c ≠ 0#8 ∧ plainChar c ≠ 0#8 := by decide +kernel
  obtain ⟨hkey, hshifted, hplain⟩ := hall scancode h
  have heq : keyChar scancode s = lookupAscii scancode s := if_neg hkey
  refine ⟨heq, ?_⟩
  rw [heq]
  unfold lookupAscii
  split
  · exact hshifted
  · exact hplain

/-- What a printable key puts into the ring. -/
theorem buffers_iff {s : Keyboard} {xs : List Byte} (hs : Unread s xs) {scancode : Byte}
    (hkey : IsPrintable scancode) (c : Byte) :
    Buffers c s (keyboardHandler scancode s) ↔ RingFull s ∨ lookupAscii scancode s = c := by
  obtain ⟨hchar, hnonzero⟩ := keyChar_printable hkey s
  obtain ⟨hring, htail⟩ := keyboardHandler_cases scancode s
  rw [hchar] at hring hnonzero
  rcases hring with ⟨hbuffer, hhead, hwhy⟩ | ⟨_, hroom, hbuffer, hhead⟩
  · have hfull : RingFull s := hwhy.resolve_left hnonzero
    refine iff_of_true (fun ys hys => ?_) (Or.inl hfull)
    have hlen := hys.full_iff.mp hfull
    rw [if_neg (by omega)]
    exact hys.congr hbuffer hhead htail
  · have hpush : ∀ {ys}, Unread s ys → ys.length < 255 ∧
        Unread (keyboardHandler scancode s) (ys ++ [lookupAscii scancode s]) := by
      intro ys hys
      obtain ⟨head, tail, _, _, hholds⟩ := id hys
      have hlt := hholds.room
      have hne : ys.length ≠ 255 := fun hlen => hroom (hys.full_iff.mpr hlen)
      exact ⟨by omega, hys.push hroom hbuffer hhead htail⟩
    rw [or_iff_right (show ¬ RingFull s from hroom)]
    constructor
    · intro hbuffers
      obtain ⟨hlt, hnew⟩ := hpush hs
      have hwant := hbuffers xs hs
      rw [if_pos hlt] at hwant
      exact hnew.last_inj hwant
    · rintro rfl ys hys
      obtain ⟨hlt, hnew⟩ := hpush hys
      rw [if_pos hlt]
      exact hnew

/-! ## The property in runs -/

/-- In every run of the keyboard a printable key buffers the character of the keys that are
down exactly when the ring is full (and nothing is buffered) or the flags are right for it. -/
theorem shift_caps_iff {s₀ s : KeyboardRun} {ops : List KeyboardOp}
    (hinit : keyboardSystem.init s₀) (hrun : keyboardSystem.Run s₀ ops s) {scancode : Byte}
    (hkey : IsPrintable scancode) :
    Buffers (keySymbol (keyStateOf (scancodesOf ops)) scancode) s.kb (keyboardHandler scancode s.kb) ↔
      RingFull s.kb ∨ ModifiersRight (scancodesOf ops) scancode := by
  obtain ⟨xs, hs⟩ := keyboard_invariant ((TransitionSystem.Reachable.init hinit).run hrun)
  have hflags : Flags s.kb (scancodesOf ops) := by
    obtain ⟨kb, rfl⟩ := hinit
    have hstart : Flags (keyboardInit kb) [] :=
      ⟨iff_of_false (fun h => h rfl) (fun ⟨c, hc, _⟩ => by cases hc),
        iff_of_false (fun h => h rfl) Bool.false_ne_true⟩
    exact Flags.run hrun hstart
  rw [buffers_iff hs.unread hkey, flags_agree_iff hflags]

/-! ## Scancodes in a row -/

/-- The interrupts alone, one after the other. -/
theorem interrupts_run (scancodes : List Byte) (s : KeyboardRun) :
    ∃ t, keyboardSystem.Run s (scancodes.map KeyboardOp.interrupt) t ∧
      t.kb = scancodes.foldl (fun kb c => keyboardHandler c kb) s.kb := by
  induction scancodes generalizing s with
  | nil => exact ⟨s, .nil, rfl⟩
  | cons c scancodes ih =>
    obtain ⟨t, hrun, hkb⟩ := ih _
    exact ⟨t, .cons (.interrupt c) hrun, hkb⟩

/-- After `keyboard_init`, with all that it does not set cleared. -/
def startedKeyboard : KeyboardRun := ⟨keyboardInit ⟨fun _ => 0#8, 0, 0, 0, 0⟩, .readHead, [], []⟩

/-- The left shift key and `a`. -/
theorem shift_caps_iff_shift :
    ∃ s, keyboardSystem.Run startedKeyboard [.interrupt 0x2A#8] s ∧
      Buffers 0x41#8 s.kb (keyboardHandler 0x1E#8 s.kb) := by
  obtain ⟨s, hrun, _⟩ := interrupts_run [0x2A#8] startedKeyboard
  refine ⟨s, hrun, (shift_caps_iff ⟨_, rfl⟩ hrun (by decide)).mpr (Or.inr (Or.inr ?_))⟩
  rintro ⟨_, c, hc, hbreak⟩
  obtain rfl := Option.some.inj hc
  exact absurd hbreak (by decide)

/-- With Caps Lock on, `1` is `!`; with Caps Lock and a shift key on, `a` is `A`; with both
shift keys down and the right one released, `a` is `a`. -/
theorem modifiers_wrong :
    (∃ s, keyboardSystem.Run startedKeyboard [.interrupt 0x3A#8] s ∧
      Buffers 0x21#8 s.kb (keyboardHandler 0x02#8 s.kb) ∧
      ¬ Buffers (keySymbol (keyStateOf [0x3A#8]) 0x02#8) s.kb (keyboardHandler 0x02#8 s.kb)) ∧
    (∃ s, keyboardSystem.Run startedKeyboard [.interrupt 0x3A#8, .interrupt 0x2A#8] s ∧
      Buffers 0x41#8 s.kb (keyboardHandler 0x1E#8 s.kb) ∧
      ¬ Buffers (keySymbol (keyStateOf [0x3A#8, 0x2A#8]) 0x1E#8) s.kb
        (keyboardHandler 0x1E#8 s.kb)) ∧
    ∃ s, keyboardSystem.Run startedKeyboard
        [.interrupt 0x2A#8, .interrupt 0x36#8, .interrupt 0xB6#8] s ∧
      Buffers 0x61#8 s.kb (keyboardHandler 0x1E#8 s.kb) ∧
      ¬ Buffers (keySymbol (keyStateOf [0x2A#8, 0x36#8, 0xB6#8]) 0x1E#8) s.kb
        (keyboardHandler 0x1E#8 s.kb) := by
  have hstart : keyboardSystem.init startedKeyboard := ⟨_, rfl⟩
  have hcase : ∀ (scancodes : List Byte) (scancode c : Byte) (s : KeyboardRun),
      keyboardSystem.Run startedKeyboard (scancodes.map KeyboardOp.interrupt) s →
      IsPrintable scancode → ¬ RingFull s.kb → lookupAscii scancode s.kb = c →
      c ≠ keySymbol (keyStateOf scancodes) scancode →
      Buffers c s.kb (keyboardHandler scancode s.kb) ∧
        ¬ Buffers (keySymbol (keyStateOf scancodes) scancode) s.kb (keyboardHandler scancode s.kb) := by
    rintro scancodes scancode c s hrun hkey hroom rfl hne
    obtain ⟨xs, hs⟩ := keyboard_invariant ((TransitionSystem.Reachable.init hstart).run hrun)
    rw [buffers_iff hs.unread hkey, buffers_iff hs.unread hkey]
    exact ⟨Or.inr rfl, not_or.mpr ⟨hroom, hne⟩⟩
  obtain ⟨s, hs, hkb⟩ := interrupts_run [0x3A#8] startedKeyboard
  obtain ⟨t, ht, hkb'⟩ := interrupts_run [0x3A#8, 0x2A#8] startedKeyboard
  obtain ⟨u, hu, hkb''⟩ := interrupts_run [0x2A#8, 0x36#8, 0xB6#8] startedKeyboard
  have hcaps := hcase [0x3A#8] 0x02#8 0x21#8 s hs (by decide) (by rw [hkb]; decide)
    (by rw [hkb]; decide) (by decide)
  have hboth := hcase [0x3A#8, 0x2A#8] 0x1E#8 0x41#8 t ht (by decide) (by rw [hkb']; decide)
    (by rw [hkb']; decide) (by decide)
  have htwo := hcase [0x2A#8, 0x36#8, 0xB6#8] 0x1E#8 0x61#8 u hu (by decide) (by rw [hkb'']; decide)
    (by rw [hkb'']; decide) (by decide)
  exact ⟨⟨s, hs, hcaps⟩, ⟨t, ht, hboth⟩, u, hu, htwo⟩

end Zenix
