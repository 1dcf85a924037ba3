import Zenix.Lib.Memory
import Zenix.Lib.RingQueue
import Zenix.Lib.Transition

/-!
# The keyboard (kernel/drivers/keyboard/keyboard.c)

The keyboard interrupt decodes a scancode and puts the character into a ring of
256 bytes; `keyboard_getchar` takes characters out. The two share `buffer_head`,
`buffer_tail` and `input_buffer` without a lock. In the runs the interrupt comes
between any two accesses that `keyboard_getchar` makes to them.

Results:
1. `getchar_alone`: without an interrupt the accesses add up to `keyboard_getchar`.
2. `keyboard_queue`: the characters returned are those accepted, in order, and a
   character is dropped only when 255 are unread.
-/

namespace Zenix
open ByteMemory RingQueue

/-- The statics of keyboard.c. -/
structure Keyboard where
  inputBuffer : Int → Byte
  bufferHead : Int
  bufferTail : Int
  shiftPressed : Int
  capsLock : Int

/-- `scancode_to_ascii`; the entries from here to 127 are zero. -/
def scancodeToAscii : List Byte := [
  0x00, 0x1B, 0x31, 0x32, 0x33, 0x34, 0x35, 0x36, 0x37, 0x38, 0x39, 0x30, 0x2D, 0x3D, 0x08,
  0x09, 0x71, 0x77, 0x65, 0x72, 0x74, 0x79, 0x75, 0x69, 0x6F, 0x70, 0x5B, 0x5D, 0x0A,
  0x00, 0x61, 0x73, 0x64, 0x66, 0x67, 0x68, 0x6A, 0x6B, 0x6C, 0x3B, 0x27, 0x60,
  0x00, 0x5C, 0x7A, 0x78, 0x63, 0x76, 0x62, 0x6E, 0x6D, 0x2C, 0x2E, 0x2F, 0x00,
  0x2A, 0x00, 0x20, 0x00, 0x00, 0x00, 0x00, 0x00, 0x00, 0x00, 0x00, 0x00, 0x00, 0x00, 0x00, 0x00,
  0x00, 0x00, 0x00, 0x2D,
  0x00, 0x00, 0x00, 0x2B]

/-- `scancode_to_ascii_shift`; the entries from here to 127 are zero. -/
def scancodeToAsciiShift : List Byte := [
  0x00, 0x1B, 0x21, 0x40, 0x23, 0x24, 0x25, 0x5E, 0x26, 0x2A, 0x28, 0x29, 0x5F, 0x2B, 0x08,
  0x09, 0x51, 0x57, 0x45, 0x52, 0x54, 0x59, 0x55, 0x49, 0x4F, 0x50, 0x7B, 0x7D, 0x0A,
  0x00, 0x41, 0x53, 0x44, 0x46, 0x47, 0x48, 0x4A, 0x4B, 0x4C, 0x3A, 0x22, 0x7E,
  0x00, 0x7C, 0x5A, 0x58, 0x43, 0x56, 0x42, 0x4E, 0x4D, 0x3C, 0x3E, 0x3F, 0x00,
  0x2A, 0x00, 0x20, 0x00, 0x00, 0x00, 0x00, 0x00, 0x00, 0x00, 0x00, 0x00, 0x00, 0x00, 0x00, 0x00,
  0x00, 0x00, 0x00, 0x2D,
  0x00, 0x00, 0x00, 0x2B]

/-! ## The functions -/

/-- The part of `keyboard_handler` from `if (ascii != 0)` on. -/
def storeAscii (ascii : Byte) (s : Keyboard) : Keyboard :=
  if ascii ≠ 0#8 then
    let nextHead := (s.bufferHead + 1).tmod 256
    if nextHead ≠ s.bufferTail then
      { s with
        inputBuffer := fun i => if i = s.bufferHead then ascii else s.inputBuffer i
        bufferHead := nextHead }
    else s
  else s

/-- The lookup of `keyboard_handler`. -/
def lookupAscii (scancode : Byte) (s : Keyboard) : Byte :=
  if s.shiftPressed ≠ 0 ∨ s.capsLock ≠ 0 then scancodeToAsciiShift.getD scancode.toNat 0#8
  else scancodeToAscii.getD scancode.toNat 0#8

/-- `keyboard_handler`; `scancode` is what it reads from the data port. -/
def keyboardHandler (scancode : Byte) (s : Keyboard) : Keyboard :=
  if scancode = 0x2A#8 ∨ scancode = 0x36#8 then { s with shiftPressed := 1 }
  else if scancode = 0xAA#8 ∨ scancode = 0xB6#8 then { s with shiftPressed := 0 }
  else if scancode = 0x3A#8 then { s with capsLock := if s.capsLock = 0 then 1 else 0 }
  else if scancode &&& 0x80#8 ≠ 0#8 then s
  else storeAscii (lookupAscii scancode s) s

def keyboardInit (s : Keyboard) : Keyboard :=
  { s with bufferHead := 0, bufferTail := 0, shiftPressed := 0, capsLock := 0 }

def keyboardGetchar (s : Keyboard) : Byte × Keyboard :=
  if s.bufferHead = s.bufferTail then (0#8, s)
  else
    let c := s.inputBuffer s.bufferTail
    (c, { s with bufferTail := (s.bufferTail + 1).tmod 256 })

/-! ## Runs -/

/-- The next access that `keyboard_getchar` makes, with what it has read. -/
inductive GetcharAt where
  /-- Not called, or about to read `buffer_head`. -/
  | readHead
  /-- About to read `buffer_tail` for the comparison. -/
  | readTail (head : Int)
  /-- About to read `buffer_tail` for the index. -/
  | readIndex
  /-- About to read `input_buffer`. -/
  | readBuffer (index : Int)
  /-- About to read `buffer_tail` for its advance. -/
  | readOld (c : Byte)
  /-- About to write `buffer_tail`. -/
  | writeTail (c : Byte) (old : Int)
  /-- About to return. -/
  | done (c : Byte)

/-- A keyboard with its reader. `accepted` and `returned` record the characters
that the handler has stored and the nonzero ones that `keyboard_getchar` has
returned. -/
structure KeyboardRun where
  kb : Keyboard
  reader : GetcharAt
  accepted : List Byte
  returned : List Byte

/-- One access of `keyboard_getchar`, or its return. -/
def getcharStep (s : KeyboardRun) : KeyboardRun :=
  match s.reader with
  | .readHead => { s with reader := .readTail s.kb.bufferHead }
  | .readTail head =>
      -- it returns 0 when the buffer is empty
      if head = s.kb.bufferTail then { s with reader := .readHead }
      else { s with reader := .readIndex }
  | .readIndex => { s with reader := .readBuffer s.kb.bufferTail }
  | .readBuffer index => { s with reader := .readOld (s.kb.inputBuffer index) }
  | .readOld c => { s with reader := .writeTail c s.kb.bufferTail }
  | .writeTail c old =>
      { s with kb := { s.kb with bufferTail := (old + 1).tmod 256 }, reader := .done c }
  | .done c =>
      { s with reader := .readHead, returned := if c ≠ 0#8 then s.returned ++ [c] else s.returned }

/-- The character that a scancode stands for, or zero. -/
def keyChar (scancode : Byte) (s : Keyboard) : Byte :=
  if scancode = 0x2A#8 ∨ scancode = 0x36#8 ∨ scancode = 0xAA#8 ∨ scancode = 0xB6#8 ∨
      scancode = 0x3A#8 ∨ scancode &&& 0x80#8 ≠ 0#8 then 0#8
  else lookupAscii scancode s

/-- The handler accepts the character of the scancode: it advances `buffer_head`. -/
def Accepts (scancode : Byte) (s : Keyboard) : Prop :=
  (keyboardHandler scancode s).bufferHead ≠ s.bufferHead

instance (scancode : Byte) (s : Keyboard) : Decidable (Accepts scancode s) :=
  inferInstanceAs (Decidable (_ ≠ _))

inductive KeyboardOp where
  | interrupt (scancode : Byte)
  | getchar

inductive KeyboardStep : KeyboardRun → KeyboardOp → KeyboardRun → Prop
  | interrupt {s : KeyboardRun} (scancode : Byte) :
      KeyboardStep s (.interrupt scancode)
        { s with
          kb := keyboardHandler scancode s.kb
          accepted :=
            if Accepts scancode s.kb then s.accepted ++ [keyChar scancode s.kb] else s.accepted }
  | getchar {s : KeyboardRun} : KeyboardStep s .getchar (getcharStep s)

/-- `keyboard_init`, and then interrupts and accesses of `keyboard_getchar` in any
order. -/
def keyboardSystem : TransitionSystem KeyboardRun KeyboardOp where
  init := fun s => ∃ kb, s = ⟨keyboardInit kb, .readHead, [], []⟩
  step := KeyboardStep

/-! ## `keyboard_getchar` without an interrupt -/

/-- `n` accesses in a row. -/
def getcharSteps : Nat → KeyboardRun → KeyboardRun
  | 0, s => s
  | n + 1, s => getcharSteps n (getcharStep s)

/-- Without an interrupt the accesses of one call do what `keyboard_getchar` does. -/
theorem getchar_alone (s : KeyboardRun) (h : s.reader = .readHead) :
    ∃ n, getcharSteps n s =
      { s with
        kb := (keyboardGetchar s.kb).2
        returned :=
          if (keyboardGetchar s.kb).1 ≠ 0#8 then s.returned ++ [(keyboardGetchar s.kb).1]
          else s.returned } := by
  obtain ⟨kb, reader, accepted, returned⟩ := s
  cases h
  cases Decidable.em (kb.bufferHead = kb.bufferTail) with
  | inl hempty =>
    refine ⟨2, ?_⟩
    simp [getcharSteps, getcharStep, keyboardGetchar, hempty]
  | inr hsome =>
    refine ⟨7, ?_⟩
    simp [getcharSteps, getcharStep, keyboardGetchar, hsome]

/-! ## What the handler does -/

theorem storeAscii_cases (ascii : Byte) (s : Keyboard) :
    storeAscii ascii s = s ∧ (ascii = 0#8 ∨ (s.bufferHead + 1).tmod 256 = s.bufferTail) ∨
      ascii ≠ 0#8 ∧ (s.bufferHead + 1).tmod 256 ≠ s.bufferTail ∧
        storeAscii ascii s = { s with
          inputBuffer := fun i => if i = s.bufferHead then ascii else s.inputBuffer i
          bufferHead := (s.bufferHead + 1).tmod 256 } := by
  unfold storeAscii
  split
  · next hascii =>
    dsimp only
    split
    · next hroom => exact Or.inr ⟨hascii, hroom, rfl⟩
    · next hfull => exact Or.inl ⟨rfl, Or.inr (not_not.mp hfull)⟩
  · next hascii => exact Or.inl ⟨rfl, Or.inl (not_not.mp hascii)⟩

/-- The handler leaves the ring alone, because the scancode stands for no character
or the ring is full, or it appends the character. -/
theorem keyboardHandler_cases (scancode : Byte) (s : Keyboard) :
    ((keyboardHandler scancode s).inputBuffer = s.inputBuffer ∧
        (keyboardHandler scancode s).bufferHead = s.bufferHead ∧
        (keyChar scancode s = 0#8 ∨ (s.bufferHead + 1).tmod 256 = s.bufferTail) ∨
      keyChar scancode s ≠ 0#8 ∧ (s.bufferHead + 1).tmod 256 ≠ s.bufferTail ∧
        (keyboardHandler scancode s).inputBuffer =
          (fun i => if i = s.bufferHead then keyChar scancode s else s.inputBuffer i) ∧
        (keyboardHandler scancode s).bufferHead = (s.bufferHead + 1).tmod 256) ∧
      (keyboardHandler scancode s).bufferTail = s.bufferTail := by
  have hnone : scancode = 0x2A#8 ∨ scancode = 0x36#8 ∨ scancode = 0xAA#8 ∨ scancode = 0xB6#8 ∨
      scancode = 0x3A#8 ∨ scancode &&& 0x80#8 ≠ 0#8 → keyChar scancode s = 0#8 := fun h => if_pos h
  unfold keyboardHandler
  -- The modifier and release branches touch neither the buffer nor an index.
  split
  · next h => exact ⟨Or.inl ⟨rfl, rfl, Or.inl (hnone (by tauto))⟩, rfl⟩
  · split
    · next h => exact ⟨Or.inl ⟨rfl, rfl, Or.inl (hnone (by tauto))⟩, rfl⟩
    · split
      · next h => exact ⟨Or.inl ⟨rfl, rfl, Or.inl (hnone (by tauto))⟩, rfl⟩
      · split
        · next h => exact ⟨Or.inl ⟨rfl, rfl, Or.inl (hnone (by tauto))⟩, rfl⟩
        · have hkey : keyChar scancode s = lookupAscii scancode s := if_neg (by tauto)
          rw [hkey]
          rcases storeAscii_cases (lookupAscii scancode s) s with ⟨hsame, hno⟩ | ⟨hc, hroom, hstore⟩
          · rw [hsame]
            exact ⟨Or.inl ⟨rfl, rfl, hno⟩, rfl⟩
          · rw [hstore]
            exact ⟨Or.inr ⟨hc, hroom, rfl, rfl⟩, rfl⟩

/-! ## The invariant -/

/-- The characters in the ring, oldest first. -/
def Unread (s : Keyboard) (xs : List Byte) : Prop :=
  ∃ head tail : Nat, s.bufferHead = head ∧ s.bufferTail = tail ∧
    Holds 256 (fun i => s.inputBuffer i) tail head xs

/-- What `keyboard_getchar` has read agrees with the ring, whatever has been
appended since. -/
def ReaderAgrees (s : Keyboard) (xs : List Byte) : GetcharAt → Prop
  | .readHead => True
  | .readTail head => head ≠ s.bufferTail → xs ≠ []
  | .readIndex => xs ≠ []
  | .readBuffer index => xs ≠ [] ∧ index = s.bufferTail
  | .readOld c => xs.head? = some c
  | .writeTail c old => xs.head? = some c ∧ old = s.bufferTail
  | .done c => c ≠ 0#8

/-- The character that has left the ring and has not been returned yet. -/
def leaving : GetcharAt → List Byte
  | .done c => [c]
  | _ => []

/-- What was accepted has been returned, is being returned or is in the ring. -/
structure KeyboardInvariant (s : KeyboardRun) (xs : List Byte) : Prop where
  unread : Unread s.kb xs
  reader : ReaderAgrees s.kb xs s.reader
  accepted : s.accepted = s.returned ++ leaving s.reader ++ xs
  nonzero : ∀ c ∈ s.accepted, c ≠ 0#8

theorem Unread.congr {s t : Keyboard} {xs : List Byte} (h : Unread s xs)
    (hbuffer : t.inputBuffer = s.inputBuffer) (hhead : t.bufferHead = s.bufferHead)
    (htail : t.bufferTail = s.bufferTail) : Unread t xs := by
  unfold Unread
  rw [hbuffer, hhead, htail]
  exact h

/-- The remainder of C on indices that are not negative. -/
theorem next_index (i : Nat) : ((i : Int) + 1).tmod 256 = ((i + 1) % 256 : Nat) := rfl

theorem Unread.full_iff {s : Keyboard} {xs : List Byte} (h : Unread s xs) :
    (s.bufferHead + 1).tmod 256 = s.bufferTail ↔ xs.length = 255 := by
  obtain ⟨head, tail, hhead, htail, hring⟩ := h
  rw [hhead, htail, next_index, Int.natCast_inj, hring.full_iff]
  omega

theorem Unread.empty_iff {s : Keyboard} {xs : List Byte} (h : Unread s xs) :
    s.bufferHead = s.bufferTail ↔ xs = [] := by
  obtain ⟨head, tail, hhead, htail, hring⟩ := h
  rw [hhead, htail, Int.natCast_inj, hring.empty_iff]

/-- Appending a character. -/
theorem Unread.push {s t : Keyboard} {xs : List Byte} {c : Byte} (h : Unread s xs)
    (hroom : (s.bufferHead + 1).tmod 256 ≠ s.bufferTail)
    (hbuffer : t.inputBuffer = fun i => if i = s.bufferHead then c else s.inputBuffer i)
    (hhead : t.bufferHead = (s.bufferHead + 1).tmod 256)
    (htail : t.bufferTail = s.bufferTail) : Unread t (xs ++ [c]) := by
  have hlen : xs.length + 1 ≠ 256 := by
    rw [Ne, h.full_iff] at hroom
    omega
  obtain ⟨head, tail, hh, ht, hring⟩ := h
  refine ⟨(head + 1) % 256, tail, ?_, htail.trans ht, ?_⟩
  · rw [hhead, hh, next_index]
  · have hcells : (fun i : Nat => t.inputBuffer i) =
        fun i => if i = head then c else s.inputBuffer i := by
      funext i
      rw [hbuffer, hh]
      simp only [Int.natCast_inj]
    rw [hcells]
    exact hring.push hlen

/-- Advancing `buffer_tail`. -/
theorem Unread.pop {s : Keyboard} {xs : List Byte} {c : Byte} (h : Unread s (c :: xs)) :
    Unread { s with bufferTail := (s.bufferTail + 1).tmod 256 } xs := by
  obtain ⟨head, tail, hhead, htail, hring⟩ := h
  refine ⟨head, (tail + 1) % 256, hhead, ?_, hring.pop⟩
  dsimp only
  rw [htail, next_index]

theorem Unread.front {s : Keyboard} {xs : List Byte} {c : Byte} (h : Unread s (c :: xs)) :
    s.inputBuffer s.bufferTail = c := by
  obtain ⟨head, tail, _, htail, hring⟩ := h
  rw [htail]
  exact hring.front

theorem Unread.bounds {s : Keyboard} {xs : List Byte} (h : Unread s xs) :
    (0 ≤ s.bufferHead ∧ s.bufferHead ≤ 255) ∧ 0 ≤ s.bufferTail ∧ s.bufferTail ≤ 255 := by
  obtain ⟨head, tail, hhead, htail, hring⟩ := h
  have hlt := hring.head_lt
  have hlt' := hring.tail_lt
  omega

/-- Characters appended behind the reader's back do not disturb it. -/
theorem ReaderAgrees.append {s t : Keyboard} {xs ys : List Byte} {reader : GetcharAt}
    (h : ReaderAgrees s xs reader) (htail : t.bufferTail = s.bufferTail) :
    ReaderAgrees t (xs ++ ys) reader := by
  have hne : xs ≠ [] → xs ++ ys ≠ [] := fun hx => List.append_ne_nil_of_left_ne_nil hx ys
  have hfront : ∀ c, xs.head? = some c → (xs ++ ys).head? = some c := by
    intro c hc
    rw [List.head?_append, hc]
    rfl
  cases reader with
  | readHead => trivial
  | readTail head =>
    unfold ReaderAgrees at h ⊢
    rw [htail]
    exact fun hhead => hne (h hhead)
  | readIndex => exact hne h
  | readBuffer index => exact ⟨hne h.1, h.2.trans htail.symm⟩
  | readOld c => exact hfront c h
  | writeTail c old => exact ⟨hfront c h.1, h.2.trans htail.symm⟩
  | done c => exact h

/-! ## The steps keep the invariant -/

/-- The interrupt, wherever the reader is. -/
theorem KeyboardInvariant.interrupt {s : KeyboardRun} {xs : List Byte}
    (hs : KeyboardInvariant s xs) (scancode : Byte) :
    ∃ ys, KeyboardInvariant
      { s with
        kb := keyboardHandler scancode s.kb
        accepted :=
          if Accepts scancode s.kb then s.accepted ++ [keyChar scancode s.kb] else s.accepted }
      ys := by
  obtain ⟨hring, htail⟩ := keyboardHandler_cases scancode s.kb
  rcases hring with ⟨hbuffer, hhead, _⟩ | ⟨hc, hroom, hbuffer, hhead⟩
  · have hno : ¬ Accepts scancode s.kb := not_not_intro hhead
    rw [if_neg hno]
    refine ⟨xs, hs.unread.congr hbuffer hhead htail, ?_, hs.accepted, hs.nonzero⟩
    have hreader : ReaderAgrees _ (xs ++ []) s.reader := hs.reader.append htail
    rwa [List.append_nil] at hreader
  · have hyes : Accepts scancode s.kb := by
      unfold Accepts
      rw [hhead]
      intro heq
      obtain ⟨head, _, hh, _⟩ := hs.unread
      rw [hh, next_index, Int.natCast_inj] at heq
      omega
    rw [if_pos hyes]
    refine ⟨xs ++ [keyChar scancode s.kb], hs.unread.push hroom hbuffer hhead htail,
      hs.reader.append htail, ?_, ?_⟩
    · dsimp only
      rw [hs.accepted, List.append_assoc]
    · intro c hmem
      cases List.mem_append.mp hmem with
      | inl hold => exact hs.nonzero c hold
      | inr hnew => exact List.mem_singleton.mp hnew ▸ hc

/-- An access of the reader. -/
theorem KeyboardInvariant.getchar {s : KeyboardRun} {xs : List Byte}
    (hs : KeyboardInvariant s xs) : ∃ ys, KeyboardInvariant (getcharStep s) ys := by
  obtain ⟨kb, reader, accepted, returned⟩ := s
  obtain ⟨hunread, hreader, haccepted, hnonzero⟩ := hs
  dsimp only at hunread hreader haccepted hnonzero
  cases reader with
  | readHead =>
    exact ⟨xs, hunread, fun hne hempty => hne (hunread.empty_iff.mpr hempty), haccepted, hnonzero⟩
  | readTail head =>
    unfold getcharStep
    dsimp only
    split
    · exact ⟨xs, hunread, trivial, haccepted, hnonzero⟩
    · next hne => exact ⟨xs, hunread, hreader hne, haccepted, hnonzero⟩
  | readIndex => exact ⟨xs, hunread, ⟨hreader, rfl⟩, haccepted, hnonzero⟩
  | readBuffer index =>
    obtain ⟨hne, rfl⟩ := hreader
    obtain ⟨c, cs, rfl⟩ := List.exists_cons_of_ne_nil hne
    refine ⟨c :: cs, hunread, ?_, haccepted, hnonzero⟩
    exact congrArg some hunread.front.symm
  | readOld c => exact ⟨xs, hunread, ⟨hreader, rfl⟩, haccepted, hnonzero⟩
  | writeTail c old =>
    obtain ⟨hfront, rfl⟩ := hreader
    obtain ⟨cs, rfl⟩ := List.head?_eq_some_iff.mp hfront
    have hall : accepted = returned ++ [c] ++ cs := by
      rw [haccepted]
      simp [leaving]
    refine ⟨cs, hunread.pop, ?_, hall, hnonzero⟩
    exact hnonzero c (by rw [hall]; simp)
  | done c =>
    have hc : c ≠ 0#8 := hreader
    refine ⟨xs, hunread, trivial, ?_, hnonzero⟩
    simp only [getcharStep, if_pos hc]
    rw [haccepted]
    simp [leaving]

theorem keyboardStep_invariant {s t : KeyboardRun} {op : KeyboardOp} {xs : List Byte}
    (hs : KeyboardInvariant s xs) (hst : KeyboardStep s op t) : ∃ ys, KeyboardInvariant t ys := by
  cases hst with
  | interrupt scancode => exact hs.interrupt scancode
  | getchar => exact hs.getchar

theorem keyboard_invariant {s : KeyboardRun} (h : keyboardSystem.Reachable s) :
    ∃ xs, KeyboardInvariant s xs := by
  refine h.invariant (P := fun s => ∃ xs, KeyboardInvariant s xs) ?_ ?_
  · rintro s ⟨kb, rfl⟩
    exact ⟨[], ⟨0, 0, rfl, rfl, Holds.nil (by decide)⟩, trivial, rfl,
      fun c hc => absurd hc List.not_mem_nil⟩
  · rintro s op t _ ⟨xs, hs⟩ hst
    exact keyboardStep_invariant hs hst

/-! ## The queue -/

/-- The accepted characters past which `buffer_tail` has not been advanced. -/
def unreadCount (s : KeyboardRun) : Nat :=
  s.accepted.length - s.returned.length - (leaving s.reader).length

/-- In every run the characters returned are the first ones accepted, in order, and
an uninterrupted call returns the next one. The handler drops a character exactly
when 255 are unread. Both indices stay in `0..255`. -/
theorem keyboard_queue {s : KeyboardRun} (h : keyboardSystem.Reachable s) :
    s.returned <+: s.accepted ∧
      (s.reader = .readHead →
        (keyboardGetchar s.kb).1 = (s.accepted.drop s.returned.length).headD 0#8) ∧
      (∀ scancode, keyChar scancode s.kb ≠ 0#8 →
        (¬ Accepts scancode s.kb ↔ unreadCount s = 255)) ∧
      (0 ≤ s.kb.bufferHead ∧ s.kb.bufferHead ≤ 255) ∧
      0 ≤ s.kb.bufferTail ∧ s.kb.bufferTail ≤ 255 := by
  obtain ⟨xs, hs⟩ := keyboard_invariant h
  have hcount : unreadCount s = xs.length := by
    unfold unreadCount
    rw [hs.accepted]
    simp only [List.length_append]
    omega
  refine ⟨⟨leaving s.reader ++ xs, ?_⟩, fun hidle => ?_, fun scancode hc => ?_, hs.unread.bounds⟩
  · rw [hs.accepted, List.append_assoc]
  · have hnone : leaving s.reader = [] := by rw [hidle]; rfl
    rw [hs.accepted, hnone, List.append_nil, List.drop_left, keyboardGetchar]
    cases xs with
    | nil => rw [if_pos (hs.unread.empty_iff.mpr rfl)]; rfl
    | cons c cs =>
      rw [if_neg (mt hs.unread.empty_iff.mp (by simp)), List.headD_cons]
      exact hs.unread.front
  · rw [hcount, ← hs.unread.full_iff]
    obtain ⟨hring, _⟩ := keyboardHandler_cases scancode s.kb
    unfold Accepts
    rw [not_not]
    rcases hring with ⟨_, hhead, hzero | hfull⟩ | ⟨_, hroom, _, hhead⟩
    · exact absurd hzero hc
    · exact ⟨fun _ => hfull, fun _ => hhead⟩
    · refine ⟨fun heq => ?_, fun heq => absurd heq hroom⟩
      obtain ⟨head, _, hh, _⟩ := hs.unread
      rw [hhead, hh, next_index, Int.natCast_inj] at heq
      omega

/-- The key A, right after initialisation. -/
theorem keyboard_queue_key :
    (keyboardGetchar (keyboardHandler 0x1E#8 (keyboardInit ⟨fun _ => 0#8, 0, 0, 0, 0⟩))).1 =
      0x61#8 := by
  have hinit : keyboardSystem.Reachable
      ⟨keyboardInit ⟨fun _ => 0#8, 0, 0, 0, 0⟩, .readHead, [], []⟩ := .init ⟨_, rfl⟩
  exact ((keyboard_queue (hinit.step (.interrupt 0x1E#8))).2.1 rfl).trans (by decide)

end Zenix
