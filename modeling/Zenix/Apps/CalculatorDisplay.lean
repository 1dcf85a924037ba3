import Mathlib.Data.Nat.Digits.Lemmas
import Zenix.Apps.Calculator
import Zenix.Core.Monitor
import Zenix.Libc

/-!
# What the calculator displays (kernel/apps/calculator/calculator_app.c)

The fields `display` to `new_number` of `calculator_t`, and what the buttons do to them. The
functions log the index of every write to `display`. The arithmetic on doubles is a
parameter, which may differ from one press of a button to the next. Ints are 32-bit words
that wrap, also where `simple_ftoa` negates the least of them.

Results:
1. `handleLabel_holds`: what a button leaves in the display.
2. `calculator_display_safe`: in every run the writes stay in the display, which holds a
   string of 1 to 31 characters, and an entry has at most 15 of them and one decimal point.
3. `updateCalculatorApp_holds`: the mouse does nothing else to the display.
-/

namespace Zenix
open ByteMemory Logged

/-- The arithmetic on doubles: the conversions from and to `int`, the operations, `>` and
`!=`. -/
structure DoubleOps (F : Type) where
  ofInt : Word → F
  toInt : F → Word
  neg : F → F
  add : F → F → F
  sub : F → F → F
  mul : F → F → F
  div : F → F → F
  gt : F → F → Bool
  ne : F → F → Bool

/-- The fields from `display` on. -/
structure CalculatorEntry (F : Type) where
  display : Nat → Byte
  displayLen : Nat
  value : F
  storedValue : F
  operation : Byte
  newNumber : Bool

/-- `label[0]` of the buttons. -/
def buttonLabels : List Byte := literal "789/456*123-0.+C="

variable {F : Type}

/-! ## Conversions -/

/-- The local variables of `simple_atof`. -/
structure AtofState (F : Type) where
  result : F
  fraction : F
  divisor : Word
  inFraction : Bool

/-- `'0' <= *str && *str <= '9'`. -/
def isDigit (ch : Byte) : Bool := 0x30#8 ≤ ch && ch ≤ 0x39#8

/-- A round of the loop of `simple_atof`. -/
def atofStep (ops : DoubleOps F) (st : AtofState F) (ch : Byte) : AtofState F :=
  let digit := ops.ofInt ((ch - 0x30#8).setWidth 32)
  if isDigit ch then
    if st.inFraction then
      { st with
        divisor := st.divisor * 10#32
        fraction := ops.add (ops.mul st.fraction (ops.ofInt 10#32)) digit }
    else { st with result := ops.add (ops.mul st.result (ops.ofInt 10#32)) digit }
  else if ch = 0x2E#8 then { st with inFraction := true }
  else st

/-- `simple_atof` behind the sign. -/
def atofUnsigned (ops : DoubleOps F) (str : List Byte) : F :=
  let st := str.foldl (atofStep ops) ⟨ops.ofInt 0#32, ops.ofInt 0#32, 1#32, false⟩
  ops.add st.result (ops.div st.fraction (ops.ofInt st.divisor))

def simpleAtof (ops : DoubleOps F) (str : List Byte) : F :=
  if str.head? = some 0x2D#8 then ops.neg (atofUnsigned ops str.tail) else atofUnsigned ops str

/-- The last loop of `simple_ftoa`. -/
def ftoaFraction (ops : DoubleOps F) : Nat → F → List Byte
  | 0, _ => []
  | precision + 1, fracPart =>
    let fracPart := ops.mul fracPart (ops.ofInt 10#32)
    let digit := ops.toInt fracPart
    (0x30#32 + digit).setWidth 8 :: ftoaFraction ops precision (ops.sub fracPart (ops.ofInt digit))

/-- `simple_ftoa` behind the sign, without the terminator. -/
def ftoaUnsigned (ops : DoubleOps F) (intPart : Word) (fracPart : F) (precision : Nat) :
    List Byte :=
  (if intPart = 0#32 then [0x30#8] else (decDigits intPart.toInt.toNat).reverse) ++
    if 0 < precision ∧ ops.gt fracPart (ops.ofInt 0#32) then
      0x2E#8 :: ftoaFraction ops precision fracPart
    else []

/-- The bytes that `simple_ftoa` writes, in order. -/
def simpleFtoa (ops : DoubleOps F) (value : F) (precision : Nat) : List Byte :=
  let intPart := ops.toInt value
  let fracPart := ops.sub value (ops.ofInt intPart)
  (if intPart.slt 0#32 then 0x2D#8 :: ftoaUnsigned ops (-intPart) (ops.neg fracPart) precision
    else ftoaUnsigned ops intPart fracPart precision) ++ [0#8]

/-! ## The buttons -/

/-- The string that starts at `display`. -/
def CalculatorEntry.text (c : CalculatorEntry F) : List Byte := cstring c.display 32

/-- A write to `display`. -/
def storeDisplay (i : Nat) (ch : Byte) (c : CalculatorEntry F) : Logged Nat (CalculatorEntry F) := do
  touch i
  pure { c with display := Function.update c.display i ch }

/-- Writes through a pointer that starts at `display + i`. -/
def storeBytes : Nat → List Byte → CalculatorEntry F → Logged Nat (CalculatorEntry F)
  | _, [], c => pure c
  | i, ch :: bytes, c => do
    let c ← storeDisplay i ch c
    storeBytes (i + 1) bytes c

/-- The fields that `calculator_init` and the button `C` set. -/
def clearEntry (ops : DoubleOps F) (c : CalculatorEntry F) : Logged Nat (CalculatorEntry F) := do
  let c ← storeDisplay 0 0x30#8 c
  let c ← storeDisplay 1 0#8 c
  pure { c with
    displayLen := 1
    value := ops.ofInt 0#32
    storedValue := ops.ofInt 0#32
    operation := 0#8
    newNumber := true }

/-- The `switch` of `calculator_execute`. -/
def applyOperation (ops : DoubleOps F) (operation : Byte) (stored value : F) : F :=
  if operation = 0x2B#8 then ops.add stored value
  else if operation = 0x2D#8 then ops.sub stored value
  else if operation = 0x2A#8 then ops.mul stored value
  else if operation = 0x2F#8 then
    if ops.ne value (ops.ofInt 0#32) then ops.div stored value else stored
  else stored

def calculatorExecute (ops : DoubleOps F) (c : CalculatorEntry F) :
    Logged Nat (CalculatorEntry F) :=
  let c := { c with value := simpleAtof ops c.text }
  if c.operation ≠ 0#8 then do
    let c := { c with storedValue := applyOperation ops c.operation c.storedValue c.value }
    let c ← storeBytes 0 (simpleFtoa ops c.storedValue 2) c
    -- the loop counts the characters before the terminator
    pure { c with displayLen := c.text.length }
  else pure { c with storedValue := c.value }

/-- `calc->display[calc->display_len++] = ch; calc->display[calc->display_len] = '\0';` -/
def appendDisplay (ch : Byte) (c : CalculatorEntry F) : Logged Nat (CalculatorEntry F) := do
  let c ← storeDisplay c.displayLen ch c
  let c := { c with displayLen := c.displayLen + 1 }
  storeDisplay c.displayLen 0#8 c

def enterDigit (ch : Byte) (c : CalculatorEntry F) : Logged Nat (CalculatorEntry F) :=
  if c.newNumber then do
    let c ← storeDisplay 0 ch c
    let c ← storeDisplay 1 0#8 c
    pure { c with displayLen := 1, newNumber := false }
  else if c.displayLen < 15 then
    if c.display 0 = 0x30#8 ∧ c.displayLen = 1 then storeDisplay 0 ch c else appendDisplay ch c
  else pure c

def enterDecimal (c : CalculatorEntry F) : Logged Nat (CalculatorEntry F) :=
  if c.newNumber then do
    let c ← storeDisplay 0 0x30#8 c
    let c ← storeDisplay 1 0x2E#8 c
    let c ← storeDisplay 2 0#8 c
    pure { c with displayLen := 2, newNumber := false }
  else
    let hasDecimal := (List.range c.displayLen).any fun i => c.display i = 0x2E#8
    if !hasDecimal && c.displayLen < 15 then appendDisplay 0x2E#8 c else pure c

/-- `calculator_handle_button` for the button with the label. Drawing is left out. -/
def handleLabel (ops : DoubleOps F) (ch : Byte) (c : CalculatorEntry F) :
    Logged Nat (CalculatorEntry F) :=
  if ch = 0x43#8 then clearEntry ops c
  else if isDigit ch then enterDigit ch c
  else if ch = 0x2E#8 then enterDecimal c
  else if ch = 0x3D#8 then do
    let c ← calculatorExecute ops c
    pure { c with operation := 0#8, newNumber := true }
  else do
    let c ← (if c.newNumber then pure c else calculatorExecute ops c)
    pure { c with operation := ch, newNumber := true }

/-- There is no button but those of the table. -/
def calculatorHandleButton (ops : DoubleOps F) (buttonId : Nat) (c : CalculatorEntry F) :
    Logged Nat (CalculatorEntry F) :=
  match buttonLabels[buttonId]? with
  | some ch => handleLabel ops ch c
  | none => pure c

/-- The buttons of the list, each with what the doubles do when it is pressed. -/
def pressButtons (presses : List (DoubleOps F × Nat)) (c : CalculatorEntry F) :
    Logged Nat (CalculatorEntry F) :=
  presses.foldlM (fun c press => calculatorHandleButton press.1 press.2 c) c

/-- The entry as the window of the calculator uses it. -/
def displayKeypad (ops : DoubleOps F) (c : CalculatorEntry F) : Keypad (CalculatorEntry F) where
  init := (clearEntry ops c).value
  handleButton buttonId c := (calculatorHandleButton ops buttonId c).value

/-! ## The digits -/

theorem decDigits_eq (n : Nat) :
    decDigits n = (Nat.digits 10 n).map fun d => BitVec.ofNat 8 (0x30 + d) := by
  induction n using Nat.strong_induction_on with
  | _ n ih =>
    rw [decDigits]
    split
    · next hzero => rw [hzero, Nat.digits_zero, List.map_nil]
    · next hpos =>
      rw [ih (n / 10) (by omega), Nat.digits_def' (by decide) (Nat.pos_of_ne_zero hpos),
        List.map_cons]

theorem decDigits_length_le {n k : Nat} (h : n < 10 ^ k) : (decDigits n).length ≤ k := by
  rw [decDigits_eq, List.length_map]
  exact (Nat.digits_length_le_iff (by decide) n).mpr h

/-- The digits are characters from `'0'` to `'9'`. -/
theorem isDigit_of_mem_decDigits {n : Nat} {ch : Byte} (h : ch ∈ decDigits n) : isDigit ch := by
  rw [decDigits_eq, List.mem_map] at h
  obtain ⟨d, hd, rfl⟩ := h
  have hdigits : ∀ d < 10, isDigit (BitVec.ofNat 8 (0x30 + d)) := by decide
  exact hdigits d (Nat.digits_lt_base (by decide) hd)

theorem isDigit_ne {ch : Byte} (h : isDigit ch) : ch ≠ 0#8 ∧ ch ≠ 0x2E#8 := by
  constructor <;> rintro rfl <;> exact absurd h (by decide)

/-! ## The formatted number -/

section Format
variable (ops : DoubleOps F)

theorem ftoaFraction_length (precision : Nat) (fracPart : F) :
    (ftoaFraction ops precision fracPart).length = precision := by
  induction precision generalizing fracPart with
  | zero => rfl
  | succ precision ih => rw [ftoaFraction, List.length_cons, ih]

/-- At most ten digits, the point and the digits behind it. -/
theorem ftoaUnsigned_length (intPart : Word) (fracPart : F) :
    (ftoaUnsigned ops intPart fracPart 2).length ≤ 13 := by
  have hint : (if intPart = 0#32 then [0x30#8]
      else (decDigits intPart.toInt.toNat).reverse).length ≤ 10 := by
    split
    · exact Nat.le_of_ble_eq_true rfl
    · have hlt := BitVec.toInt_lt (x := intPart)
      rw [List.length_reverse]
      exact decDigits_length_le (by omega)
  have hfrac : (if 0 < 2 ∧ ops.gt fracPart (ops.ofInt 0#32) then
      0x2E#8 :: ftoaFraction ops 2 fracPart else []).length ≤ 3 := by
    split
    · rw [List.length_cons, ftoaFraction_length]
    · exact Nat.zero_le 3
  unfold ftoaUnsigned
  rw [List.length_append]
  exact Nat.add_le_add hint hfrac

/-- A number that is not negative starts with a digit. -/
theorem ftoaUnsigned_head {intPart : Word} (h : ¬ intPart.slt 0#32) (fracPart : F)
    (precision : Nat) :
    ∃ ch rest, isDigit ch ∧ ftoaUnsigned ops intPart fracPart precision = ch :: rest := by
  unfold ftoaUnsigned
  split
  · exact ⟨_, _, rfl, rfl⟩
  · next hne =>
    have hpos : intPart.toInt.toNat ≠ 0 := by
      have hnonneg : 0 ≤ intPart.toInt := by simpa [BitVec.slt] using h
      have hint : intPart.toInt ≠ 0 := fun hzero => hne (BitVec.eq_of_toInt_eq hzero)
      omega
    have hsome : (decDigits intPart.toInt.toNat).reverse ≠ [] := by
      rw [decDigits, if_neg hpos]
      simp
    obtain ⟨ch, rest, hdigits⟩ := List.exists_cons_of_ne_nil hsome
    refine ⟨ch, _, isDigit_of_mem_decDigits (n := intPart.toInt.toNat) ?_, by rw [hdigits]; rfl⟩
    rw [← List.mem_reverse, hdigits]
    exact List.mem_cons_self

/-- At least one character, at most 14, and the terminator. -/
theorem simpleFtoa_shape (value : F) :
    ∃ ch rest, ch ≠ 0#8 ∧ simpleFtoa ops value 2 = ch :: rest ++ [0#8] ∧ rest.length ≤ 13 := by
  unfold simpleFtoa
  dsimp only
  split
  · exact ⟨_, _, by decide, rfl, ftoaUnsigned_length _ _ _⟩
  · next hnonneg =>
    have hlength := ftoaUnsigned_length ops (ops.toInt value)
      (ops.sub value (ops.ofInt (ops.toInt value)))
    obtain ⟨ch, rest, hdigit, hshape⟩ := ftoaUnsigned_head ops hnonneg
      (ops.sub value (ops.ofInt (ops.toInt value))) 2
    rw [hshape, List.length_cons] at hlength
    exact ⟨ch, rest, (isDigit_ne hdigit).1, by rw [hshape], Nat.le_of_succ_le hlength⟩

end Format

/-! ## The display -/

/-- The display holds the string, and `display_len` is its length. -/
structure CalculatorEntry.Shows (c : CalculatorEntry F) (text : List Byte) : Prop where
  string : StringFrom c.display 0 text
  length : c.displayLen = text.length
  pos : 1 ≤ text.length
  le : text.length ≤ 31

/-- What the buttons of the digits and the point may leave. -/
structure IsEntry (text : List Byte) : Prop where
  length_le : text.length ≤ 15
  points_le : text.count 0x2E#8 ≤ 1

/-- What a button of a digit or the point leaves in the display. -/
def CalculatorEntry.Entered (c : CalculatorEntry F) : Prop := ∃ text, c.Shows text ∧ IsEntry text

/-- What holds between two presses of a button. -/
def CalculatorEntry.Holds (c : CalculatorEntry F) : Prop :=
  ∃ text, c.Shows text ∧ (c.newNumber = false → IsEntry text)

theorem CalculatorEntry.Entered.holds {c : CalculatorEntry F} (h : c.Entered) : c.Holds :=
  let ⟨text, hshows, hentry⟩ := h
  ⟨text, hshows, fun _ => hentry⟩

/-- The index is one of the 32 of `display`. -/
def InDisplay (i : Nat) : Prop := i < 32

section Display
variable {c : CalculatorEntry F} {text : List Byte} {ops : DoubleOps F} {ch : Byte}

theorem CalculatorEntry.Shows.text_eq (h : c.Shows text) : c.text = text := by
  refine takeWhile_terminated (Nat.lt_succ_of_le h.le) h.string.noNul (fun i hi => ?_) ?_
  · rw [← h.string.chars i hi, Nat.zero_add]
  · rw [← h.string.stop, Nat.zero_add]

theorem storeDisplay_meets {i : Nat} (hi : i < 32) {Q : CalculatorEntry F → Prop}
    (h : Q { c with display := Function.update c.display i ch }) :
    (storeDisplay i ch c).Meets InDisplay Q :=
  meets_touch hi (meets_pure h)

/-- The writes of `simple_ftoa`. -/
theorem storeBytes_meets (bytes : List Byte) {i : Nat} (hi : i + bytes.length ≤ 32)
    (c : CalculatorEntry F) :
    (storeBytes i bytes c).Meets InDisplay fun c' =>
      (∀ k (h : k < bytes.length), c'.display (i + k) = bytes[k]) ∧
        (∀ j < i, c'.display j = c.display j) ∧ c' = { c with display := c'.display } := by
  induction bytes generalizing i c with
  | nil => exact meets_pure ⟨fun k hk => absurd hk (Nat.not_lt_zero k), fun _ _ => rfl, rfl⟩
  | cons ch bytes ih =>
    rw [List.length_cons] at hi
    refine (storeDisplay_meets (by omega) rfl).bind fun d hd => ?_
    refine (ih (i := i + 1) (by omega) d).mono ?_
    rintro c' ⟨hbytes, hfront, hrest⟩
    subst hd
    refine ⟨fun k hk => ?_, fun j hj => ?_, hrest⟩
    · cases k with
      | zero => exact (hfront i (Nat.lt_succ_self i)).trans (Function.update_self _ _ _)
      | succ k =>
        rw [List.getElem_cons_succ, ← hbytes k (Nat.lt_of_succ_lt_succ hk)]
        exact congrArg c'.display (by omega)
    · exact (hfront j (by omega)).trans (Function.update_of_ne (by omega) _ _)

/-- A string with a terminator in the display. -/
theorem shows_text {k : Nat} (hfirst : c.display 0 ≠ 0#8) (hzero : c.display k = 0#8)
    (hk : k < 32) : ({ c with displayLen := c.text.length } : CalculatorEntry F).Shows c.text := by
  have hlt : ∀ {a}, a < c.text.length ↔ a < 32 ∧ ∀ b, b ≤ a → c.display b ≠ 0#8 :=
    lt_cstring_length
  have hle : c.text.length ≤ k := by
    by_contra hgt
    exact (hlt.mp (Nat.not_le.mp hgt)).2 k (Nat.le_refl k) hzero
  refine ⟨⟨fun a ha => ?_, ?_, cstring_nul _ _⟩, rfl, ?_, by omega⟩
  · rw [Nat.zero_add]
    exact (cstring_getElem ha).symm
  · -- the byte behind the last character is the first zero
    rw [Nat.zero_add]
    by_contra hne
    refine Nat.lt_irrefl c.text.length (hlt.mpr ⟨by omega, fun b hb => ?_⟩)
    rcases Nat.lt_or_eq_of_le hb with hb | rfl
    · exact (hlt.mp hb).2 b (Nat.le_refl b)
    · exact hne
  · refine hlt.mpr ⟨by decide, fun b hb => ?_⟩
    rw [Nat.le_zero.mp hb]
    exact hfirst

/-- `calculator_execute` leaves the display as it is or the result in it. -/
theorem calculatorExecute_shows (h : c.Shows text) :
    (calculatorExecute ops c).Meets InDisplay fun c' => ∃ text, c'.Shows text := by
  unfold calculatorExecute
  dsimp only
  split
  · obtain ⟨ch, rest, hne, hshape, hlength⟩ := simpleFtoa_shape ops
      (applyOperation ops c.operation c.storedValue (simpleAtof ops c.text))
    have hwrites := storeBytes_meets (ch :: rest ++ [0#8]) (i := 0) (by simp; omega)
      { c with
        value := simpleAtof ops c.text
        storedValue := applyOperation ops c.operation c.storedValue (simpleAtof ops c.text) }
    rw [hshape]
    refine hwrites.bind fun c' hc' => meets_pure ⟨c'.text, ?_⟩
    have hfirst := hc'.1 0 (by simp)
    have hlast := hc'.1 (rest.length + 1) (by simp)
    rw [Nat.zero_add] at hfirst hlast
    refine shows_text (k := rest.length + 1) ?_ ?_ (by omega)
    · rw [hfirst]
      exact hne
    · rw [hlast]
      simp
  · exact meets_pure ⟨text, h.string, h.length, h.pos, h.le⟩

/-- The display after an operation is the result as `simple_ftoa` writes it. -/
theorem calculatorExecute_text (hoperation : c.operation ≠ 0#8) :
    (calculatorExecute ops c).value.text =
      (simpleFtoa ops (calculatorExecute ops c).value.storedValue 2).takeWhile
        fun ch => ch ≠ 0#8 := by
  obtain ⟨ch, rest, _, hshape, hlength⟩ := simpleFtoa_shape ops
    (applyOperation ops c.operation c.storedValue (simpleAtof ops c.text))
  have hwrites := (storeBytes_meets
    (simpleFtoa ops (applyOperation ops c.operation c.storedValue (simpleAtof ops c.text)) 2)
    (i := 0) (by simp [hshape]; omega)
    { c with
      value := simpleAtof ops c.text
      storedValue := applyOperation ops c.operation c.storedValue (simpleAtof ops c.text) }).2
  unfold calculatorExecute
  dsimp only
  rw [if_pos hoperation]
  obtain ⟨hbytes, _, hrest⟩ := hwrites
  simp only [value_bind, value_pure]
  rw [congrArg CalculatorEntry.storedValue hrest]
  refine cstring_eq_takeWhile (fun k hk => ?_) (by simp [hshape]) (by simp [hshape]; omega)
  rw [← hbytes k hk, Nat.zero_add]

theorem StringFrom.concat {buffer : Nat → Byte} {text : List Byte} (h : StringFrom buffer 0 text)
    {ch : Byte} (hch : ch ≠ 0#8) :
    StringFrom (Function.update (Function.update buffer text.length ch) (text.length + 1) 0#8) 0
      (text ++ [ch]) := by
  refine ⟨fun k hk => ?_, ?_, ?_⟩
  · rw [List.length_append, List.length_singleton] at hk
    rw [Nat.zero_add, Function.update_of_ne (by omega)]
    rcases Nat.lt_succ_iff_lt_or_eq.mp hk with hk | rfl
    · rw [Function.update_of_ne (by omega), List.getElem_append_left hk, ← h.chars k hk,
        Nat.zero_add]
    · rw [Function.update_self, List.getElem_concat_length rfl]
  · rw [List.length_append, List.length_singleton, Nat.zero_add, Function.update_self]
  · rw [List.mem_append, List.mem_singleton, not_or]
    exact ⟨h.noNul, hch.symm⟩

/-- A character on its own. -/
theorem stringFrom_singleton {buffer : Nat → Byte} (hch : ch ≠ 0#8) (hfirst : buffer 0 = ch)
    (hstop : buffer 1 = 0#8) : StringFrom buffer 0 [ch] :=
  stringFrom_cons.mpr ⟨hfirst, hch, stringFrom_nil.mpr hstop⟩

/-- A character and a terminator at the start of the display. -/
theorem storeSingleton_meets {f : CalculatorEntry F → CalculatorEntry F}
    {Q : CalculatorEntry F → Prop} (hch : ch ≠ 0#8)
    (h : ∀ display, StringFrom display 0 [ch] → Q (f { c with display := display })) :
    (do
      let c ← storeDisplay 0 ch c
      let c ← storeDisplay 1 0#8 c
      pure (f c)).Meets InDisplay Q := by
  refine (storeDisplay_meets (by decide) rfl).bind fun c₁ h₁ => ?_
  refine (storeDisplay_meets (by decide) rfl).bind fun c₂ h₂ => meets_pure ?_
  subst h₁ h₂
  exact h _ (stringFrom_singleton hch rfl rfl)

theorem clearEntry_holds (ops : DoubleOps F) (c : CalculatorEntry F) :
    (clearEntry ops c).Meets InDisplay (·.Holds) :=
  storeSingleton_meets (by decide) fun _ hstring =>
    ⟨[0x30#8], ⟨hstring, rfl, by decide, by decide⟩, nofun⟩

theorem appendDisplay_entered (h : c.Shows text) (hroom : c.displayLen < 15) (hch : ch ≠ 0#8)
    (hpoints : (text ++ [ch]).count 0x2E#8 ≤ 1) :
    (appendDisplay ch c).Meets InDisplay (·.Entered) := by
  have hlength := h.length
  have hle : (text ++ [ch]).length ≤ 15 := by
    rw [List.length_append, List.length_singleton]
    omega
  refine (storeDisplay_meets (by omega) rfl).bind fun d hd => ?_
  subst hd
  refine storeDisplay_meets (by dsimp only; omega) ?_
  refine ⟨text ++ [ch], ⟨?_, ?_, ?_, Nat.le_trans hle (by decide)⟩, hle, hpoints⟩
  · dsimp only
    rw [hlength]
    exact h.string.concat hch
  · rw [List.length_append, List.length_singleton, ← hlength]
  · rw [List.length_append, List.length_singleton]
    exact Nat.le_add_left 1 _

theorem enterDigit_entered (h : c.Holds) (hch : isDigit ch) :
    (enterDigit ch c).Meets InDisplay (·.Entered) := by
  obtain ⟨text, hshows, hentry⟩ := h
  obtain ⟨hnul, hpoint⟩ := isDigit_ne hch
  have hone : IsEntry [ch] := ⟨by simp, by simp [hpoint]⟩
  unfold enterDigit
  split
  · exact storeSingleton_meets hnul fun _ hstring =>
      ⟨[ch], ⟨hstring, rfl, by simp, by simp⟩, hone⟩
  · next hold =>
    have hentry := hentry (Bool.eq_false_iff.mpr hold)
    split
    · next hroom =>
      split
      · next hzero =>
        -- the digit takes the place of a zero
        have hstop : c.display 1 = 0#8 := by
          have hstop := hshows.string.stop
          rwa [← hshows.length, hzero.2] at hstop
        refine storeDisplay_meets (by decide)
          ⟨[ch], ⟨stringFrom_singleton hnul rfl hstop, hzero.2, by simp, by simp⟩, hone⟩
      · refine appendDisplay_entered hshows hroom hnul ?_
        rw [List.count_append, List.count_singleton, if_neg (by simpa using hpoint)]
        exact hentry.points_le
    · exact meets_pure ⟨text, hshows, hentry⟩

theorem enterDecimal_entered (h : c.Holds) :
    (enterDecimal c).Meets InDisplay (·.Entered) := by
  obtain ⟨text, hshows, hentry⟩ := h
  unfold enterDecimal
  split
  · refine (storeDisplay_meets (by decide) rfl).bind fun c₁ h₁ => ?_
    refine (storeDisplay_meets (by decide) rfl).bind fun c₂ h₂ => ?_
    refine (storeDisplay_meets (by decide) rfl).bind fun c₃ h₃ => meets_pure ?_
    subst h₁ h₂ h₃
    refine ⟨[0x30#8, 0x2E#8], ⟨?_, rfl, by decide, by decide⟩, by decide, by decide⟩
    exact stringFrom_cons.mpr ⟨rfl, by decide,
      stringFrom_cons.mpr ⟨rfl, by decide, stringFrom_nil.mpr rfl⟩⟩
  · next hold =>
    have hentry := hentry (Bool.eq_false_iff.mpr hold)
    dsimp only
    split
    · next hroom =>
      rw [Bool.and_eq_true, Bool.not_eq_true', List.any_eq_false, decide_eq_true_eq] at hroom
      -- the loop has looked at every character
      have hnone : 0x2E#8 ∉ text := by
        intro hmem
        obtain ⟨k, hk, hpoint⟩ := List.mem_iff_getElem.mp hmem
        refine hroom.1 k (List.mem_range.mpr (hshows.length ▸ hk)) (decide_eq_true ?_)
        rw [← hpoint, ← hshows.string.chars k hk, Nat.zero_add]
      refine appendDisplay_entered hshows hroom.2 (by decide) ?_
      rw [List.count_append, List.count_eq_zero_of_not_mem hnone]
      decide
    · exact meets_pure ⟨text, hshows, hentry⟩

end Display

/-! ## Runs -/

section Runs
variable {c : CalculatorEntry F} {ops : DoubleOps F}

theorem handleLabel_holds (ch : Byte) (h : c.Holds) :
    (handleLabel ops ch c).Meets InDisplay (·.Holds) := by
  obtain ⟨text, hshows, hentry⟩ := h
  -- behind an operator a new number starts
  have hoperator : ∀ c' : CalculatorEntry F, (∃ text, c'.Shows text) → ∀ operation,
      ({ c' with operation := operation, newNumber := true } : CalculatorEntry F).Holds :=
    fun _ ⟨text', hshows'⟩ _ =>
      ⟨text', ⟨hshows'.string, hshows'.length, hshows'.pos, hshows'.le⟩, nofun⟩
  unfold handleLabel
  split
  · exact clearEntry_holds ops c
  · split
    · next hdigit => exact (enterDigit_entered ⟨text, hshows, hentry⟩ hdigit).mono fun _ => (·.holds)
    · split
      · exact (enterDecimal_entered ⟨text, hshows, hentry⟩).mono fun _ => (·.holds)
      · split
        · exact (calculatorExecute_shows hshows).bind fun c' hc' => meets_pure (hoperator c' hc' _)
        · have hresult : (if c.newNumber then pure c else calculatorExecute ops c).Meets InDisplay
              fun c' => ∃ text, c'.Shows text := by
            split
            · exact meets_pure ⟨text, hshows⟩
            · exact calculatorExecute_shows hshows
          exact hresult.bind fun c' hc' => meets_pure (hoperator c' hc' _)

theorem calculatorHandleButton_holds (buttonId : Nat) (h : c.Holds) :
    (calculatorHandleButton ops buttonId c).Meets InDisplay (·.Holds) := by
  unfold calculatorHandleButton
  split
  · next ch _ => exact handleLabel_holds ch h
  · exact meets_pure h

theorem pressButtons_holds (presses : List (DoubleOps F × Nat)) (h : c.Holds) :
    (pressButtons presses c).Meets InDisplay (·.Holds) :=
  meets_foldlM h fun _ press _ hc => calculatorHandleButton_holds press.2 hc

/-- The button of a digit or of the point. -/
def IsEntryButton (buttonId : Nat) : Prop :=
  ∃ ch, buttonLabels[buttonId]? = some ch ∧ (isDigit ch ∨ ch = 0x2E#8)

theorem calculatorHandleButton_entered {buttonId : Nat} (hbutton : IsEntryButton buttonId)
    (h : c.Holds) : (calculatorHandleButton ops buttonId c).Meets InDisplay (·.Entered) := by
  obtain ⟨ch, hch, hentry⟩ := hbutton
  unfold calculatorHandleButton handleLabel
  rw [hch]
  dsimp only
  rcases hentry with hdigit | rfl
  · rw [if_neg (by rintro rfl; exact absurd hdigit (by decide)), if_pos hdigit]
    exact enterDigit_entered h hdigit
  · exact enterDecimal_entered h

/-- A terminator at `display_len` or before it. -/
structure CalculatorEntry.Safe (c : CalculatorEntry F) : Prop where
  terminated : ∃ i ≤ c.displayLen, c.display i = 0#8
  pos : 1 ≤ c.displayLen
  le : c.displayLen ≤ 31

theorem CalculatorEntry.Shows.safe {text : List Byte} (h : c.Shows text) : c.Safe := by
  have hstop := h.string.stop
  rw [Nat.zero_add, ← h.length] at hstop
  exact ⟨⟨_, Nat.le_refl _, hstop⟩, h.length ▸ h.pos, h.length ▸ h.le⟩

/-- Whatever the doubles do, the presses of the buttons after `calculator_init` write to
`display` only, and leave a terminator there at `display_len` or before it. A digit or a
decimal point leaves at most 15 characters, and one decimal point among them. -/
theorem calculator_display_safe (ops : DoubleOps F) (c : CalculatorEntry F)
    (presses : List (DoubleOps F × Nat)) :
    (clearEntry ops c >>= pressButtons presses).Meets (fun i => i < 32) fun c' =>
      c'.Safe ∧ ∀ ops' buttonId, IsEntryButton buttonId →
        let c'' := (calculatorHandleButton ops' buttonId c').value
        c''.displayLen ≤ 15 ∧ c''.text.length ≤ 15 ∧ c''.text.count 0x2E#8 ≤ 1 := by
  refine ((clearEntry_holds ops c).bind fun _ => pressButtons_holds presses).mono ?_
  intro c' hc'
  obtain ⟨text, hshows, hentry⟩ := hc'
  refine ⟨hshows.safe, fun ops' buttonId hbutton => ?_⟩
  have hentered : (calculatorHandleButton ops' buttonId c').Meets InDisplay (·.Entered) :=
    calculatorHandleButton_entered hbutton ⟨text, hshows, hentry⟩
  obtain ⟨text', hshows', hentry'⟩ := hentered.2
  dsimp only
  rw [hshows'.text_eq, hshows'.length]
  exact ⟨hentry'.length_le, hentry'.length_le, hentry'.points_le⟩

end Runs

/-! ## The mouse -/

section Mouse
variable {δ : Type} {keypad : Keypad δ}

theorem calculatorCheckButton_lt {c : Calculator δ} {mx my : Word} {buttonId : Nat}
    (h : calculatorCheckButton c mx my = some buttonId) : buttonId < buttonLabels.length := by
  obtain ⟨hlt, _⟩ := List.findIdx?_eq_some_iff_getElem.mp h
  exact hlt

theorem calculatorClick_entry {P : δ → Prop}
    (hbutton : ∀ buttonId < buttonLabels.length, ∀ e, P e → P (keypad.handleButton buttonId e))
    {c : Calculator δ} (h : P c.entry) (mx my : Word) :
    P (calculatorClick keypad mx my c).entry := by
  unfold calculatorClick
  split
  · exact h
  · split
    · next hcheck => exact hbutton _ (calculatorCheckButton_lt hcheck) _ h
    · exact h

/-- The mouse changes the entry through the buttons of the table only. -/
theorem calculatorUpdate_entry {P : δ → Prop}
    (hbutton : ∀ buttonId < buttonLabels.length, ∀ e, P e → P (keypad.handleButton buttonId e))
    {s : CalculatorApp δ} (h : P s.calculator.entry) (screen : Screen) (mouse : MouseState) :
    P (calculatorUpdate screen keypad mouse s).calculator.entry := by
  unfold calculatorUpdate
  split
  · exact h
  · dsimp only
    split
    · exact h
    · dsimp only
      have hclick : P (if leftButton mouse.buttons && !leftButton s.lastButtons then
          calculatorClick keypad (screenX screen mouse.x) (screenY screen mouse.y) s.calculator
          else s.calculator).entry := by
        split
        · exact calculatorClick_entry hbutton h _ _
        · exact h
      generalize (if leftButton mouse.buttons && !leftButton s.lastButtons then
        calculatorClick keypad (screenX screen mouse.x) (screenY screen mouse.y) s.calculator
        else s.calculator) = c at *
      split <;> split <;> exact hclick

/-- The window keeps what the buttons keep. -/
theorem updateCalculatorApp_holds (ops : DoubleOps F) (c : CalculatorEntry F) (screen : Screen)
    (mouse : MouseState) {s : CalculatorApp (CalculatorEntry F)} (h : s.calculator.entry.Holds) :
    (updateCalculatorApp screen (displayKeypad ops c) mouse s).calculator.entry.Holds := by
  unfold updateCalculatorApp
  split
  · exact calculatorUpdate_entry (P := CalculatorEntry.Holds)
      (fun buttonId _ _ he => (calculatorHandleButton_holds buttonId he).2) h screen mouse
  · exact h

end Mouse

end Zenix
